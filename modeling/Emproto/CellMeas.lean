import Emproto.RntiReport

/-! Cell measurements (`epcellmeas.c`).
The packed body `ep_cell_PRB_rep` of a report token is `DL_res 0, DL_used 1,
UL_res 5, UL_used 6` in 10 bytes; a request token has no body. -/

namespace Emproto

structure EpCellPrbInfo where
  dlPrbs : UInt8
  dlPrbsUsed : UInt32
  ulPrbs : UInt8
  ulPrbsUsed : UInt32
deriving DecidableEq, Repr

structure EpCellRep where
  prb : EpCellPrbInfo
deriving DecidableEq, Repr

def EpCellRep.zero : EpCellRep := ⟨⟨0, 0, 0, 0⟩⟩

/-! Formatters. -/

/-- The size is not looked at. -/
def epfCellMeasRep (host : ByteOrder) (rep : EpCellRep) (buf : Nat) (_size : UInt32) : Code Int :=
  if rep.prb.dlPrbs ≠ 0 ∨ rep.prb.ulPrbs ≠ 0 then do
    Code.store host buf (htons host EpTLVType.cellPrbReport.code)
    Code.store host (buf + 2) (htons host 10)
    Code.store host (buf + 4) rep.prb.dlPrbs
    Code.store host (buf + 5) (htonl host rep.prb.dlPrbsUsed)
    Code.store host (buf + 9) rep.prb.ulPrbs
    Code.store host (buf + 10) (htonl host rep.prb.ulPrbsUsed)
    pure 14
  else pure 0

def epfCellMeasReq (host : ByteOrder) (buf : Nat) (size : UInt32) : Code Int :=
  if size.toNat < 4 then pure (-1)
  else do
    Code.store host buf (htons host EpTLVType.cellPrbReq.code)
    Code.store host (buf + 2) (htons host 0)
    pure 4

def epfSchedCellMeasFail (host : ByteOrder) (buf : Option Nat) (size : UInt32) (ids : EpHdrId) :
    Code Int :=
  formatMessage host buf size .schedule ids .rep
    (epfSchedule host .cellMeasure EpOpType.fail.code 0) fun _ _ => pure 0

def epfSchedCellMeasNs (host : ByteOrder) (buf : Option Nat) (size : UInt32) (ids : EpHdrId) :
    Code Int :=
  formatMessage host buf size .schedule ids .rep
    (epfSchedule host .cellMeasure EpOpType.notSupported.code 0) fun _ _ => pure 0

def epfSchedCellMeasRep (host : ByteOrder) (buf : Option Nat) (size : UInt32) (ids : EpHdrId)
    (interval : UInt32) (info : Option EpCellRep) : Code Int :=
  match info with
  | none => pure (-1)
  | some info => formatMessage host buf size .schedule ids .rep
      (epfSchedule host .cellMeasure EpOpType.success.code interval) (epfCellMeasRep host info)

def epfSchedCellMeasReq (host : ByteOrder) (buf : Option Nat) (size : UInt32) (ids : EpHdrId)
    (interval : UInt32) : Code Int :=
  formatMessage host buf size .schedule ids .req
    (epfSchedule host .cellMeasure EpOpType.unspecified.code interval) (epfCellMeasReq host)

def epfTriggerCellMeasFail (host : ByteOrder) (buf : Option Nat) (size : UInt32)
    (ids : EpHdrId) : Code Int :=
  formatMessage host buf size .trigger ids .rep
    (epfTrigger host .cellMeasure EpOpType.fail.code) fun _ _ => pure 0

def epfTriggerCellMeasNs (host : ByteOrder) (buf : Option Nat) (size : UInt32) (ids : EpHdrId) :
    Code Int :=
  formatMessage host buf size .trigger ids .rep
    (epfTrigger host .cellMeasure EpOpType.notSupported.code) fun _ _ => pure 0

def epfTriggerCellMeasRep (host : ByteOrder) (buf : Option Nat) (size : UInt32) (ids : EpHdrId)
    (info : Option EpCellRep) : Code Int :=
  match info with
  | none => pure (-1)
  | some info => formatMessage host buf size .trigger ids .rep
      (epfTrigger host .cellMeasure EpOpType.success.code) (epfCellMeasRep host info)

def epfTriggerCellMeasReq (host : ByteOrder) (buf : Option Nat) (size : UInt32) (ids : EpHdrId) :
    Code Int :=
  formatMessage host buf size .trigger ids .req
    (epfTrigger host .cellMeasure EpOpType.unspecified.code) (epfCellMeasReq host)

/-! Parsers. -/

def eppCellMeasRepTLV (host : ByteOrder) (buf : Nat) (rep : EpCellRep) :
    Code (Int × EpCellRep) := do
  Code.note (.call buf)
  let type : UInt16 ← Code.load host buf
  if ntohs host type = EpTLVType.cellPrbReport.code then do
    let dlRes : UInt8 ← Code.load host (buf + 4)
    let dlUsed : UInt32 ← Code.load host (buf + 5)
    let ulRes : UInt8 ← Code.load host (buf + 9)
    let ulUsed : UInt32 ← Code.load host (buf + 10)
    let prb : EpCellPrbInfo := {
      dlPrbs := dlRes
      dlPrbsUsed := ntohl host dlUsed
      ulPrbs := ulRes
      ulPrbsUsed := ntohl host ulUsed }
    pure (epSuccess, { rep with prb := prb })
  else pure (epSuccess, rep)

def eppCellMeasRep (host : ByteOrder) (buf : Option Nat) (size : UInt32)
    (rep : Option EpCellRep) : Code (Int × Option EpCellRep) :=
  match buf with
  | none => pure (epError, rep)
  | some b => do
    Code.note (.enter b size.toNat)
    match rep with
    | none => pure (epError, none)
    | some _ => do
      let (status, rep) ← tokenLoop host false false (eppCellMeasRepTLV host) (b + size.toNat)
        size.toNat b .zero
      pure (status, some rep)

def eppCellMeasReqTLV (host : ByteOrder) (buf : Nat) (_ : Unit) : Code (Int × Unit) := do
  let type : UInt16 ← Code.load host buf
  if ntohs host type ≠ EpTLVType.cellPrbReq.code then pure (epSuccess, ())
  else pure (epSuccess, ())

def eppCellMeasReq (host : ByteOrder) (buf : Option Nat) (size : UInt32) : Code Int :=
  match buf with
  | none => pure epError
  | some b => do
    Code.note (.enter b size.toNat)
    let (status, _) ← tokenLoop host false false (eppCellMeasReqTLV host) (b + size.toNat)
      size.toNat b ()
    pure status

def eppSchedCellMeasRep (host : ByteOrder) (buf : Option Nat) (size : UInt32)
    (info : Option EpCellRep) : Code (Int × Option EpCellRep) :=
  match buf, info with
  | some b, some info =>
    eppCellMeasRep host (some (b + 24 + 7)) (size - UInt32.ofNat (24 + 7)) (some info)
  | _, _ => pure (-1, info)

/-- The interval is stored without a look at its pointer. -/
def eppSchedCellMeasReq (host : ByteOrder) (buf : Option Nat) (size : UInt32)
    (interval : Option UInt32) : Code (Int × Option UInt32) :=
  match buf with
  | none => pure (-1, interval)
  | some b => do
    let value ← eppSchedInterval host b size
    match interval with
    | none => Code.crash
    | some _ => do
      let status ← eppCellMeasReq host (some (b + 24 + 7)) (size - UInt32.ofNat (24 + 7))
      pure (status, some value)

def eppTriggerCellMeasRep (host : ByteOrder) (buf : Option Nat) (size : UInt32)
    (info : Option EpCellRep) : Code (Int × Option EpCellRep) :=
  match buf, info with
  | some b, some info =>
    eppCellMeasRep host (some (b + 24 + 3)) (size - UInt32.ofNat (24 + 3)) (some info)
  | _, _ => pure (-1, info)

def eppTriggerCellMeasReq (host : ByteOrder) (buf : Option Nat) (size : UInt32) : Code Int :=
  match buf with
  | none => pure (-1)
  | some b => eppCellMeasReq host (some (b + 24 + 3)) (size - UInt32.ofNat (24 + 3))

section Runs
variable {host : ByteOrder} (m : Mem)

def prbStep (c : Nat) (rep : EpCellRep) : EpCellRep :=
  if (m.be c : UInt16) = EpTLVType.cellPrbReport.code then
    { rep with prb := ⟨m (c + 4), m.be (c + 5), m (c + 9), m.be (c + 10)⟩ }
  else rep

def prbTrace (c : Nat) : Trace :=
  .call c :: (Code.loadTrace c 2 ++
    if (m.be c : UInt16) = EpTLVType.cellPrbReport.code then
      Code.loadTrace (c + 4) 1 ++ (Code.loadTrace (c + 5) 4 ++ (Code.loadTrace (c + 9) 1 ++
        Code.loadTrace (c + 10) 4))
    else [])

theorem prbTrace_handles (c : Nat) : (prbTrace m c).Handles c := by
  refine Trace.Plain.handles ?_ c
  split_ifs <;> simp

theorem run_eppCellMeasRepTLV (c : Nat) (rep : EpCellRep) :
    (eppCellMeasRepTLV host c rep).run m = some ((0, prbStep m c rep), prbTrace m c) := by
  rw [eppCellMeasRepTLV, Code.run_note_bind m rfl, Code.run_load_bind]
  simp only [Mem.ntoh_word, prbStep, prbTrace]
  split_ifs
  · simp only [Code.run_load_bind, Mem.ntoh_word, Mem.word_uint8]
    rfl
  · rfl

theorem run_eppCellMeasReqTLV (c : Nat) (s : Unit) :
    (eppCellMeasReqTLV host c s).run m = some ((0, ()), Code.loadTrace c 2) := by
  rw [eppCellMeasReqTLV, Code.run_load_bind]
  split_ifs <;> simp [Word.width]

theorem run_eppCellMeasRep (b : Nat) (size : UInt32) (rep : EpCellRep) :
    (eppCellMeasRep host (some b) size (some rep)).run m =
      some ((0, some (runSteps (prbStep m) ((m.walker false (b + size.toNat)).walk b) .zero)),
        .enter b size.toNat :: loopTrace (m.walker false (b + size.toNat)) (prbStep m)
          (fun c _ => prbTrace m c) b .zero) := by
  rw [eppCellMeasRep, Code.run_note_bind m rfl]
  dsimp only
  rw [run_tokenLoop_bind (prbStep m) (run_eppCellMeasRepTLV m)
    (fun c _ => (prbTrace_handles m c).stores) (by omega)]
  simp

theorem run_eppCellMeasReq (b : Nat) (size : UInt32) :
    (eppCellMeasReq host (some b) size).run m =
      some (0, .enter b size.toNat :: loopTrace (m.walker false (b + size.toNat))
        (fun _ s => s) (fun c _ => Code.loadTrace c 2) b ()) := by
  rw [eppCellMeasReq, Code.run_note_bind m rfl, run_tokenLoop_bind (fun _ s => s)
    (run_eppCellMeasReqTLV m) (fun c _ => Code.stores_loadTrace c 2) (by omega)]
  simp

theorem run_eppSchedCellMeasReq {b : Nat} {size : UInt32} {status : Int} {es : Trace}
    (body : (eppCellMeasReq host (some (b + 24 + 7)) (size - UInt32.ofNat (24 + 7))).run m =
      some (status, es)) (interval : UInt32) :
    (eppSchedCellMeasReq host (some b) size (some interval)).run m =
      some ((status, some (schedInterval m b size)), schedIntervalTrace b size ++ es) := by
  rw [eppSchedCellMeasReq, Code.run_bind_quiet m (run_eppSchedInterval m b size)
    (schedIntervalTrace_plain b size).stores]
  dsimp only
  rw [Code.run_bind, body]
  simp

end Runs

end Emproto
