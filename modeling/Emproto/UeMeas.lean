import Emproto.RntiReport
import Emproto.CountedArray

/-! UE measurements (`epuemeas.c`).
Packed token bodies: `ep_ue_RRC_rep` is `meas_id 0, pci 2, rsrp 4, rsrq 6` in 8
bytes, `ep_ue_RRC_measure` is `meas_id 0, rnti 2, earfcn 4, interval 6, max_cells
8, max_meas 10` in 12 bytes. Both records are an array `rrc` with `nof_rrc` entries
in use. -/

namespace Emproto

def epUeRrcMeasMax : UInt32 := 8

structure EpUeRRCReport where
  measId : UInt16
  pci : UInt16
  rsrp : UInt16
  rsrq : UInt16
deriving DecidableEq, Repr

structure EpUeRRCMeas where
  measId : UInt16
  rnti : UInt16
  earfcn : UInt16
  interval : UInt16
  maxCells : Int16
  maxMeas : Int16
deriving DecidableEq, Repr

abbrev EpUeReport := CountedArray EpUeRRCReport

abbrev EpUeMeas := CountedArray EpUeRRCMeas

def EpUeReport.zero : EpUeReport := ⟨fun _ => ⟨0, 0, 0, 0⟩, 0⟩

def EpUeMeas.zero : EpUeMeas := ⟨fun _ => ⟨0, 0, 0, 0, 0, 0⟩, 0⟩

/-! Formatters. The sum `s` of the source is the distance `c - buf`. -/

/-- The common loop of the body formatters. -/
def formatRrcs {α : Type} (width : Nat) (put : Nat → Nat → Code Unit) (rep : CountedArray α)
    (buf : Nat) (size : UInt32) : Code Int := do
  match ← fillTokens width put (buf + size.toNat)
      (min rep.count.toNat epUeRrcMeasMax.toNat) 0 buf with
  | none => pure (-1)
  | some c => pure (toInt32 ((c - buf : Nat) : Int))

def putRrcReport (host : ByteOrder) (rrc : Nat → EpUeRRCReport) (i c : Nat) : Code Unit := do
  Code.store host c (htons host EpTLVType.ueRrcReport.code)
  Code.store host (c + 2) (htons host 8)
  Code.store host (c + 4) (htons host (rrc i).measId)
  Code.store host (c + 6) (htons host (rrc i).pci)
  Code.store host (c + 10) (htons host (rrc i).rsrq)
  Code.store host (c + 8) (htons host (rrc i).rsrp)

def epfUemeasRep (host : ByteOrder) (rep : EpUeReport) : Nat → UInt32 → Code Int :=
  formatRrcs 12 (putRrcReport host rep.entry) rep

/-- The interval is not written. -/
def putRrcMeas (host : ByteOrder) (rrc : Nat → EpUeRRCMeas) (i c : Nat) : Code Unit := do
  Code.store host c (htons host EpTLVType.ueRrcMeas.code)
  Code.store host (c + 2) (htons host 12)
  Code.store host (c + 6) (htons host (rrc i).rnti)
  Code.store host (c + 4) (htons host (rrc i).measId)
  Code.store host (c + 8) (htons host (rrc i).earfcn)
  Code.store host (c + 12) (htons host (rrc i).maxCells.toUInt16)
  Code.store host (c + 14) (htons host (rrc i).maxMeas.toUInt16)

def epfUemeasReq (host : ByteOrder) (meas : Option EpUeMeas) (buf : Nat) (size : UInt32) :
    Code Int :=
  match meas with
  | none => Code.crash
  | some meas => formatRrcs 16 (putRrcMeas host meas.entry) meas buf size

def epfTriggerUemeasRepFail (host : ByteOrder) (buf : Option Nat) (size : UInt32)
    (ids : EpHdrId) : Code Int :=
  formatMessage host buf size .trigger ids .rep
    (epfTrigger host .ueMeasure EpOpType.fail.code) fun _ _ => pure 0

def epfTriggerUemeasRep (host : ByteOrder) (buf : Option Nat) (size : UInt32) (ids : EpHdrId)
    (rep : Option EpUeReport) : Code Int :=
  match rep with
  | none => pure (-1)
  | some rep => formatMessage host buf size .trigger ids .rep
      (epfTrigger host .ueMeasure EpOpType.success.code) (epfUemeasRep host rep)

def epfTriggerUemeasReq (host : ByteOrder) (buf : Option Nat) (size : UInt32) (ids : EpHdrId)
    (op : EpOpType) (meas : Option EpUeMeas) : Code Int :=
  formatMessage host buf size .trigger ids .req (epfTrigger host .ueMeasure op.code)
    (epfUemeasReq host meas)

/-! Parsers. -/

/-- The common text of `epp_uemeas_rep_TLV` and `epp_uemeas_req_TLV`. -/
def parseRrcTLV {α : Type} (host : ByteOrder) (code : UInt16) (body : Nat → Code α) (buf : Nat)
    (rep : CountedArray α) : Code (Int × CountedArray α) := do
  Code.note (.call buf)
  let type : UInt16 ← Code.load host buf
  if ntohs host type = code then
    if rep.count ≥ epUeRrcMeasMax then pure (epError, rep)
    else do
      let rrc ← body buf
      pure (epSuccess, ⟨Function.update rep.entry rep.count.toNat rrc, rep.count + 1⟩)
  else pure (epSuccess, rep)

/-- The common text of `epp_uemeas_rep` and `epp_uemeas_req`: the record is cleared,
and the status of the handler is not looked at. -/
def parseRrcs {α : Type} (host : ByteOrder) (code : UInt16) (body : Nat → Code α)
    (zero : CountedArray α) (buf : Option Nat) (size : UInt32) (rep : Option (CountedArray α)) :
    Code (Int × Option (CountedArray α)) :=
  match buf with
  | none => pure (epError, rep)
  | some b => do
    Code.note (.enter b size.toNat)
    match rep with
    | none => pure (epError, none)
    | some _ => do
      let (status, rep) ← tokenLoop host false false (parseRrcTLV host code body)
        (b + size.toNat) size.toNat b zero
      pure (status, some rep)

def rrcReportBody (host : ByteOrder) (buf : Nat) : Code EpUeRRCReport := do
  let measId : UInt16 ← Code.load host (buf + 4)
  let pci : UInt16 ← Code.load host (buf + 6)
  let rsrp : UInt16 ← Code.load host (buf + 8)
  let rsrq : UInt16 ← Code.load host (buf + 10)
  pure {
    measId := ntohs host measId
    pci := ntohs host pci
    rsrp := ntohs host rsrp
    rsrq := ntohs host rsrq }

def rrcMeasBody (host : ByteOrder) (buf : Nat) : Code EpUeRRCMeas := do
  let measId : UInt16 ← Code.load host (buf + 4)
  let rnti : UInt16 ← Code.load host (buf + 6)
  let earfcn : UInt16 ← Code.load host (buf + 8)
  let interval : UInt16 ← Code.load host (buf + 10)
  let maxCells : UInt16 ← Code.load host (buf + 12)
  let maxMeas : UInt16 ← Code.load host (buf + 14)
  pure {
    measId := ntohs host measId
    rnti := ntohs host rnti
    earfcn := ntohs host earfcn
    interval := ntohs host interval
    maxCells := (ntohs host maxCells).toInt16
    maxMeas := (ntohs host maxMeas).toInt16 }

def eppUemeasRepTLV (host : ByteOrder) (buf : Nat) (rep : EpUeReport) :
    Code (Int × EpUeReport) :=
  parseRrcTLV host EpTLVType.ueRrcReport.code (rrcReportBody host) buf rep

def eppUemeasRep (host : ByteOrder) (buf : Option Nat) (size : UInt32) (rep : Option EpUeReport) :
    Code (Int × Option EpUeReport) :=
  parseRrcs host EpTLVType.ueRrcReport.code (rrcReportBody host) EpUeReport.zero buf size rep

def eppUemeasReqTLV (host : ByteOrder) (buf : Nat) (meas : EpUeMeas) : Code (Int × EpUeMeas) :=
  parseRrcTLV host EpTLVType.ueRrcMeas.code (rrcMeasBody host) buf meas

def eppUemeasReq (host : ByteOrder) (buf : Option Nat) (size : UInt32) (meas : Option EpUeMeas) :
    Code (Int × Option EpUeMeas) :=
  parseRrcs host EpTLVType.ueRrcMeas.code (rrcMeasBody host) EpUeMeas.zero buf size meas

def eppTriggerUemeasRep (host : ByteOrder) (buf : Option Nat) (size : UInt32)
    (rep : Option EpUeReport) : Code (Int × Option EpUeReport) :=
  match buf, rep with
  | some b, some rep =>
    eppUemeasRep host (some (b + 24 + 3)) (size - UInt32.ofNat (24 + 3)) (some rep)
  | _, _ => pure (-1, rep)

def eppTriggerUemeasReq (host : ByteOrder) (buf : Option Nat) (size : UInt32)
    (meas : Option EpUeMeas) : Code (Int × Option EpUeMeas) :=
  match buf with
  | none => pure (-1, meas)
  | some b => eppUemeasReq host (some (b + 24 + 3)) (size - UInt32.ofNat (24 + 3)) meas

section Runs
variable {host : ByteOrder} (m : Mem)

section Entries
variable {α : Type} (code : UInt16) (entry : Nat → α) (read : Nat → Trace)

def rrcStep (c : Nat) (rep : CountedArray α) : CountedArray α :=
  if m.be c = code then rep.push epUeRrcMeasMax (entry c) else rep

def rrcStatus (c : Nat) (rep : CountedArray α) : Int :=
  if m.be c = code ∧ rep.count ≥ epUeRrcMeasMax then epError else epSuccess

def rrcTrace (c : Nat) (rep : CountedArray α) : Trace :=
  .call c :: (Code.loadTrace c 2 ++
    if m.be c = code ∧ rep.count < epUeRrcMeasMax then read c else [])

variable {code entry read} {body : Nat → Code α}

theorem rrcTrace_handles (plain : ∀ c, (read c).Plain) (c : Nat) (rep : CountedArray α) :
    (rrcTrace m code read c rep).Handles c := by
  refine Trace.Plain.handles ?_ c
  split_ifs <;> simp [plain]

theorem run_parseRrcTLV (hbody : ∀ c, (body c).run m = some (entry c, read c))
    (plain : ∀ c, (read c).Plain) (c : Nat) (rep : CountedArray α) :
    (parseRrcTLV host code body c rep).run m =
      some ((rrcStatus m code c rep, rrcStep m code entry c rep), rrcTrace m code read c rep) := by
  rw [parseRrcTLV, Code.run_note_bind m rfl, Code.run_load_bind]
  simp only [Mem.ntoh_word, rrcStatus, rrcStep, rrcTrace]
  by_cases mine : m.be c = code
  · by_cases full : rep.count ≥ epUeRrcMeasMax
    · have kept : rep.push epUeRrcMeasMax (entry c) = rep := if_pos full
      have outside : ¬ rep.count < epUeRrcMeasMax := UInt32.not_lt.mpr full
      simp only [mine, full, outside, kept, if_true, and_true, and_false, if_false]
      rfl
    · have room : rep.count < epUeRrcMeasMax := UInt32.not_le.mp full
      have grown : rep.push epUeRrcMeasMax (entry c) =
          ⟨Function.update rep.entry rep.count.toNat (entry c), rep.count + 1⟩ := if_neg full
      simp only [mine, full, room, grown, if_true, and_true, if_false]
      rw [Code.run_bind_quiet m (hbody c) (plain c).stores]
      simp
      rfl
  · simp only [mine, false_and, if_false]
    rfl

theorem run_parseRrcs (hbody : ∀ c, (body c).run m = some (entry c, read c))
    (plain : ∀ c, (read c).Plain) (zero : CountedArray α) (b : Nat) (size : UInt32)
    (rep : CountedArray α) :
    (parseRrcs host code body zero (some b) size (some rep)).run m =
      some ((0, some (runSteps (rrcStep m code entry)
          ((m.walker false (b + size.toNat)).walk b) zero)),
        .enter b size.toNat :: loopTrace (m.walker false (b + size.toNat)) (rrcStep m code entry)
          (rrcTrace m code read) b zero) := by
  rw [parseRrcs, Code.run_note_bind m rfl]
  dsimp only
  rw [run_tokenLoop_bind (rrcStep m code entry) (run_parseRrcTLV m hbody plain)
    (fun c rep => (rrcTrace_handles m plain c rep).stores) (by omega)]
  simp

end Entries

def rrcReportAt (c : Nat) : EpUeRRCReport :=
  ⟨m.be (c + 4), m.be (c + 6), m.be (c + 8), m.be (c + 10)⟩

def rrcMeasAt (c : Nat) : EpUeRRCMeas where
  measId := m.be (c + 4)
  rnti := m.be (c + 6)
  earfcn := m.be (c + 8)
  interval := m.be (c + 10)
  maxCells := (m.be (c + 12) : UInt16).toInt16
  maxMeas := (m.be (c + 14) : UInt16).toInt16

def rrcReportReads (c : Nat) : Trace :=
  Code.loadTrace (c + 4) 2 ++ (Code.loadTrace (c + 6) 2 ++ (Code.loadTrace (c + 8) 2 ++
    Code.loadTrace (c + 10) 2))

def rrcMeasReads (c : Nat) : Trace :=
  Code.loadTrace (c + 4) 2 ++ (Code.loadTrace (c + 6) 2 ++ (Code.loadTrace (c + 8) 2 ++
    (Code.loadTrace (c + 10) 2 ++ (Code.loadTrace (c + 12) 2 ++ Code.loadTrace (c + 14) 2))))

theorem rrcReportReads_plain (c : Nat) : (rrcReportReads c).Plain := by
  simp [rrcReportReads]

theorem rrcMeasReads_plain (c : Nat) : (rrcMeasReads c).Plain := by
  simp [rrcMeasReads]

theorem run_rrcReportBody (c : Nat) :
    (rrcReportBody host c).run m = some (rrcReportAt m c, rrcReportReads c) := by
  rw [rrcReportBody]
  simp only [Code.run_load_bind, Mem.ntoh_word]
  rfl

theorem run_rrcMeasBody (c : Nat) :
    (rrcMeasBody host c).run m = some (rrcMeasAt m c, rrcMeasReads c) := by
  rw [rrcMeasBody]
  simp only [Code.run_load_bind, Mem.ntoh_word]
  rfl

theorem run_eppUemeasRep (b : Nat) (size : UInt32) (rep : EpUeReport) :
    (eppUemeasRep host (some b) size (some rep)).run m =
      some ((0, some (runSteps (rrcStep m EpTLVType.ueRrcReport.code (rrcReportAt m))
          ((m.walker false (b + size.toNat)).walk b) EpUeReport.zero)),
        .enter b size.toNat :: loopTrace (m.walker false (b + size.toNat))
          (rrcStep m EpTLVType.ueRrcReport.code (rrcReportAt m))
          (rrcTrace m EpTLVType.ueRrcReport.code rrcReportReads) b EpUeReport.zero) :=
  run_parseRrcs m (run_rrcReportBody m) rrcReportReads_plain EpUeReport.zero b size rep

theorem run_eppUemeasReq (b : Nat) (size : UInt32) (meas : EpUeMeas) :
    (eppUemeasReq host (some b) size (some meas)).run m =
      some ((0, some (runSteps (rrcStep m EpTLVType.ueRrcMeas.code (rrcMeasAt m))
          ((m.walker false (b + size.toNat)).walk b) EpUeMeas.zero)),
        .enter b size.toNat :: loopTrace (m.walker false (b + size.toNat))
          (rrcStep m EpTLVType.ueRrcMeas.code (rrcMeasAt m))
          (rrcTrace m EpTLVType.ueRrcMeas.code rrcMeasReads) b EpUeMeas.zero) :=
  run_parseRrcs m (run_rrcMeasBody m) rrcMeasReads_plain EpUeMeas.zero b size meas

end Runs

end Emproto
