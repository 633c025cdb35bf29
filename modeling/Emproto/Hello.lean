import Emproto.Header

/-! Hello messages (`ephello.c`). The packed bodies `ep_hello_rep` and `ep_hello_req`
are an id in 4 bytes. -/

namespace Emproto

/-! Formatters. -/

/-- The common text of `epf_hello_rep` and `epf_hello_req`. -/
def formatHello (host : ByteOrder) (id : UInt32) (buf : Nat) (size : UInt32) : Code Int :=
  if size.toNat < 4 then pure (-1)
  else do
    Code.store host buf (htonl host id)
    pure 4

def epfHelloRep := formatHello

def epfHelloReq := formatHello

def epfSingleHelloReq (host : ByteOrder) (buf : Option Nat) (size : UInt32) (ids : EpHdrId)
    (id : UInt32) : Code Int :=
  formatMessage host buf size .single ids .req
    (epfSingle host .hello EpOpType.unspecified.code) (epfHelloReq host id)

def epfSingleHelloRep (host : ByteOrder) (buf : Option Nat) (size : UInt32) (ids : EpHdrId)
    (id : UInt32) : Code Int :=
  formatMessage host buf size .single ids .rep
    (epfSingle host .hello EpOpType.success.code) (epfHelloRep host id)

def epfSchedHelloReq (host : ByteOrder) (buf : Option Nat) (size : UInt32) (ids : EpHdrId)
    (interval id : UInt32) : Code Int :=
  formatMessage host buf size .schedule ids .req
    (epfSchedule host .hello EpOpType.unspecified.code interval) (epfHelloReq host id)

/-- The result of the body is not looked at, and its length is not added. -/
def epfSchedHelloRep (host : ByteOrder) (buf : Option Nat) (size : UInt32) (ids : EpHdrId)
    (interval id : UInt32) : Code Int :=
  match buf with
  | none => pure (-1)
  | some b =>
    part b size 0 (fun p s => epfHead host (some p) s EpMsgType.schedule.code ids
      EpHdrFlagDir.rep.flag) fun ret =>
    part b size ret (epfSchedule host .hello EpOpType.success.code interval) fun ret => do
      let _ ← epfHelloRep host id (b + ret.toNat) (size - UInt32.ofInt ret)
      let _ ← epfMsgLength host (some b) size (UInt16.ofInt ret)
      pure ret

section SchedHelloRep
variable (host : ByteOrder) (b : Nat) {size : UInt32} (ids : EpHdrId) (interval id : UInt32)

theorem formatHello_emits {host : ByteOrder} {id : UInt32} {p : Nat} (h : 4 ≤ size.toNat) :
    Emits (formatHello host id p size) 4 (chunk p (Word.bytes .big id)) := by
  rw [formatHello, if_neg (by omega)]
  exact Emits.of_eq (Emits.store.bind <| .pure _) (by simp)

theorem epfSchedHelloRep_emits (h : 55 ≤ size.toNat) :
    Emits (epfSchedHelloRep host (some b) size ids interval id) 31
      (chunk b (headBytes host EpMsgType.schedule.code ids EpHdrFlagDir.rep.flag) ++
        (chunk (b + 24) (scheduleBytes host EpActType.hello.code EpOpType.success.code interval) ++
          (chunk (b + 31) (Word.bytes .big id) ++
            chunk (b + 22) (Word.bytes .big (UInt16.ofInt 31))))) := by
  have space : (size - UInt32.ofNat 24).toNat = size.toNat - 24 := uint32_sub_toNat (by omega)
  have space' : (size - UInt32.ofInt ((24 + 7 : Nat) : Int)).toNat = size.toNat - 31 := by
    rw [uint32_ofInt_natCast]
    exact uint32_sub_toNat (by omega)
  rw [epfSchedHelloRep]
  refine head_part (by omega) ?_
  refine part_emits 24 7 (epfSchedule_emits (by omega)) (by decide) ?_
  refine (formatHello_emits (by omega)).bind ?_
  exact Emits.of_eq ((epfMsgLength_emits (by omega)).bind (.pure _)) (List.append_nil _)

theorem epfSchedHelloRep_short (h : size.toNat < 55) :
    ∃ ws, Emits (epfSchedHelloRep host (some b) size ids interval id) (-1) ws ∧
      ∀ w ∈ ws, b ≤ w.1 ∧ w.1 < b + size.toNat := by
  rw [epfSchedHelloRep]
  by_cases head : size.toNat < 24
  · exact ⟨[], head_part_short head, by simp⟩
  have space : (size - UInt32.ofNat 24).toNat = size.toNat - 24 := uint32_sub_toNat (by omega)
  refine ⟨_, head_part (by omega) (part_fails 24 (epfSchedule_short (by omega)) (by decide)),
    fun w hw => ?_⟩
  rw [List.append_nil] at hw
  have := headChunk_bounds hw
  omega

end SchedHelloRep

/-! Parsers. -/

def parseHello (host : ByteOrder) (buf : Nat) (size : UInt32) (id : Option UInt32) :
    Code (Int × Option UInt32) := do
  Code.note (.enter buf size.toNat)
  if size.toNat < 4 then pure (-1, id)
  else do
    let id ← Code.assign id (Code.fetch host buf)
    pure (0, id)

def eppHelloRep := parseHello

def eppHelloReq := parseHello

/-- The public hello parsers skip `headers` bytes and pass the size on whole. -/
def eppHello (headers : Nat) (parse : Nat → UInt32 → Option UInt32 → Code (Int × Option UInt32))
    (buf : Option Nat) (size : UInt32) (id : Option UInt32) : Code (Int × Option UInt32) :=
  match buf with
  | none => pure (-1, id)
  | some b => parse (b + headers) size id

def eppSingleHelloReq (host : ByteOrder) := eppHello (24 + 3) (eppHelloReq host)

def eppSingleHelloRep (host : ByteOrder) := eppHello (24 + 3) (eppHelloRep host)

def eppSchedHelloReq (host : ByteOrder) := eppHello (24 + 7) (eppHelloReq host)

def eppSchedHelloRep (host : ByteOrder) := eppHello (24 + 7) (eppHelloRep host)

end Emproto
