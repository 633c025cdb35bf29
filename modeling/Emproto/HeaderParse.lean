import Emproto.Header

/-! The sequence setter and the accessors of the master header (`ephdr.c`), and the
accessors of the event headers (`epsingle.c`, `epsched.c`, `eptrig.c`). The event
accessors do not look at the buffer pointer before they use it. -/

namespace Emproto

def epWrongVersion : Int := -2

def epHdrFlagDir : UInt16 := 1

def epfSeq (host : ByteOrder) (buf : Option Nat) (size : UInt32) (seq : UInt32) : Code Int :=
  match buf with
  | none => pure epError
  | some h =>
    if size.toNat < 24 then pure epError
    else do
      Code.store host (h + 18) (htonl host seq)
      pure epSuccess

structure HeadOut where
  type : Option UInt32
  enbId : Option UInt64
  cellId : Option UInt16
  modId : Option UInt32
  flags : Option UInt16
deriving DecidableEq, Repr

def HeadOut.assign (out : HeadOut) (type : UInt32) (ids : EpHdrId) (flags : UInt16) : HeadOut where
  type := out.type.map fun _ => type
  enbId := out.enbId.map fun _ => ids.enbId
  cellId := out.cellId.map fun _ => ids.cellId
  modId := out.modId.map fun _ => ids.modId
  flags := out.flags.map fun _ => flags

def eppHead (host : ByteOrder) (buf : Option Nat) (size : UInt32) (out : HeadOut) :
    Code (Int × HeadOut) :=
  match buf with
  | none => pure (-1, out)
  | some h =>
    if size.toNat < 24 then pure (-1, out)
    else do
      let vers : UInt8 ← Code.load host (h + 1)
      if vers ≠ empowerProtocolVers then pure (epWrongVersion, out)
      else do
        let type ← Code.assign out.type (do
          let type : UInt8 ← Code.load host h
          pure type.toUInt32)
        let enbId ← Code.assign out.enbId (Code.fetch host (h + 2))
        let cellId ← Code.assign out.cellId (Code.fetch host (h + 10))
        let modId ← Code.assign out.modId (Code.fetch host (h + 12))
        -- the flags alone are taken over in the order of the host
        let flags ← Code.assign out.flags (Code.load host (h + 16))
        pure (epSuccess, ⟨type, enbId, cellId, modId, flags⟩)

def eppMsgType (host : ByteOrder) (buf : Option Nat) (size : UInt32) : Code UInt32 :=
  match buf with
  | none => pure (UInt32.ofInt epError)
  | some h =>
    if size.toNat < 24 then pure (UInt32.ofInt epError)
    else do
      let type : UInt8 ← Code.load host h
      pure type.toUInt32

def eppDir (host : ByteOrder) (buf : Option Nat) (size : UInt32) : Code Int :=
  match buf with
  | none => pure epError
  | some h =>
    if size.toNat < 24 then pure epError
    else do
      let flags : UInt16 ← Code.load host (h + 16)
      pure (flags &&& epHdrFlagDir).toNat

def eppSeq (host : ByteOrder) (buf : Option Nat) (size : UInt32) : Code UInt32 :=
  match buf with
  | none => pure (UInt32.ofInt epError)
  | some h =>
    if size.toNat < 24 then pure (UInt32.ofInt epError)
    else do
      let seq : UInt32 ← Code.load host (h + 18)
      pure (ntohl host seq)

def eppMsgLength (host : ByteOrder) (buf : Option Nat) (size : UInt32) : Code UInt16 :=
  match buf with
  | none => pure (UInt16.ofInt epError)
  | some h =>
    if size.toNat < 24 then pure (UInt16.ofInt epError)
    else do
      let length : UInt16 ← Code.load host (h + 22)
      pure (ntohs host length)

/-- The common text of the type accessors, for an event header of `header` bytes. -/
def eventType (host : ByteOrder) (header : Nat) (buf : Nat) (size : UInt32) : Code UInt32 :=
  if size.toNat < 24 + header then pure EpActType.invalid.code
  else do
    let type : UInt16 ← Code.load host (buf + 24)
    pure (ntohs host type).toUInt32

def eppSingleType (host : ByteOrder) := eventType host 3

def eppTriggerType (host : ByteOrder) := eventType host 3

def eppScheduleType (host : ByteOrder) := eventType host 7

def eventOp (host : ByteOrder) (error : UInt32) (buf : Nat) (size : UInt32) : Code UInt32 :=
  if size.toNat < 24 + 3 then pure error
  else do
    let op : UInt8 ← Code.load host (buf + 24 + 2)
    pure op.toUInt32

def eppSingleOp (host : ByteOrder) := eventOp host (UInt32.ofInt epError)

def eppTriggerOp (host : ByteOrder) := eventOp host EpMsgType.invalid.code

section Results
variable {host : ByteOrder} {b : Nat} {size : UInt32} (m : Mem)

theorem epfSeq_emits {seq : UInt32} (h : 24 ≤ size.toNat) :
    Emits (epfSeq host (some b) size seq) 0 (chunk (b + 18) (Word.bytes .big seq)) := by
  rw [epfSeq, if_neg (by omega)]
  refine Emits.of_eq (Emits.store.bind <| .pure _) ?_
  simp

theorem result_eppHead (h : 24 ≤ size.toNat) (vers : m (b + 1) = empowerProtocolVers)
    (out : HeadOut) :
    (eppHead host (some b) size out).result m =
      some (epSuccess, out.assign (m b).toUInt32
        ⟨m.be (b + 2), m.be (b + 10), m.be (b + 12)⟩ (m.word host (b + 16))) := by
  rw [eppHead, if_neg (by omega)]
  simp [vers, HeadOut.assign]

theorem result_eppMsgType (h : 24 ≤ size.toNat) :
    (eppMsgType host (some b) size).result m = some (m b).toUInt32 := by
  rw [eppMsgType, if_neg (by omega)]
  simp

theorem result_eppDir (h : 24 ≤ size.toNat) :
    (eppDir host (some b) size).result m =
      some (((m.word host (b + 16) : UInt16) &&& epHdrFlagDir).toNat : Int) := by
  rw [eppDir, if_neg (by omega)]
  simp

theorem result_eppSeq (h : 24 ≤ size.toNat) :
    (eppSeq host (some b) size).result m = some (m.be (b + 18)) := by
  rw [eppSeq, if_neg (by omega)]
  simp

theorem result_eppMsgLength (h : 24 ≤ size.toNat) :
    (eppMsgLength host (some b) size).result m = some (m.be (b + 22)) := by
  rw [eppMsgLength, if_neg (by omega)]
  simp

theorem result_eventType {header : Nat} (h : 24 + header ≤ size.toNat) :
    (eventType host header b size).result m =
      some (m.be (b + 24) : UInt16).toUInt32 := by
  rw [eventType, if_neg (by omega)]
  simp

theorem result_eventOp {error : UInt32} (h : 24 + 3 ≤ size.toNat) :
    (eventOp host error b size).result m = some (m (b + 26)).toUInt32 := by
  rw [eventOp, if_neg (by omega)]
  simp [Nat.add_assoc]

theorem result_eppSchedInterval (h : 24 + 7 ≤ size.toNat) :
    (eppSchedInterval host b size).result m = some (m.be (b + 27)) := by
  rw [Code.result_of m (run_eppSchedInterval m b size), schedInterval, if_neg (by omega)]

end Results

end Emproto
