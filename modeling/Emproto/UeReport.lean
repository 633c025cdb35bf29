import Emproto.RntiReport

/-! UE reports (`epuerep.c`).
The packed body `ep_uerep_id` of a UE identity token is `rnti 0, plmn 2, imsi 6,
tmsi 14, state 18` in 19 bytes; `ep_uerep_req` is one byte. A caller's table is
indexed by integers: indices outside `[0, max_ues)` stand for the memory around
it. The loop counters are naturals. -/

namespace Emproto

structure EpUeDetails where
  plmn : UInt32
  rnti : UInt16
  imsi : UInt64
  tmsi : UInt32
  state : UInt8
deriving DecidableEq, Repr

/-! Formatters. -/

def uerepFill (host : ByteOrder) (fin : Nat) (ues : Option (Nat → EpUeDetails)) :
    Nat → Nat → Nat → Int → Code Int
  | 0, _, _, s => pure s
  | k + 1, i, c, s =>
    match ues with
    | none => Code.crash
    | some us => do
      Code.note (.get i)
      let ue := us i
      if ue.rnti = 0 then
        uerepFill host fin ues k (i + 1) c s
      else if c + 19 > fin then pure (-1)
      else do
        Code.store host c (htons host EpTLVType.ueRepId.code)
        Code.store host (c + 2) (htons host 19)
        Code.store host (c + 4) (htons host ue.rnti)
        Code.store host (c + 6) (htonl host ue.plmn)
        Code.store host (c + 10) (htobe64 host ue.imsi)
        Code.store host (c + 18) (htonl host ue.tmsi)
        Code.store host (c + 22) ue.state
        uerepFill host fin ues k (i + 1) (c + 23) (toInt32 (s + 23))

def epfUerepRep (host : ByteOrder) (nofUes maxUes : UInt32) (ues : Option (Nat → EpUeDetails))
    (buf : Nat) (size : UInt32) : Code Int :=
  uerepFill host (buf + size.toNat) ues (min nofUes.toNat maxUes.toNat) 0 buf 0

def epfUerepReq (host : ByteOrder) (buf : Nat) (size : UInt32) : Code Int :=
  if size.toNat < 1 then pure (-1)
  else do
    Code.store host buf (0 : UInt8)
    pure 1

def epfTriggerUerepRepFail (host : ByteOrder) (buf : Option Nat) (size : UInt32)
    (ids : EpHdrId) : Code Int :=
  formatMessage host buf size .trigger ids .rep
    (epfTrigger host .ueReport EpOpType.fail.code) (epfUerepRep host 0 0 none)

def epfTriggerUerepRep (host : ByteOrder) (buf : Option Nat) (size : UInt32) (ids : EpHdrId)
    (nofUes maxUes : UInt32) (ues : Option (Nat → EpUeDetails)) : Code Int :=
  if buf.isNone then pure (-1)
  else if 0 < nofUes && ues.isNone then pure (-1)
  else formatMessage host buf size .trigger ids .rep
    (epfTrigger host .ueReport EpOpType.success.code) (epfUerepRep host nofUes maxUes ues)

def epfTriggerUerepReq (host : ByteOrder) (buf : Option Nat) (size : UInt32) (ids : EpHdrId)
    (op : EpOpType) : Code Int :=
  formatMessage host buf size .trigger ids .req (epfTrigger host .ueReport op.code)
    (epfUerepReq host)

/-! Parsers. -/

/-- The search for the slot of the token at `buf`, from index `i` on: the slot,
`-1` for none, with the count of free slots taken. -/
def selectSlot (host : ByteOrder) (buf : Nat) (ues : Int → EpUeDetails) :
    Nat → Nat → Int → UInt32 → Code (Int × UInt32)
  | 0, _, j, nofUes => pure (j, nofUes)
  | k + 1, i, j, nofUes => do
    Code.note (.get i)
    let picked := j < 0 && (ues i).rnti == 0
    let j := if picked then (i : Int) else j
    let nofUes := if picked then nofUes + 1 else nofUes
    let rnti : UInt16 ← Code.load host (buf + 4)
    if (ues i).rnti = ntohs host rnti then pure ((i : Int), nofUes)
    else selectSlot host buf ues k (i + 1) j nofUes

def eppUerepRepTLV (host : ByteOrder) (maxUes : UInt32) (buf : Nat)
    (s : (Int → EpUeDetails) × UInt32) : Code (Int × (Int → EpUeDetails) × UInt32) := do
  Code.note (.call buf)
  let ues := s.1
  let type : UInt16 ← Code.load host buf
  if ntohs host type = EpTLVType.ueRepId.code then do
    let (j, nofUes) ← selectSlot host buf ues maxUes.toNat 0 (-1) 0
    let rnti : UInt16 ← Code.load host (buf + 4)
    let plmn : UInt32 ← Code.load host (buf + 6)
    let imsi : UInt64 ← Code.load host (buf + 10)
    let tmsi : UInt32 ← Code.load host (buf + 18)
    Code.note (.set j)
    let ue := { ues j with
      rnti := ntohs host rnti
      plmn := ntohl host plmn
      imsi := be64toh host imsi
      tmsi := ntohl host tmsi }
    pure (epSuccess, Function.update ues j ue, nofUes)
  else pure (epSuccess, ues, 0)

def eppUerepRep (host : ByteOrder) (buf : Option Nat) (size : UInt32) (nofUes : Option UInt32)
    (maxUes : UInt32) (ues : Option (Int → EpUeDetails)) :
    Code (Int × Option (Int → EpUeDetails) × Option UInt32) :=
  match buf with
  | none => pure (epError, ues, nofUes)
  | some b => do
    Code.note (.enter b size.toNat)
    match ues, nofUes with
    | some us, some n => do
      let (status, s) ← tokenLoop host false false (eppUerepRepTLV host maxUes) (b + size.toNat)
        size.toNat b (us, n)
      pure (status, some s.1, some s.2)
    | _, _ => pure (epError, ues, nofUes)

def eppUerepReq (buf : Nat) (size : UInt32) : Code Int := do
  Code.note (.enter buf size.toNat)
  if size.toNat < 1 then pure epError else pure epSuccess

/-- The size is passed on whole. -/
def eppTriggerUerepRep (host : ByteOrder) (buf : Option Nat) (size : UInt32)
    (nofUes : Option UInt32) (maxUes : UInt32) (ues : Option (Int → EpUeDetails)) :
    Code (Int × Option (Int → EpUeDetails) × Option UInt32) :=
  match buf with
  | none => pure (epError, ues, nofUes)
  | some b => eppUerepRep host (some (b + 24 + 3)) size nofUes maxUes ues

/-- Neither buffer nor size are moved past the headers. -/
def eppTriggerUerepReq (buf : Option Nat) (size : UInt32) : Code Int :=
  match buf with
  | none => pure epError
  | some b => eppUerepReq b size

end Emproto
