import Emproto.Header

/-! Handover messages (`epho.c`). Packed bodies: `ep_ho_req` is `rnti 0, target_eNB
2, target_pci 10, cause 12` in 13 bytes, `ep_ho_rep` is `origin_eNB 0, origin_pci 8,
origin_rnti 10, target_rnti 12` in 14 bytes. -/

namespace Emproto

/-! Formatters. -/

def epfHoRep (host : ByteOrder) (originENB : UInt64) (originPci originRnti targetRnti : UInt16)
    (buf : Nat) (size : UInt32) : Code Int :=
  if size.toNat < 14 then pure (-1)
  else do
    Code.store host buf (htobe64 host originENB)
    Code.store host (buf + 8) (htons host originPci)
    Code.store host (buf + 10) (htons host originRnti)
    Code.store host (buf + 12) (htons host targetRnti)
    pure 14

def epfHoReq (host : ByteOrder) (rnti : UInt16) (enb : UInt64) (pci : UInt16) (cause : UInt8)
    (buf : Nat) (size : UInt32) : Code Int :=
  if size.toNat < 13 then pure (-1)
  else do
    Code.store host buf (htons host rnti)
    Code.store host (buf + 2) (htobe64 host enb)
    Code.store host (buf + 10) (htons host pci)
    Code.store host (buf + 12) cause
    pure 13

/-- The common text of the three replies. -/
def formatHoRep (op : EpOpType) (host : ByteOrder) (buf : Option Nat) (size : UInt32)
    (ids : EpHdrId) (originENB : UInt64) (originPci originRnti targetRnti : UInt16) : Code Int :=
  formatMessage host buf size .single ids .rep (epfSingle host .handover op.code)
    (epfHoRep host originENB originPci originRnti targetRnti)

def epfSingleHoRepFail := formatHoRep .fail

def epfSingleHoRepNs := formatHoRep .notSupported

def epfSingleHoRep := formatHoRep .success

def epfSingleHoReq (host : ByteOrder) (buf : Option Nat) (size : UInt32) (ids : EpHdrId)
    (rnti : UInt16) (enb : UInt64) (pci : UInt16) (cause : UInt8) : Code Int :=
  formatMessage host buf size .single ids .req
    (epfSingle host .handover EpOpType.unspecified.code) (epfHoReq host rnti enb pci cause)

/-! Parsers. The outputs are optional. -/

structure HoRepOut where
  originENB : Option UInt64
  originPci : Option UInt16
  originRnti : Option UInt16
  targetRnti : Option UInt16
deriving DecidableEq, Repr

structure HoReqOut where
  rnti : Option UInt16
  enb : Option UInt64
  pci : Option UInt16
  cause : Option UInt8
deriving DecidableEq, Repr

def eppHoRep (host : ByteOrder) (buf : Nat) (size : UInt32) (out : HoRepOut) :
    Code (Int × HoRepOut) := do
  Code.note (.enter buf size.toNat)
  if size.toNat < 14 then pure (-1, out)
  else do
    let originENB ← Code.assign out.originENB (Code.fetch host buf)
    let originPci ← Code.assign out.originPci (Code.fetch host (buf + 8))
    let originRnti ← Code.assign out.originRnti (Code.fetch host (buf + 10))
    let targetRnti ← Code.assign out.targetRnti (Code.fetch host (buf + 12))
    pure (epSuccess, ⟨originENB, originPci, originRnti, targetRnti⟩)

def eppHoReq (host : ByteOrder) (buf : Nat) (size : UInt32) (out : HoReqOut) :
    Code (Int × HoReqOut) := do
  Code.note (.enter buf size.toNat)
  if size.toNat < 13 then pure (-1, out)
  else do
    let rnti ← Code.assign out.rnti (Code.fetch host buf)
    let enb ← Code.assign out.enb (Code.fetch host (buf + 2))
    let pci ← Code.assign out.pci (Code.fetch host (buf + 10))
    let cause ← Code.assign out.cause (Code.load host (buf + 12))
    pure (epSuccess, ⟨rnti, enb, pci, cause⟩)

/-- The size is passed on whole. -/
def eppSingleHoRep (host : ByteOrder) (buf : Option Nat) (size : UInt32) (out : HoRepOut) :
    Code (Int × HoRepOut) :=
  match buf with
  | none => pure (-1, out)
  | some b => eppHoRep host (b + 24 + 3) size out

/-- The size is passed on whole. -/
def eppSingleHoReq (host : ByteOrder) (buf : Option Nat) (size : UInt32) (out : HoReqOut) :
    Code (Int × HoReqOut) :=
  match buf with
  | none => pure (-1, out)
  | some b => eppHoReq host (b + 24 + 3) size out

end Emproto
