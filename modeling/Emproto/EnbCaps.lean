import Emproto.Ran

/-! eNB capabilities (`epenbcap.c`).
Packed layouts: `ep_ccap_det` is `pci 0, feat 2, DL_earfcn 6, DL_prbs 8,
UL_earfcn 9, UL_prbs 11, max_ues 12` in 14 bytes, `ep_ran_caps` is `pci 0,
l1_caps 2, l2_caps 6, l3_caps 10, mac_sched 14, max_slices 18` in 20 bytes. -/

namespace Emproto

def epEcapCellMax : UInt32 := 8

structure EpCellDet where
  pci : UInt16
  feat : UInt32
  dlEarfcn : UInt16
  ulEarfcn : UInt16
  dlPrbs : UInt8
  ulPrbs : UInt8
  maxUes : UInt16
deriving DecidableEq, Repr

structure EpEnbDet where
  cells : Nat → EpCellDet
  nofCells : UInt32
  ran : Nat → EpRanDet
  nofRan : UInt32

def EpEnbDet.zero : EpEnbDet where
  cells := fun _ => ⟨0, 0, 0, 0, 0, 0, 0⟩
  nofCells := 0
  ran := fun _ => ⟨0, 0, 0, 0, 0, 0⟩
  nofRan := 0

/-! Formatters. -/

def putCellCap (host : ByteOrder) (cells : Nat → EpCellDet) (i c : Nat) : Code Unit := do
  Code.store host c (htons host EpTLVType.cellCap.code)
  Code.store host (c + 2) (htons host 14)
  Code.store host (c + 4) (htons host (cells i).pci)
  Code.store host (c + 6) (htonl host (cells i).feat)
  Code.store host (c + 10) (htons host (cells i).dlEarfcn)
  Code.store host (c + 12) (cells i).dlPrbs
  Code.store host (c + 13) (htons host (cells i).ulEarfcn)
  Code.store host (c + 15) (cells i).ulPrbs
  Code.store host (c + 16) (htons host (cells i).maxUes)

def putRanCap (host : ByteOrder) (ran : Nat → EpRanDet) (i c : Nat) : Code Unit := do
  Code.store host c (htons host EpTLVType.ranCap.code)
  Code.store host (c + 2) (htons host 20)
  Code.store host (c + 4) (htons host (ran i).pci)
  Code.store host (c + 6) (htonl host (ran i).l1Mask)
  Code.store host (c + 10) (htonl host (ran i).l2Mask)
  Code.store host (c + 14) (htonl host (ran i).l3Mask)
  Code.store host (c + 18) (htonl host (ran i).sliceSched)
  Code.store host (c + 22) (htons host (ran i).maxSlices)

def epfEcapRep (host : ByteOrder) (det : Option EpEnbDet) (buf : Nat) (size : UInt32) :
    Code Int :=
  match det with
  | none => Code.crash
  | some det => do
    match ← fillTokens 18 (putCellCap host det.cells) (buf + size.toNat)
        (min det.nofCells.toNat epEcapCellMax.toNat) 0 buf with
    | none => pure (-1)
    | some c => do
      match ← fillTokens 24 (putRanCap host det.ran) (buf + size.toNat)
          (min det.nofRan.toNat epEcapCellMax.toNat) 0 c with
      | none => pure (-1)
      | some c => pure (toInt32 ((c - buf : Nat) : Int))

def epfEcapReq (_buf : Nat) (_size : UInt32) : Code Int := pure 0

def epfSingleEcapRepFail (host : ByteOrder) (buf : Option Nat) (size : UInt32) (ids : EpHdrId) :
    Code Int :=
  formatMessage host buf size .single ids .rep (epfSingle host .ecap EpOpType.fail.code)
    (epfEcapRep host none)

def epfSingleEcapRep (host : ByteOrder) (buf : Option Nat) (size : UInt32) (ids : EpHdrId)
    (det : Option EpEnbDet) : Code Int :=
  formatMessage host buf size .single ids .rep (epfSingle host .ecap EpOpType.unspecified.code)
    (epfEcapRep host det)

def epfSingleEcapReq (host : ByteOrder) (buf : Option Nat) (size : UInt32) (ids : EpHdrId) :
    Code Int :=
  formatMessage host buf size .single ids .req (epfSingle host .ecap EpOpType.unspecified.code)
    epfEcapReq

/-! Parsers. -/

def eppEcapSingleTLV (host : ByteOrder) (buf : Nat) (det : EpEnbDet) : Code (Int × EpEnbDet) := do
  Code.note (.call buf)
  let type : UInt16 ← Code.load host buf
  if ntohs host type = EpTLVType.cellCap.code then
    if det.nofCells ≥ epEcapCellMax then pure (epSuccess, det)
    else do
      let pci : UInt16 ← Code.load host (buf + 4)
      let feat : UInt32 ← Code.load host (buf + 6)
      let dlEarfcn : UInt16 ← Code.load host (buf + 10)
      let dlPrbs : UInt8 ← Code.load host (buf + 12)
      let ulEarfcn : UInt16 ← Code.load host (buf + 13)
      let ulPrbs : UInt8 ← Code.load host (buf + 15)
      let maxUes : UInt16 ← Code.load host (buf + 16)
      let cell : EpCellDet := {
        pci := ntohs host pci
        feat := ntohl host feat
        dlEarfcn := ntohs host dlEarfcn
        ulEarfcn := ntohs host ulEarfcn
        dlPrbs := dlPrbs
        ulPrbs := ulPrbs
        maxUes := ntohs host maxUes }
      pure (epSuccess, { det with
        cells := Function.update det.cells det.nofCells.toNat cell
        nofCells := det.nofCells + 1 })
  else if ntohs host type = EpTLVType.ranCap.code then
    if det.nofRan ≥ epEcapCellMax then pure (epSuccess, det)
    else do
      let pci : UInt16 ← Code.load host (buf + 4)
      let l1 : UInt32 ← Code.load host (buf + 6)
      let l2 : UInt32 ← Code.load host (buf + 10)
      let l3 : UInt32 ← Code.load host (buf + 14)
      let maxSlices : UInt16 ← Code.load host (buf + 22)
      let sched : UInt32 ← Code.load host (buf + 18)
      -- the 16-bit value is widened, converted as 32 bits and cut to 16 bits
      let cap : EpRanDet := {
        pci := ntohs host pci
        l1Mask := ntohl host l1
        l2Mask := ntohl host l2
        l3Mask := ntohl host l3
        sliceSched := ntohl host sched
        maxSlices := (ntohl host maxSlices.toUInt32).toUInt16 }
      pure (epSuccess, { det with
        ran := Function.update det.ran det.nofRan.toNat cap
        nofRan := det.nofRan + 1 })
  else pure (epSuccess, det)

/-- The only loop that refuses a token ending where the area ends. -/
def eppEcapRep (host : ByteOrder) (buf : Nat) (size : UInt32) (det : Option EpEnbDet) :
    Code (Int × Option EpEnbDet) := do
  Code.note (.enter buf size.toNat)
  match det with
  | none => pure (epError, none)
  | some det => do
    let (status, det) ← tokenLoop host true false (eppEcapSingleTLV host) (buf + size.toNat)
      size.toNat buf { det with nofCells := 0, nofRan := 0 }
    pure (status, some det)

def eppEcapReq (buf : Nat) (size : UInt32) : Code Int := do
  Code.note (.enter buf size.toNat)
  pure epSuccess

/-- The size is passed on whole. -/
def eppSingleEcapRep (host : ByteOrder) (buf : Option Nat) (size : UInt32)
    (det : Option EpEnbDet) : Code (Int × Option EpEnbDet) :=
  match buf with
  | none => pure (epError, det)
  | some b => eppEcapRep host (b + 24 + 3) size det

def eppSingleEcapReq (buf : Option Nat) (size : UInt32) : Code Int :=
  match buf with
  | none => pure epError
  | some b => eppEcapReq (b + 24 + 3) size

end Emproto
