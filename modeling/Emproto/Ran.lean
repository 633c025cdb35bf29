import Emproto.RntiReport

/-! RAN setup and RAN slice messages (`epRAN.c`).
Packed layouts: `ep_ran_setup` is `layer1_cap 0, layer2_cap 4, layer3_cap 8` in
12 bytes, `ep_ran_sinf` is the slice id in 8 bytes, the resource token body is
`rbgs` in 2 bytes, both scheduler token bodies are an id in 4 bytes. -/

namespace Emproto

def epRanUsersMax : UInt32 := 32

def epRanSchedInvalid : UInt32 := 0

structure EpRanSliceL2d where
  usched : UInt32
  rbgs : UInt16
deriving DecidableEq, Repr

structure EpRanSliceDet where
  nofUsers : UInt32
  users : Nat → UInt16
  l2 : EpRanSliceL2d

structure EpRanDet where
  pci : UInt16
  l1Mask : UInt32
  l2Mask : UInt32
  l3Mask : UInt32
  /-- `l2.mac.slice_sched` -/
  sliceSched : UInt32
  maxSlices : UInt16
deriving DecidableEq, Repr

/-! Formatters. -/

/-- From the label `usr` on: the users token behind the bytes up to `c`. -/
def epfRanTLVUsr (host : ByteOrder) (buf : Nat) (size : UInt32) (det : EpRanSliceDet)
    (s : Int) (c : Nat) : Code Int :=
  if 0 < det.nofUsers then do
    let s ← epfTLVRntiReport host c (size - UInt32.ofInt s) det.users det.nofUsers
    if s < 0 then pure s else pure (toInt32 ((c + s.toNat - buf : Nat) : Int))
  else pure (toInt32 ((c - buf : Nat) : Int))

def epfRanTLV (host : ByteOrder) (buf : Nat) (size : UInt32) (det : EpRanSliceDet) : Code Int :=
  if buf + 6 > buf + size.toNat then pure (-1)
  else do
    Code.store host buf (htons host EpTLVType.ranSliceMacRes.code)
    Code.store host (buf + 2) (htons host 2)
    Code.store host (buf + 4) (htons host det.l2.rbgs)
    if det.l2.usched = 0 then
      epfRanTLVUsr host buf size det 6 (buf + 6)
    else if buf + 6 + 8 > buf + size.toNat then pure (-1)
    else do
      Code.store host (buf + 6) (htons host EpTLVType.ranSliceMacSched.code)
      Code.store host (buf + 6 + 2) (htons host 4)
      Code.store host (buf + 6 + 4) (htonl host det.l2.usched)
      epfRanTLVUsr host buf size det (6 + 8) (buf + 6 + 8)

/-- Unlike its siblings this formatter does not look at `size` before the id. -/
def epfRanSup (host : ByteOrder) (id : UInt64) (det : Option EpRanSliceDet) (buf : Nat)
    (size : UInt32) : Code Int := do
  Code.store host buf (htobe64 host id)
  match det with
  | none => pure 8
  | some det => do
    let s ← epfRanTLV host (buf + 8) (size - UInt32.ofNat 8) det
    pure (toInt32 (8 + s))

/-- The common text of `epf_ran_saq` and `epf_ran_ssq`. -/
def formatSlice (host : ByteOrder) (id : UInt64) (det : Option EpRanSliceDet) (buf : Nat)
    (size : UInt32) : Code Int :=
  if size.toNat < 8 then pure (-1)
  else do
    Code.store host buf (htobe64 host id)
    match det with
    | none => pure 8
    | some det => do
      let s ← epfRanTLV host (buf + 8) (size - UInt32.ofNat 8) det
      pure (toInt32 (8 + s))

def epfRanSaq := formatSlice

def epfRanSsq := formatSlice

def epfSingleRanSliceRep (host : ByteOrder) (buf : Option Nat) (size : UInt32) (ids : EpHdrId)
    (sliceId : UInt64) (det : Option EpRanSliceDet) : Code Int :=
  if buf.isNone || det.isNone then pure (-1)
  else formatMessage host buf size .single ids .rep
    (epfSingle host .ranSlice EpOpType.unspecified.code) (epfRanSup host sliceId det)

def epfSingleRanSliceAdd (host : ByteOrder) (buf : Option Nat) (size : UInt32) (ids : EpHdrId)
    (sliceId : UInt64) (det : Option EpRanSliceDet) : Code Int :=
  if buf.isNone || det.isNone then pure (-1)
  else formatMessage host buf size .single ids .req
    (epfSingle host .ranSlice EpOpType.add.code) (epfRanSaq host sliceId det)

def epfSingleRanSliceSet (host : ByteOrder) (buf : Option Nat) (size : UInt32) (ids : EpHdrId)
    (sliceId : UInt64) (det : Option EpRanSliceDet) : Code Int :=
  formatMessage host buf size .single ids .req
    (epfSingle host .ranSlice EpOpType.set.code) (epfRanSsq host sliceId det)

def epfRanEuq (_buf : Nat) (_size : UInt32) : Code Int := pure 0

def epfRanEup (host : ByteOrder) (det : EpRanDet) (buf : Nat) (size : UInt32) : Code Int :=
  if size.toNat < 12 then pure (-1)
  else do
    Code.store host buf (htonl host det.l1Mask)
    Code.store host (buf + 4) (htonl host det.l2Mask)
    Code.store host (buf + 8) (htonl host det.l3Mask)
    if det.sliceSched ≠ epRanSchedInvalid then
      if buf + 12 + 8 > buf + size.toNat then pure (-1)
      else do
        Code.store host (buf + 12) (htons host EpTLVType.ranMacSched.code)
        Code.store host (buf + 12 + 2) (htons host 4)
        Code.store host (buf + 12 + 4) (htonl host det.sliceSched)
        pure 20
    else pure 12

/-- The common text of `epf_ran_suq` and `epf_ran_srq`. -/
def formatSliceId (host : ByteOrder) (id : UInt64) (buf : Nat) (size : UInt32) : Code Int :=
  if size.toNat < 8 then pure (-1)
  else do
    Code.store host buf (htobe64 host id)
    pure 8

def epfRanSuq := formatSliceId

def epfRanSrq := formatSliceId

def epfSingleRanRepSuccess (host : ByteOrder) (buf : Option Nat) (size : UInt32)
    (type : EpActType) (ids : EpHdrId) : Code Int :=
  formatMessage host buf size .single ids .rep (epfSingle host type EpOpType.success.code)
    fun _ _ => pure 0

/-- The slice id is written by the public formatter itself. -/
def epfSingleRanRepFail (host : ByteOrder) (buf : Option Nat) (size : UInt32)
    (type : EpActType) (ids : EpHdrId) (sliceId : UInt64) : Code Int :=
  formatMessage host buf size .single ids .rep (epfSingle host type EpOpType.fail.code)
    fun p _ =>
      if 24 + 3 + 8 > size.toNat then pure (-1)
      else do
        Code.store host p (htobe64 host sliceId)
        pure 8

def epfSingleRanRepNs (host : ByteOrder) (buf : Option Nat) (size : UInt32)
    (type : EpActType) (ids : EpHdrId) (_sliceId : UInt64) : Code Int :=
  formatMessage host buf size .single ids .rep
    (epfSingle host type EpOpType.notSupported.code) fun _ _ => pure 0

def epfSingleRanSetupReq (host : ByteOrder) (buf : Option Nat) (size : UInt32) (ids : EpHdrId) :
    Code Int :=
  formatMessage host buf size .single ids .req
    (epfSingle host .ranSetup EpOpType.unspecified.code) epfRanEuq

def epfSingleRanSetupRep (host : ByteOrder) (buf : Option Nat) (size : UInt32) (ids : EpHdrId)
    (det : Option EpRanDet) : Code Int :=
  match det with
  | none => pure (-1)
  | some det => formatMessage host buf size .single ids .rep
      (epfSingle host .ranSetup EpOpType.unspecified.code) (epfRanEup host det)

def epfSingleRanSliceReq (host : ByteOrder) (buf : Option Nat) (size : UInt32) (ids : EpHdrId)
    (sliceId : UInt64) : Code Int :=
  formatMessage host buf size .single ids .req
    (epfSingle host .ranSlice EpOpType.unspecified.code) (epfRanSuq host sliceId)

def epfSingleRanSliceRem (host : ByteOrder) (buf : Option Nat) (size : UInt32) (ids : EpHdrId)
    (sliceId : UInt64) : Code Int :=
  formatMessage host buf size .single ids .req
    (epfSingle host .ranSlice EpOpType.rem.code) (epfRanSrq host sliceId)

/-! Parsers. -/

def eppRanTLV (host : ByteOrder) (buf : Nat) (det : Option EpRanSliceDet) :
    Code (Int × Option EpRanSliceDet) := do
  Code.note (.call buf)
  let type : UInt16 ← Code.load host buf
  if ntohs host type = EpTLVType.rntiReport.code then
    match det with
    | none => Code.crash
    | some det => do
      let (status, users, nofUsers) ← eppTLVRntiReport host buf det.users epRanUsersMax
      let det := { det with users := users, nofUsers := nofUsers }
      if status != 0 then pure (epError, some det) else pure (epSuccess, some det)
  else if ntohs host type = EpTLVType.ranSliceMacRes.code then
    match det with
    | none => Code.crash
    | some det => do
      let rbgs : UInt16 ← Code.load host (buf + 4)
      pure (epSuccess, some { det with l2 := { det.l2 with rbgs := ntohs host rbgs } })
  else if ntohs host type = EpTLVType.ranSliceMacSched.code then
    match det with
    | none => Code.crash
    | some det => do
      let usched : UInt32 ← Code.load host (buf + 4)
      pure (epSuccess, some { det with l2 := { det.l2 with usched := ntohl host usched } })
  else pure (epSuccess, det)

/-- The common text of the three slice parsers; `checked` is whether the loop
looks at the status of `epp_ran_TLV`. -/
def parseSlice (host : ByteOrder) (checked : Bool) (buf : Nat) (size : UInt32)
    (id : Option UInt64) (det : Option EpRanSliceDet) :
    Code (Int × Option UInt64 × Option EpRanSliceDet) := do
  Code.note (.enter buf size.toNat)
  if size.toNat < 8 then pure (epError, id, det)
  else do
    let id ← Code.assign id do
      let id : UInt64 ← Code.load host buf
      pure (be64toh host id)
    let (status, det) ← tokenLoop host false checked (eppRanTLV host) (buf + size.toNat)
      size.toNat (buf + 8) det
    pure (status, id, det)

def eppRanSup (host : ByteOrder) := parseSlice host false

def eppRanSaq (host : ByteOrder) := parseSlice host true

def eppRanSsq (host : ByteOrder) := parseSlice host false

/-- The common text of `epp_ran_suq` and `epp_ran_srq`. -/
def parseSliceId (host : ByteOrder) (buf : Nat) (size : UInt32) (id : Option UInt64) :
    Code (Int × Option UInt64) := do
  Code.note (.enter buf size.toNat)
  if size.toNat < 8 then pure (epError, id)
  else do
    let id ← Code.assign id do
      let id : UInt64 ← Code.load host buf
      pure (be64toh host id)
    pure (epSuccess, id)

def eppRanSuq := parseSliceId

def eppRanSrq := parseSliceId

def eppRanEupTLV (host : ByteOrder) (buf : Nat) (det : EpRanDet) : Code (Int × EpRanDet) := do
  Code.note (.call buf)
  let type : UInt16 ← Code.load host buf
  if ntohs host type = EpTLVType.ranMacSched.code then do
    let sliceSched : UInt32 ← Code.load host (buf + 4)
    pure (epSuccess, { det with sliceSched := ntohl host sliceSched })
  else pure (epSuccess, det)

def eppRanEup (host : ByteOrder) (buf : Nat) (size : UInt32) (det : Option EpRanDet) :
    Code (Int × Option EpRanDet) := do
  Code.note (.enter buf size.toNat)
  if size.toNat < 12 then pure (epError, det)
  else match det with
    | none => pure (epSuccess, none)
    | some det => do
      let l1 : UInt32 ← Code.load host buf
      let l2 : UInt32 ← Code.load host (buf + 4)
      let l3 : UInt32 ← Code.load host (buf + 8)
      let det := { det with
        l1Mask := ntohl host l1, l2Mask := ntohl host l2, l3Mask := ntohl host l3 }
      let (status, det) ← tokenLoop host false false (eppRanEupTLV host) (buf + size.toNat)
        size.toNat (buf + 12) det
      pure (status, some det)

def eppRanEuq (buf : Nat) (size : UInt32) : Code Int := do
  Code.note (.enter buf size.toNat)
  pure epSuccess

/-- The public single-event RAN parsers: skip both headers, in unsigned arithmetic. -/
def eppSingleRan {α : Type} (parse : Nat → UInt32 → α → Code (Int × α)) (buf : Option Nat)
    (size : UInt32) (out : α) : Code (Int × α) :=
  match buf with
  | none => pure (epError, out)
  | some b => parse (b + 24 + 3) (size - UInt32.ofNat (24 + 3)) out

def eppSingleRanSetupReq (buf : Option Nat) (size : UInt32) : Code Int :=
  match buf with
  | none => pure epError
  | some b => eppRanEuq (b + 24 + 3) (size - UInt32.ofNat (24 + 3))

def eppSingleRanSetupRep (host : ByteOrder) (buf : Option Nat) (size : UInt32)
    (det : Option EpRanDet) : Code (Int × Option EpRanDet) :=
  eppSingleRan (eppRanEup host) buf size det

def eppSingleRanSliceReq (host : ByteOrder) (buf : Option Nat) (size : UInt32)
    (sliceId : Option UInt64) : Code (Int × Option UInt64) :=
  eppSingleRan (eppRanSuq host) buf size sliceId

def eppSingleRanSliceRem (host : ByteOrder) (buf : Option Nat) (size : UInt32)
    (det : Option UInt64) : Code (Int × Option UInt64) :=
  eppSingleRan (eppRanSrq host) buf size det

def eppSingleRanSliceRep (host : ByteOrder) (buf : Option Nat) (size : UInt32)
    (sliceId : Option UInt64) (det : Option EpRanSliceDet) :
    Code (Int × Option UInt64 × Option EpRanSliceDet) :=
  eppSingleRan (fun p s out => eppRanSup host p s out.1 out.2) buf size (sliceId, det)

def eppSingleRanSliceAdd (host : ByteOrder) (buf : Option Nat) (size : UInt32)
    (sliceId : Option UInt64) (det : Option EpRanSliceDet) :
    Code (Int × Option UInt64 × Option EpRanSliceDet) :=
  eppSingleRan (fun p s out => eppRanSaq host p s out.1 out.2) buf size (sliceId, det)

def eppSingleRanSliceSet (host : ByteOrder) (buf : Option Nat) (size : UInt32)
    (sliceId : Option UInt64) (det : Option EpRanSliceDet) :
    Code (Int × Option UInt64 × Option EpRanSliceDet) :=
  eppSingleRan (fun p s out => eppRanSsq host p s out.1 out.2) buf size (sliceId, det)

end Emproto
