import Emproto.Ran

/-! Runs of the RAN parsers in closed form: the token loops fold one step per
token over the walk of the body. -/

namespace Emproto
variable {host : ByteOrder} (m : Mem)

/-- Effect of `epp_ran_TLV` at `c` on the slice record. -/
def sliceStep (c : Nat) (det : EpRanSliceDet) : EpRanSliceDet :=
  if (m.be c : UInt16) = EpTLVType.rntiReport.code then
    { det with
      users := copied m (rntiCount m c epRanUsersMax.toNat) 0 (c + 4) det.users
      nofUsers := UInt32.ofNat (rntiCount m c epRanUsersMax.toNat) }
  else if (m.be c : UInt16) = EpTLVType.ranSliceMacRes.code then
    { det with l2 := { det.l2 with rbgs := m.be (c + 4) } }
  else if (m.be c : UInt16) = EpTLVType.ranSliceMacSched.code then
    { det with l2 := { det.l2 with usched := m.be (c + 4) } }
  else det

def sliceTrace (c : Nat) : Trace :=
  .call c :: (Code.loadTrace c 2 ++
    if (m.be c : UInt16) = EpTLVType.rntiReport.code then
      Code.loadTrace (c + 2) 2 ++ rntiCopyTrace (rntiCount m c epRanUsersMax.toNat) 0 (c + 4)
    else if (m.be c : UInt16) = EpTLVType.ranSliceMacRes.code then Code.loadTrace (c + 4) 2
    else if (m.be c : UInt16) = EpTLVType.ranSliceMacSched.code then Code.loadTrace (c + 4) 4
    else [])

theorem sliceTrace_handles (c : Nat) : (sliceTrace m c).Handles c := by
  refine Trace.Plain.handles ?_ c
  split_ifs <;> simp [rntiCopyTrace_plain]

theorem run_eppRanTLV (c : Nat) (det : EpRanSliceDet) :
    (eppRanTLV host c (some det)).run m = some ((0, some (sliceStep m c det)), sliceTrace m c) := by
  rw [eppRanTLV, Code.run_note_bind m rfl, Code.run_load_bind]
  simp only [Mem.ntoh_word, sliceStep, sliceTrace]
  split_ifs
  · rw [Code.run_bind_quiet m (run_eppTLVRntiReport _ _ _)
      (by simp [(rntiCopyTrace_plain _ _ _).stores])]
    simp
    rfl
  · rw [Code.run_load_bind]
    simp only [Mem.ntoh_word]
    rfl
  · rw [Code.run_load_bind]
    simp only [Mem.ntoh_word]
    rfl
  · rfl

section Slice
variable {checked : Bool} {buf : Nat} {size : UInt32}

theorem run_parseSlice_short (h : size.toNat < 8) (id : Option UInt64)
    (det : Option EpRanSliceDet) :
    (parseSlice host checked buf size id det).run m =
      some ((-1, id, det), [.enter buf size.toNat]) := by
  rw [parseSlice, Code.run_note_bind m rfl, if_pos h]
  rfl

theorem run_parseSlice (h : 8 ≤ size.toNat) (id : Option UInt64) (det : EpRanSliceDet) :
    (parseSlice host checked buf size id (some det)).run m =
      some ((0, id.map fun _ => m.be buf, some (runSteps (sliceStep m)
          ((m.walker false (buf + size.toNat)).walk (buf + 8)) det)),
        .enter buf size.toNat :: (Code.assignTrace id buf 8 ++ loopTrace (m.walker false
          (buf + size.toNat)) (sliceStep m) (fun c _ => sliceTrace m c) (buf + 8) det)) := by
  have loop : (tokenLoop host false checked (eppRanTLV host) (buf + size.toNat) size.toNat
      (buf + 8) (some det)).run m = _ :=
    run_tokenLoop some (sliceStep m) (run_eppRanTLV m) (fun c _ => (sliceTrace_handles m c).stores)
      (fun _ _ _ => rfl) (by omega) det
  have value : (Code.assign id do
      let id : UInt64 ← Code.load host buf
      pure (be64toh host id)).run m = some (id.map fun _ => m.be buf, Code.assignTrace id buf 8) :=
    Code.run_assignFetch m buf host id
  rw [parseSlice, Code.run_note_bind m rfl, if_neg (by omega),
    Code.run_bind_quiet m value (Code.plain_assignTrace buf 8 id).stores, Code.run_bind, loop]
  simp

end Slice

section Setup
variable {buf : Nat} {size : UInt32}

def setupStep (c : Nat) (det : EpRanDet) : EpRanDet :=
  if (m.be c : UInt16) = EpTLVType.ranMacSched.code then { det with sliceSched := m.be (c + 4) }
  else det

def setupTrace (c : Nat) : Trace :=
  .call c :: (Code.loadTrace c 2 ++
    if (m.be c : UInt16) = EpTLVType.ranMacSched.code then Code.loadTrace (c + 4) 4 else [])

theorem setupTrace_handles (c : Nat) : (setupTrace m c).Handles c := by
  refine Trace.Plain.handles ?_ c
  split_ifs <;> simp

theorem run_eppRanEupTLV (c : Nat) (det : EpRanDet) :
    (eppRanEupTLV host c det).run m = some ((0, setupStep m c det), setupTrace m c) := by
  rw [eppRanEupTLV, Code.run_note_bind m rfl, Code.run_load_bind]
  simp only [Mem.ntoh_word, setupStep, setupTrace]
  split_ifs
  · rw [Code.run_load_bind]
    simp only [Mem.ntoh_word]
    rfl
  · rfl

theorem run_eppRanEup_short (h : size.toNat < 12) (det : Option EpRanDet) :
    (eppRanEup host buf size det).run m = some ((-1, det), [.enter buf size.toNat]) := by
  unfold eppRanEup
  rw [Code.run_note_bind m rfl, if_pos h]
  rfl

def setupMasks (buf : Nat) (det : EpRanDet) : EpRanDet :=
  { det with l1Mask := m.be buf, l2Mask := m.be (buf + 4), l3Mask := m.be (buf + 8) }

def masksTrace (buf : Nat) : Trace :=
  Code.loadTrace buf 4 ++ (Code.loadTrace (buf + 4) 4 ++ Code.loadTrace (buf + 8) 4)

theorem run_eppRanEup (h : 12 ≤ size.toNat) (det : EpRanDet) :
    (eppRanEup host buf size (some det)).run m =
      some ((0, some (runSteps (setupStep m)
          ((m.walker false (buf + size.toNat)).walk (buf + 12)) (setupMasks m buf det))),
        .enter buf size.toNat :: (masksTrace buf ++ loopTrace (m.walker false (buf + size.toNat))
          (setupStep m) (fun c _ => setupTrace m c) (buf + 12) (setupMasks m buf det))) := by
  rw [eppRanEup, Code.run_note_bind m rfl, if_neg (by omega)]
  simp only [Code.run_load_bind, Mem.ntoh_word]
  rw [run_tokenLoop_bind (setupStep m) (run_eppRanEupTLV m)
    (fun c _ => (setupTrace_handles m c).stores) (by omega)]
  simp [masksTrace, setupMasks, Word.width]

end Setup

end Emproto
