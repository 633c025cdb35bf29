import Emproto.CellMeas
import Emproto.UeMeas
import Emproto.EnbCapsRun
import Emproto.RanParse

/-! What of a parsed description comes from the record before. A token that is not there
assigns nothing, so a field stays what the caller had unless the parser resets it. -/

namespace Emproto

/-- Whatever was in the record before, the parser returns and describes the same. -/
def MessageOnly {σ ρ δ : Type} (parse : σ → Code ρ) (describe : ρ → δ) (m : Mem) : Prop :=
  ∀ old old' : σ, ∃ out out', (parse old).result m = some out ∧ (parse old').result m = some out' ∧
    describe out = describe out'

theorem messageOnly_iff {σ ρ δ : Type} {parse : σ → Code ρ} {describe : ρ → δ} {m : Mem}
    {out : σ → ρ} (runs : ∀ old, (parse old).result m = some (out old)) :
    MessageOnly parse describe m ↔ ∀ old old', describe (out old) = describe (out old') := by
  refine forall₂_congr fun old old' => ?_
  simp only [runs, Option.some.injEq]
  apply Iff.intro
  · rintro ⟨_, _, rfl, rfl, same⟩
    exact same
  · exact fun same => ⟨_, _, rfl, rfl, same⟩

def described {σ δ : Type} (view : σ → δ) : Int × Option σ → Option δ
  | (status, out) => if status = epSuccess then out.map view else none

@[simp] theorem described_success {σ δ : Type} (view : σ → δ) (out : σ) :
    described view (0, some out) = some (view out) := rfl

/-! The views: of an array its first entries, of a slice its first RNTIs. -/

def EpEnbDet.view (det : EpEnbDet) : List EpCellDet × List EpRanDet :=
  (det.cellArray.list, det.ranArray.list)

def EpRanDet.view (det : EpRanDet) : (UInt32 × UInt32 × UInt32) × UInt32 :=
  ((det.l1Mask, det.l2Mask, det.l3Mask), det.sliceSched)

def EpRanSliceDet.usersView (det : EpRanSliceDet) : UInt32 × List UInt16 :=
  (det.nofUsers, (List.range det.nofUsers.toNat).map det.users)

def EpRanSliceDet.view (det : EpRanSliceDet) : UInt16 × UInt32 × UInt32 × List UInt16 :=
  (det.l2.rbgs, det.l2.usched, det.usersView)

section Steps
variable (m : Mem)

abbrev IsType (type : EpTLVType) (c : Nat) : Prop := m.be c = type.code

theorem setupStep_sched :
    Assigns (setupStep m) (IsType m .ranMacSched) EpRanDet.sliceSched where
  assign c picked s s' := by
    rw [setupStep, if_pos picked, setupStep, if_pos picked]
  keep c other s := by rw [setupStep, if_neg other]

theorem setupStep_masks (c : Nat) (det : EpRanDet) :
    (setupStep m c det).view.1 = det.view.1 := by
  unfold setupStep
  split_ifs <;> rfl

theorem sliceStep_rbgs_eq {c : Nat} (picked : IsType m .ranSliceMacRes c) (det : EpRanSliceDet) :
    (sliceStep m c det).l2.rbgs = m.be (c + 4) := by
  have users : ¬ (m.be c : UInt16) = EpTLVType.rntiReport.code := by
    rw [picked]
    decide
  rw [sliceStep, if_neg users, if_pos picked]

theorem sliceStep_usched_eq {c : Nat} (picked : IsType m .ranSliceMacSched c)
    (det : EpRanSliceDet) :
    (sliceStep m c det).l2.usched = m.be (c + 4) := by
  have users : ¬ (m.be c : UInt16) = EpTLVType.rntiReport.code := by
    rw [picked]
    decide
  have res : ¬ (m.be c : UInt16) = EpTLVType.ranSliceMacRes.code := by
    rw [picked]
    decide
  rw [sliceStep, if_neg users, if_neg res, if_pos picked]

def rntisAt (c : Nat) : UInt32 × List UInt16 :=
  let count := min epRanUsersMax.toNat ((m.be (c + 2) : UInt16).toNat / 2)
  (UInt32.ofNat count, (List.range count).map fun j => m.be (c + 4 + 2 * j))

theorem sliceStep_users_eq {c : Nat} (picked : IsType m .rntiReport c) (det : EpRanSliceDet) :
    (sliceStep m c det).usersView = rntisAt m c := by
  have count : rntiCount m c epRanUsersMax.toNat =
      min epRanUsersMax.toNat ((m.be (c + 2) : UInt16).toNat / 2) := Nat.min_comm _ _
  rw [sliceStep, if_pos picked, rntisAt, EpRanSliceDet.usersView, ← count]
  have small : rntiCount m c epRanUsersMax.toNat ≤ 32 := Nat.min_le_right _ _
  refine Prod.ext rfl ?_
  rw [uint32_toNat_ofNat (by omega)]
  refine List.map_congr_left fun i hi => ?_
  have inside : 0 ≤ i ∧ i < 0 + rntiCount m c epRanUsersMax.toNat := by
    rw [List.mem_range] at hi
    omega
  exact (if_pos inside).trans (by rw [Nat.sub_zero])

theorem sliceStep_rbgs :
    Assigns (sliceStep m) (IsType m .ranSliceMacRes) fun det => det.l2.rbgs where
  assign c picked s s' := by
    rw [sliceStep_rbgs_eq m picked, sliceStep_rbgs_eq m picked]
  keep c other s := by
    unfold sliceStep
    split_ifs <;> rfl

theorem sliceStep_usched :
    Assigns (sliceStep m) (IsType m .ranSliceMacSched) fun det => det.l2.usched where
  assign c picked s s' := by
    rw [sliceStep_usched_eq m picked, sliceStep_usched_eq m picked]
  keep c other s := by
    unfold sliceStep
    split_ifs <;> rfl

theorem sliceStep_users :
    Assigns (sliceStep m) (IsType m .rntiReport) EpRanSliceDet.usersView where
  assign c picked s s' := by
    rw [sliceStep_users_eq m picked, sliceStep_users_eq m picked]
  keep c other s := by
    rw [sliceStep, if_neg other]
    split_ifs <;> rfl

/-- A slice is described by tokens of all three types. -/
def SliceComplete (os : List Nat) : Prop :=
  (∃ c ∈ os, IsType m .ranSliceMacRes c) ∧ (∃ c ∈ os, IsType m .ranSliceMacSched c) ∧
    ∃ c ∈ os, IsType m .rntiReport c

theorem runSteps_sliceStep_view_iff (os : List Nat) :
    (∀ s s', (runSteps (sliceStep m) os s).view = (runSteps (sliceStep m) os s').view) ↔
      SliceComplete m os := by
  apply Iff.intro
  · intro same
    -- two records that differ in every field
    have views := same ⟨0, fun _ => 0, ⟨0, 0⟩⟩ ⟨1, fun _ => 0, ⟨1, 1⟩⟩
    simp only [EpRanSliceDet.view, Prod.mk.injEq] at views
    obtain ⟨rbgs, usched, users⟩ := views
    exact ⟨((sliceStep_rbgs m).meet_iff (by decide)).mp rbgs,
      ((sliceStep_usched m).meet_iff (by decide)).mp usched,
      ((sliceStep_users m).meet_iff (by decide)).mp users⟩
  · rintro ⟨rbgs, usched, users⟩ s s'
    simp only [EpRanSliceDet.view, Prod.mk.injEq]
    exact ⟨(sliceStep_rbgs m).assigned rbgs s s', (sliceStep_usched m).assigned usched s s',
      (sliceStep_users m).assigned users s s'⟩

theorem runSteps_setupStep_masks (os : List Nat) (det : EpRanDet) :
    (runSteps (setupStep m) os det).view.1 = det.view.1 :=
  runSteps_preserves (setupStep m) (fun c s hs => (setupStep_masks m c s).trans hs) os rfl

theorem runSteps_setupStep_view_iff (os : List Nat) (buf : Nat) :
    (∀ s s', (runSteps (setupStep m) os (setupMasks m buf s)).view =
        (runSteps (setupStep m) os (setupMasks m buf s')).view) ↔
      ∃ c ∈ os, IsType m .ranMacSched c := by
  apply Iff.intro
  · intro same
    have sched := congrArg Prod.snd (same ⟨0, 0, 0, 0, 0, 0⟩ ⟨0, 0, 0, 0, 1, 0⟩)
    exact ((setupStep_sched m).meet_iff (by simp [setupMasks])).mp sched
  · intro sched s s'
    refine Prod.ext ?_ ((setupStep_sched m).assigned sched _ _)
    rw [runSteps_setupStep_masks, runSteps_setupStep_masks]
    rfl

theorem runSteps_ecapStep_view (host : ByteOrder) (os : List Nat) (s s' : EpEnbDet) :
    (runSteps (ecapStep m host) os { s with nofCells := 0, nofRan := 0 }).view =
      (runSteps (ecapStep m host) os { s' with nofCells := 0, nofRan := 0 }).view := by
  have view (s : EpEnbDet) :
      (runSteps (ecapStep m host) os { s with nofCells := 0, nofRan := 0 }).view =
        ((cellsFound m os).take epEcapCellMax.toNat,
          (ransFound m host os).take epEcapCellMax.toNat) := by
    have cap : (0 : UInt32) ≤ epEcapCellMax := by decide
    obtain ⟨cells, rans⟩ := runSteps_ecapStep m host os { s with nofCells := 0, nofRan := 0 }
    rw [EpEnbDet.view, cells, rans, CountedArray.list_foldl_push _ cap,
      CountedArray.list_foldl_push _ cap]
    rfl
  rw [view, view]

end Steps

section Parsers
variable {host : ByteOrder} {m : Mem} {b : Nat} {size : UInt32}

theorem eppCellMeasRep_messageOnly :
    MessageOnly (fun old => eppCellMeasRep host (some b) size (some old)) (described id) m :=
  (messageOnly_iff fun old => Code.result_of m (run_eppCellMeasRep m b size old)).mpr
    fun _ _ => rfl

theorem eppUemeasRep_messageOnly :
    MessageOnly (fun old => eppUemeasRep host (some b) size (some old))
      (described CountedArray.list) m :=
  (messageOnly_iff fun old => Code.result_of m (run_eppUemeasRep m b size old)).mpr
    fun _ _ => rfl

theorem eppUemeasReq_messageOnly :
    MessageOnly (fun old => eppUemeasReq host (some b) size (some old))
      (described CountedArray.list) m :=
  (messageOnly_iff fun old => Code.result_of m (run_eppUemeasReq m b size old)).mpr
    fun _ _ => rfl

theorem eppEcapRep_messageOnly :
    MessageOnly (fun old => eppEcapRep host b size (some old)) (described EpEnbDet.view) m :=
  (messageOnly_iff fun old => Code.result_of m (run_eppEcapRep m b size old)).mpr
    fun old old' => congrArg some (runSteps_ecapStep_view m host _ old old')

theorem eppRanEup_messageOnly_iff :
    MessageOnly (fun old => eppRanEup host b size (some old)) (described EpRanDet.view) m ↔
      size.toNat < 12 ∨
        ∃ c ∈ (m.walker false (b + size.toNat)).walk (b + 12), IsType m .ranMacSched c := by
  by_cases short : size.toNat < 12
  · rw [messageOnly_iff fun old => Code.result_of m (run_eppRanEup_short m short (some old))]
    exact iff_of_true (fun _ _ => rfl) (.inl short)
  · rw [messageOnly_iff fun old => Code.result_of m (run_eppRanEup m (Nat.le_of_not_lt short) old),
      or_iff_right short, ← runSteps_setupStep_view_iff m _ b]
    simp only [described_success, Option.some.injEq]

theorem parseSlice_messageOnly_iff {checked : Bool} {id : Option UInt64} :
    MessageOnly (fun old => parseSlice host checked b size id (some old))
        (fun out => described EpRanSliceDet.view (out.1, out.2.2)) m ↔
      size.toNat < 8 ∨ SliceComplete m ((m.walker false (b + size.toNat)).walk (b + 8)) := by
  by_cases short : size.toNat < 8
  · rw [messageOnly_iff fun old => Code.result_of m (run_parseSlice_short m short id (some old))]
    exact iff_of_true (fun _ _ => rfl) (.inl short)
  · rw [messageOnly_iff fun old =>
        Code.result_of m (run_parseSlice m (Nat.le_of_not_lt short) id old),
      or_iff_right short, ← runSteps_sliceStep_view_iff]
    simp only [described_success, Option.some.injEq]

end Parsers

/-- Five parsers describe the message only; a RAN setup needs the token of its scheduler,
a slice tokens of all three types. -/
theorem records_messageOnly_iff (host : ByteOrder) (m : Mem) (b : Nat) (size : UInt32) :
    MessageOnly (fun old => eppCellMeasRep host (some b) size (some old)) (described id) m ∧
    MessageOnly (fun old => eppUemeasRep host (some b) size (some old))
      (described CountedArray.list) m ∧
    MessageOnly (fun old => eppUemeasReq host (some b) size (some old))
      (described CountedArray.list) m ∧
    MessageOnly (fun old => eppEcapRep host b size (some old)) (described EpEnbDet.view) m ∧
    (MessageOnly (fun old => eppRanEup host b size (some old)) (described EpRanDet.view) m ↔
      size.toNat < 12 ∨
        ∃ c ∈ (m.walker false (b + size.toNat)).walk (b + 12), IsType m .ranMacSched c) ∧
    (∀ id : Option UInt64,
      MessageOnly (fun old => eppRanSup host b size id (some old))
          (fun out => described EpRanSliceDet.view (out.1, out.2.2)) m ↔
        size.toNat < 8 ∨ SliceComplete m ((m.walker false (b + size.toNat)).walk (b + 8))) ∧
    (∀ id : Option UInt64,
      MessageOnly (fun old => eppRanSaq host b size id (some old))
          (fun out => described EpRanSliceDet.view (out.1, out.2.2)) m ↔
        size.toNat < 8 ∨ SliceComplete m ((m.walker false (b + size.toNat)).walk (b + 8))) :=
  ⟨eppCellMeasRep_messageOnly, eppUemeasRep_messageOnly, eppUemeasReq_messageOnly,
    eppEcapRep_messageOnly, eppRanEup_messageOnly_iff, fun _ => parseSlice_messageOnly_iff,
    fun _ => parseSlice_messageOnly_iff⟩

/-- A setup reply of its three masks only: the scheduler is the one of the call before. -/
theorem eppRanEup_not_messageOnly :
    ¬ MessageOnly (fun old => eppRanEup .little 0 12 (some old)) (described EpRanDet.view)
      (Mem.ofBytes [0, 0, 0, 1, 0, 0, 0, 2, 0, 0, 0, 3]) := by
  rw [eppRanEup_messageOnly_iff]
  decide

end Emproto
