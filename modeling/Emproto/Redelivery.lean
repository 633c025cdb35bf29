import Emproto.Leftovers
import Mathlib.Data.List.Induction

/-! Messages that arrive once more. A parser that is given the record it filled before leaves
every field as it is: a field that the tokens assign gets the same value again, and one that
they leave out is kept. -/

namespace Emproto

section Runs
variable {σ β : Type} {step : Nat → σ → σ} {picks : Nat → Prop} {field : σ → β}

theorem Assigns.again (h : Assigns step picks field) (os : List Nat) (s : σ) :
    field (runSteps step os (runSteps step os s)) = field (runSteps step os s) := by
  by_cases assigned : ∃ c ∈ os, picks c
  · exact h.assigned assigned _ _
  · push Not at assigned
    exact h.kept assigned _

theorem Assigns.map {γ : Type} (h : Assigns step picks field) (g : β → γ) :
    Assigns step picks fun s => g (field s) where
  assign c picked s s' := congrArg g (h.assign c picked s s')
  keep c other s := congrArg g (h.keep c other s)

end Runs

namespace CountedArray
variable {α : Type} {cap : UInt32} {a : CountedArray α}

theorem eq_of_parts {b : CountedArray α} (entry : a.entry = b.entry) (count : a.count = b.count) :
    a = b := by
  cases a
  cases b
  cases entry
  cases count
  rfl

theorem entry_foldl_push_unused (xs : List α) {i : Nat}
    (unused : (xs.foldl (push cap) a).count.toNat ≤ i) :
    (xs.foldl (push cap) a).entry i = a.entry i := by
  induction xs using List.reverseRecOn with
  | nil => rfl
  | append_singleton xs x ih =>
    rw [List.foldl_append, List.foldl_cons, List.foldl_nil] at unused ⊢
    have grown := count_push cap (xs.foldl (push cap) a) x
    by_cases full : cap ≤ (xs.foldl (push cap) a).count
    · rw [list_push_full full] at unused ⊢
      exact ih unused
    · have room := UInt32.lt_iff_toNat_lt.mp (UInt32.not_le.mp full)
      rw [if_pos room] at grown
      rw [push, if_neg full]
      calc
        _ = (xs.foldl (push cap) a).entry i := Function.update_of_ne (by omega) ..
        _ = a.entry i := ih (by omega)

theorem foldl_push_again (empty : a.count = 0) (xs : List α) :
    xs.foldl (push cap) ⟨(xs.foldl (push cap) a).entry, 0⟩ = xs.foldl (push cap) a := by
  set once := xs.foldl (push cap) a
  have count : (xs.foldl (push cap) ⟨once.entry, 0⟩).count.toNat = once.count.toNat := by
    rw [count_foldl_push rfl, count_foldl_push empty]
  have entry (i : Nat) : (xs.foldl (push cap) ⟨once.entry, 0⟩).entry i = once.entry i := by
    by_cases used : i < once.count.toNat
    · have first := entry_foldl_push empty xs used
      have again := entry_foldl_push (a := ⟨once.entry, 0⟩) rfl xs (count ▸ used)
      exact Option.some.inj (again.symm.trans first)
    · exact entry_foldl_push_unused xs (by omega)
  exact eq_of_parts (funext entry) (UInt32.toNat_inj.mp count)

end CountedArray

section Steps
variable (m : Mem)

theorem sliceStep_user (i : Nat) :
    Assigns (sliceStep m)
      (fun c => IsType m .rntiReport c ∧ i < rntiCount m c epRanUsersMax.toNat)
      fun det => det.users i where
  assign c picked s s' := by
    have inside : 0 ≤ i ∧ i < 0 + rntiCount m c epRanUsersMax.toNat := by omega
    rw [sliceStep, if_pos picked.1, sliceStep, if_pos picked.1]
    exact (if_pos inside).trans (if_pos inside).symm
  keep c other s := by
    by_cases users : IsType m .rntiReport c
    · rw [sliceStep, if_pos users]
      refine if_neg fun inside => other ⟨users, ?_⟩
      omega
    · rw [sliceStep, if_neg users]
      split_ifs <;> rfl

theorem sliceStep_again (os : List Nat) (det : EpRanSliceDet) :
    runSteps (sliceStep m) os (runSteps (sliceStep m) os det) = runSteps (sliceStep m) os det := by
  have rbgs := (sliceStep_rbgs m).again os det
  have usched := (sliceStep_usched m).again os det
  have count := ((sliceStep_users m).map Prod.fst).again os det
  have users := funext fun i => (sliceStep_user m i).again os det
  revert rbgs usched count users
  generalize runSteps (sliceStep m) os (runSteps (sliceStep m) os det) = twice
  generalize runSteps (sliceStep m) os det = once
  intro rbgs usched count users
  cases twice with
  | mk nofUsers users' l2 =>
    cases once with
    | mk _ _ l2' =>
      cases l2
      cases l2'
      simp_all [EpRanSliceDet.usersView]

theorem setupStep_rest (c : Nat) (det : EpRanDet) :
    { setupStep m c det with sliceSched := det.sliceSched } = det := by
  unfold setupStep
  split_ifs <;> rfl

theorem setupStep_again (buf : Nat) (os : List Nat) (det : EpRanDet) :
    runSteps (setupStep m) os (setupMasks m buf
        (runSteps (setupStep m) os (setupMasks m buf det))) =
      runSteps (setupStep m) os (setupMasks m buf det) := by
  have rest (s : EpRanDet) :
      { runSteps (setupStep m) os s with sliceSched := s.sliceSched } = s :=
    runSteps_preserves (P := fun s' => { s' with sliceSched := s.sliceSched } = s) (setupStep m)
      (fun c s' hs => by
        have step := congrArg (fun d : EpRanDet => { d with sliceSched := s.sliceSched })
          (setupStep_rest m c s')
        exact step.trans hs) os rfl
  set once := runSteps (setupStep m) os (setupMasks m buf det)
  have masks : setupMasks m buf once = once := by
    have same := rest (setupMasks m buf det)
    have l1 := congrArg EpRanDet.l1Mask same
    have l2 := congrArg EpRanDet.l2Mask same
    have l3 := congrArg EpRanDet.l3Mask same
    rw [setupMasks, ← show once.l1Mask = m.be buf from l1,
      ← show once.l2Mask = m.be (buf + 4) from l2, ← show once.l3Mask = m.be (buf + 8) from l3]
  have sched : (runSteps (setupStep m) os once).sliceSched = once.sliceSched :=
    (setupStep_sched m).again os (setupMasks m buf det)
  rw [masks]
  have others := rest once
  rw [← sched] at others
  exact others

theorem ecapStep_again (host : ByteOrder) (os : List Nat) (det : EpEnbDet) :
    runSteps (ecapStep m host) os
        { runSteps (ecapStep m host) os { det with nofCells := 0, nofRan := 0 } with
          nofCells := 0, nofRan := 0 } =
      runSteps (ecapStep m host) os { det with nofCells := 0, nofRan := 0 } := by
  have once := runSteps_ecapStep m host os { det with nofCells := 0, nofRan := 0 }
  have twice := runSteps_ecapStep m host os
    { runSteps (ecapStep m host) os { det with nofCells := 0, nofRan := 0 } with
      nofCells := 0, nofRan := 0 }
  have cells : (cellsFound m os).foldl (CountedArray.push epEcapCellMax) _ = _ :=
    CountedArray.foldl_push_again (a := ⟨det.cells, 0⟩) rfl (cellsFound m os)
  have rans : (ransFound m host os).foldl (CountedArray.push epEcapCellMax) _ = _ :=
    CountedArray.foldl_push_again (a := ⟨det.ran, 0⟩) rfl (ransFound m host os)
  rw [show (cellsFound m os).foldl (CountedArray.push epEcapCellMax) ⟨det.cells, 0⟩ = _
    from once.1.symm] at cells
  rw [show (ransFound m host os).foldl (CountedArray.push epEcapCellMax) ⟨det.ran, 0⟩ = _
    from once.2.symm] at rans
  have cells := twice.1.trans cells
  have rans := twice.2.trans rans
  revert cells rans
  generalize runSteps (ecapStep m host) os
    { runSteps (ecapStep m host) os { det with nofCells := 0, nofRan := 0 } with
      nofCells := 0, nofRan := 0 } = two
  generalize runSteps (ecapStep m host) os { det with nofCells := 0, nofRan := 0 } = one
  intro cells rans
  cases two
  cases one
  simp_all [EpEnbDet.cellArray, EpEnbDet.ranArray]

end Steps

/-- Parsed once more, into the record that the first call left, the message gives the very same
result. -/
def Repeats {σ ρ : Type} (parse : σ → Code ρ) (record : ρ → Option σ) (m : Mem) : Prop :=
  ∀ old : σ, ∃ out new, (parse old).result m = some out ∧ record out = some new ∧
    (parse new).result m = some out

/-- A message that arrives once more changes nothing, whatever its bytes: every parser of a
record returns the same status and leaves the whole record as the first call left it. -/
theorem records_again (host : ByteOrder) (m : Mem) (b : Nat) (size : UInt32) :
    Repeats (fun old => eppCellMeasRep host (some b) size (some old)) Prod.snd m ∧
    Repeats (fun old => eppUemeasRep host (some b) size (some old)) Prod.snd m ∧
    Repeats (fun old => eppUemeasReq host (some b) size (some old)) Prod.snd m ∧
    Repeats (fun old => eppEcapRep host b size (some old)) Prod.snd m ∧
    Repeats (fun old => eppRanEup host b size (some old)) Prod.snd m ∧
    ∀ parse ∈ [eppRanSup host, eppRanSaq host, eppRanSsq host], ∀ id : Option UInt64,
      Repeats (fun old => parse b size id (some old)) (fun out => out.2.2) m := by
  have slice (checked : Bool) (id : Option UInt64) :
      Repeats (fun old => parseSlice host checked b size id (some old)) (fun out => out.2.2) m := by
    intro old
    by_cases short : size.toNat < 8
    · have out : (parseSlice host checked b size id (some old)).result m = _ :=
        Code.result_of m (run_parseSlice_short m short id (some old))
      exact ⟨_, _, out, rfl, out⟩
    · have out (det : EpRanSliceDet) :
          (parseSlice host checked b size id (some det)).result m = _ :=
        Code.result_of m (run_parseSlice m (Nat.le_of_not_lt short) id det)
      refine ⟨_, _, out old, rfl, ?_⟩
      rw [out, sliceStep_again]
  refine ⟨?_, ?_, ?_, ?_, ?_, ?_⟩
  · exact fun old => ⟨_, _, Code.result_of m (run_eppCellMeasRep m b size old), rfl,
      Code.result_of m (run_eppCellMeasRep m b size _)⟩
  · exact fun old => ⟨_, _, Code.result_of m (run_eppUemeasRep m b size old), rfl,
      Code.result_of m (run_eppUemeasRep m b size _)⟩
  · exact fun old => ⟨_, _, Code.result_of m (run_eppUemeasReq m b size old), rfl,
      Code.result_of m (run_eppUemeasReq m b size _)⟩
  · intro old
    refine ⟨_, _, Code.result_of m (run_eppEcapRep m b size old), rfl, ?_⟩
    rw [Code.result_of m (run_eppEcapRep m b size _), ecapStep_again]
  · intro old
    by_cases short : size.toNat < 12
    · have out : (eppRanEup host b size (some old)).result m = _ :=
        Code.result_of m (run_eppRanEup_short m short (some old))
      exact ⟨_, _, out, rfl, out⟩
    · have out (det : EpRanDet) : (eppRanEup host b size (some det)).result m = _ :=
        Code.result_of m (run_eppRanEup m (Nat.le_of_not_lt short) det)
      refine ⟨_, _, out old, rfl, ?_⟩
      rw [out, setupStep_again]
  · intro parse mem id
    simp only [List.mem_cons, List.not_mem_nil, or_false] at mem
    rcases mem with rfl | rfl | rfl
    · exact slice false id
    · exact slice true id
    · exact slice false id

end Emproto
