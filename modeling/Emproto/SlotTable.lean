import Mathlib.Logic.Function.Basic
import Mathlib.Tactic.Common

/-! Tables of a fixed number of slots, each holding a key and a value, where one
distinguished key marks a free slot. `put` stores at the first slot that holds
the key, else at the first free one, else nowhere. A table denotes a partial map
from keys to values. -/

namespace Emproto

structure SlotTable (κ ν : Type) where
  cap : Nat
  key : Nat → κ
  val : Nat → ν

namespace SlotTable
variable {κ ν : Type} [DecidableEq κ] (free : κ) (t : SlotTable κ ν)

def Holds (k : κ) : Prop := ∃ i < t.cap, t.key i = k

def slotOf (k : κ) : Option Nat := (List.range t.cap).find? fun i => t.key i = k

/-- The slot in which an entry for `k` goes. -/
def select (k : κ) : Option Nat := (t.slotOf k).or (t.slotOf free)

def write (i : Nat) (k : κ) (v : ν) : SlotTable κ ν where
  cap := t.cap
  key := Function.update t.key i k
  val := Function.update t.val i v

def put (k : κ) (v : ν) : SlotTable κ ν :=
  match t.select free k with
  | none => t
  | some i => t.write i k v

/-- The partial map read off the slots. -/
def denote (k : κ) : Option ν := if k = free then none else (t.slotOf k).map t.val

/-- No key but the free one stands in two slots. -/
def Distinct : Prop :=
  ∀ i < t.cap, ∀ j < t.cap, t.key i = t.key j → t.key i ≠ free → i = j

instance : DecidablePred t.Holds := fun k =>
  inferInstanceAs (Decidable (∃ i < t.cap, t.key i = k))

instance : Decidable (t.Distinct free) :=
  inferInstanceAs
    (Decidable (∀ i < t.cap, ∀ j < t.cap, t.key i = t.key j → t.key i ≠ free → i = j))

variable {free t} {k k' : κ} {v : ν} {i : Nat}

omit [DecidableEq κ] in
theorem write_key (j : Nat) : (t.write i k v).key j = if j = i then k else t.key j :=
  Function.update_apply ..

omit [DecidableEq κ] in
theorem write_val (j : Nat) : (t.write i k v).val j = if j = i then v else t.val j :=
  Function.update_apply ..

theorem slotOf_eq_some :
    t.slotOf k = some i ↔ i < t.cap ∧ t.key i = k ∧ ∀ j < i, t.key j ≠ k := by
  simp only [slotOf, List.find?_range_eq_some, decide_eq_true_eq, List.mem_range,
    Bool.not_eq_true', decide_eq_false_iff_not]
  tauto

theorem slotOf_eq_none : t.slotOf k = none ↔ ¬ t.Holds k := by
  simp [slotOf, Holds]

theorem isSome_slotOf : (t.slotOf k).isSome ↔ t.Holds k := by
  rw [← not_iff_not, ← slotOf_eq_none, Option.not_isSome_iff_eq_none]

theorem isSome_select : (t.select free k).isSome ↔ t.Holds k ∨ t.Holds free := by
  rw [select, Option.isSome_or, Bool.or_eq_true, isSome_slotOf, isSome_slotOf]

/-- The selected slot holds the key, or it is the first free one and no slot does. -/
theorem select_eq_some (h : t.select free k = some i) :
    i < t.cap ∧ (t.slotOf k = some i ∨ ¬ t.Holds k ∧ t.slotOf free = some i) := by
  rw [select, Option.or_eq_some_iff] at h
  rcases h with h | ⟨hk, h⟩
  · exact ⟨(slotOf_eq_some.mp h).1, .inl h⟩
  · exact ⟨(slotOf_eq_some.mp h).1, .inr ⟨slotOf_eq_none.mp hk, h⟩⟩

theorem key_of_select (h : t.select free k = some i) : t.key i = k ∨ t.key i = free := by
  rcases (select_eq_some h).2 with h | ⟨-, h⟩
  · exact .inl (slotOf_eq_some.mp h).2.1
  · exact .inr (slotOf_eq_some.mp h).2.1

theorem put_of_select (h : t.select free k = some i) : t.put free k v = t.write i k v := by
  rw [put, h]

theorem put_of_full (h : t.select free k = none) : t.put free k v = t := by
  rw [put, h]

@[simp] theorem put_cap : (t.put free k v).cap = t.cap := by
  unfold put
  split <;> rfl

theorem put_distinct (h : t.Distinct free) : (t.put free k v).Distinct free := by
  cases hs : t.select free k with
  | none => rwa [put_of_full hs]
  | some i =>
    rw [put_of_select hs]
    -- no slot but `i` holds `k`
    have alone : ∀ j < t.cap, k ≠ free → t.key j = k → j = i := by
      intro j hj hk hkey
      rcases (select_eq_some hs).2 with match' | ⟨absent, -⟩
      · obtain ⟨hi, hik, -⟩ := slotOf_eq_some.mp match'
        exact h j hj i hi (hkey.trans hik.symm) (hkey ▸ hk)
      · exact absurd ⟨j, hj, hkey⟩ absent
    intro a ha b hb hkey hfree
    simp only [write_key] at hkey hfree
    split_ifs at hkey hfree with hai hbi hbi
    · rw [hai, hbi]
    · exact hai.trans (alone b hb hfree hkey.symm).symm
    · rw [hbi]
      exact alone a ha (hkey ▸ hfree) hkey
    · exact h a ha b hb hkey hfree

theorem slotOf_put_self (hs : t.select free k = some i) :
    (t.put free k v).slotOf k = some i := by
  rw [put_of_select hs, slotOf_eq_some]
  obtain ⟨hi, found⟩ := select_eq_some hs
  refine ⟨hi, by simp [write_key], fun j hj => ?_⟩
  rw [write_key, if_neg (Nat.ne_of_lt hj)]
  rcases found with found | ⟨absent, -⟩
  · exact (slotOf_eq_some.mp found).2.2 j hj
  · exact fun hkey => absent ⟨j, Nat.lt_trans hj hi, hkey⟩

theorem key_put_iff (hk' : k' ≠ k) (hfree : k' ≠ free) (j : Nat) :
    (t.put free k v).key j = k' ↔ t.key j = k' := by
  cases hs : t.select free k with
  | none => rw [put_of_full hs]
  | some i =>
    rw [put_of_select hs, write_key]
    split_ifs with hj
    · subst hj
      refine iff_of_false (Ne.symm hk') fun hkey => ?_
      rcases key_of_select hs with h | h
      · exact hk' (hkey.symm.trans h)
      · exact hfree (hkey.symm.trans h)
    · rfl

theorem slotOf_put_of_ne (hk' : k' ≠ k) (hfree : k' ≠ free) :
    (t.put free k v).slotOf k' = t.slotOf k' := by
  simp only [slotOf, put_cap, key_put_iff hk' hfree]

theorem val_put_of_ne (hk' : k' ≠ k) (hfree : k' ≠ free) {j : Nat} (hj : t.key j = k') :
    (t.put free k v).val j = t.val j := by
  cases hs : t.select free k with
  | none => rw [put_of_full hs]
  | some i =>
    have other : j ≠ i := by
      rintro rfl
      rcases key_of_select hs with h | h
      · exact hk' (hj.symm.trans h)
      · exact hfree (hj.symm.trans h)
    rw [put_of_select hs, write_val, if_neg other]

theorem denote_put_of_ne (hk' : k' ≠ k) : (t.put free k v).denote free k' = t.denote free k' := by
  unfold denote
  split_ifs with hfree
  · rfl
  · rw [slotOf_put_of_ne hk' hfree]
    cases hs : t.slotOf k' with
    | none => rfl
    | some j =>
      rw [Option.map_some, Option.map_some,
        val_put_of_ne hk' hfree (slotOf_eq_some.mp hs).2.1]

theorem denote_put_self (hs : (t.select free k).isSome) (hk : k ≠ free) :
    (t.put free k v).denote free k = some v := by
  obtain ⟨i, hs⟩ := Option.isSome_iff_exists.mp hs
  rw [denote, if_neg hk, slotOf_put_self hs, Option.map_some, put_of_select hs, write_val,
    if_pos rfl]

/-- Storing binds the key and leaves every other binding as it was. -/
theorem denote_put (hs : (t.select free k).isSome) (hk : k ≠ free) :
    (t.put free k v).denote free = Function.update (t.denote free) k (some v) := by
  ext k' : 1
  rw [Function.update_apply]
  split_ifs with h
  · rw [h, denote_put_self hs hk]
  · exact denote_put_of_ne h

theorem denote_put_free : (t.put free free v).denote free = t.denote free := by
  ext k' : 1
  by_cases h : k' = free
  · simp [denote, h]
  · exact denote_put_of_ne h

end SlotTable

end Emproto
