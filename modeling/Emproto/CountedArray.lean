import Mathlib.Logic.Function.Basic
import Mathlib.Data.List.TakeDrop

/-! Arrays of which the first `count` entries are in use, and appending to them up
to a capacity. -/

namespace Emproto

structure CountedArray (α : Type) where
  entry : Nat → α
  count : UInt32

namespace CountedArray
variable {α : Type}

def list (a : CountedArray α) : List α := (List.range a.count.toNat).map a.entry

/-- Append an entry unless `cap` are in use. -/
def push (cap : UInt32) (a : CountedArray α) (x : α) : CountedArray α :=
  if a.count ≥ cap then a
  else ⟨Function.update a.entry a.count.toNat x, a.count + 1⟩

@[simp] theorem list_length (a : CountedArray α) : a.list.length = a.count.toNat := by
  simp [list]

theorem list_getElem (a : CountedArray α) (i : Nat) (h : i < a.list.length) :
    a.list[i] = a.entry i := by
  simp [list]

theorem list_push_full {cap : UInt32} {a : CountedArray α} (h : cap ≤ a.count) (x : α) :
    a.push cap x = a := if_pos h

theorem list_push {cap : UInt32} {a : CountedArray α} (h : a.count < cap) (x : α) :
    (a.push cap x).list = a.list ++ [x] := by
  have room : a.count.toNat < cap.toNat := UInt32.lt_iff_toNat_lt.mp h
  have bound := cap.toNat_lt
  have next : (a.count + 1).toNat = a.count.toNat + 1 := by
    rw [UInt32.toNat_add]
    exact Nat.mod_eq_of_lt (by simp; omega)
  rw [push, if_neg (UInt32.not_le.mpr h), list, next, List.range_succ, List.map_append]
  congr 1
  · refine List.map_congr_left fun i hi => ?_
    exact Function.update_of_ne (Nat.ne_of_lt (List.mem_range.mp hi)) x a.entry
  · simp

theorem count_push (cap : UInt32) (a : CountedArray α) (x : α) :
    (a.push cap x).count.toNat =
      if a.count.toNat < cap.toNat then a.count.toNat + 1 else a.count.toNat := by
  by_cases room : a.count < cap
  · rw [if_pos (UInt32.lt_iff_toNat_lt.mp room), ← list_length, list_push room,
      List.length_append, list_length]
    rfl
  · have full : cap ≤ a.count := UInt32.not_lt.mp room
    rw [if_neg (fun h => room (UInt32.lt_iff_toNat_lt.mpr h)), list_push_full full]

theorem count_ite_push (p : Prop) [Decidable p] (cap : UInt32) (a : CountedArray α) (x : α) :
    (if p then a.push cap x else a).count.toNat =
      if p ∧ a.count.toNat < cap.toNat then a.count.toNat + 1 else a.count.toNat := by
  by_cases h : p
  · rw [if_pos h, count_push]
    exact if_congr (and_iff_right h).symm rfl rfl
  · rw [if_neg h, if_neg fun both => h both.1]

theorem list_foldl_push {cap : UInt32} (xs : List α) {a : CountedArray α} (h : a.count ≤ cap) :
    (xs.foldl (push cap) a).list = (a.list ++ xs).take cap.toNat := by
  have hle : a.list.length ≤ cap.toNat := by
    rw [list_length]
    exact UInt32.le_iff_toNat_le.mp h
  induction xs generalizing a with
  | nil =>
    rw [List.append_nil, List.take_of_length_le hle]
    rfl
  | cons x xs ih =>
    rw [List.foldl_cons]
    by_cases full : cap ≤ a.count
    · have length : a.list.length = cap.toNat := by
        have := UInt32.le_iff_toNat_le.mp full
        rw [list_length] at hle ⊢
        omega
      have past := Nat.le_of_eq length.symm
      rw [list_push_full full, ih h hle, List.take_append_of_le_length past,
        List.take_append_of_le_length past]
    · have step := list_push (UInt32.not_le.mp full) x
      have inside : (a.push cap x).list.length ≤ cap.toNat := by
        have := UInt32.lt_iff_toNat_lt.mp (UInt32.not_le.mp full)
        rw [step, List.length_append, list_length, List.length_singleton]
        omega
      have inside' : (a.push cap x).count ≤ cap := by
        rw [UInt32.le_iff_toNat_le, ← list_length]
        exact inside
      rw [ih inside' inside, step, List.append_assoc]
      rfl

section Empty
variable {cap : UInt32} {a : CountedArray α}

theorem list_foldl_push_empty (empty : a.count = 0) (xs : List α) :
    (xs.foldl (push cap) a).list = xs.take cap.toNat := by
  have none : a.list = [] := by
    rw [list, empty]
    rfl
  rw [list_foldl_push xs (empty ▸ UInt32.zero_le), none, List.nil_append]

theorem count_foldl_push (empty : a.count = 0) (xs : List α) :
    (xs.foldl (push cap) a).count.toNat = min cap.toNat xs.length := by
  rw [← list_length, list_foldl_push_empty empty, List.length_take]

theorem entry_foldl_push (empty : a.count = 0) (xs : List α) {i : Nat}
    (used : i < (xs.foldl (push cap) a).count.toNat) :
    xs[i]? = some ((xs.foldl (push cap) a).entry i) := by
  have inside : i < (xs.foldl (push cap) a).list.length := by rwa [list_length]
  have room : i < cap.toNat := by
    rw [count_foldl_push empty] at used
    omega
  rw [← list_getElem _ i inside, ← List.getElem?_eq_getElem inside,
    list_foldl_push_empty empty, List.getElem?_take_of_lt room]

theorem entry_foldl_push_append (empty : a.count = 0) (xs ys : List α) {i : Nat}
    (used : i < (xs.foldl (push cap) a).count.toNat) :
    ((xs ++ ys).foldl (push cap) a).entry i = (xs.foldl (push cap) a).entry i := by
  have first := entry_foldl_push empty xs used
  have bounds : (xs.foldl (push cap) a).count.toNat = _ := count_foldl_push empty xs
  have still : i < ((xs ++ ys).foldl (push cap) a).count.toNat := by
    rw [count_foldl_push empty, List.length_append]
    omega
  have later := entry_foldl_push empty (xs ++ ys) still
  rw [List.getElem?_append_left (by omega), first] at later
  exact (Option.some.inj later).symm

end Empty

/-- Equal up to the entries that are not in use. -/
def Same (a b : CountedArray α) : Prop :=
  a.count = b.count ∧ ∀ i < b.count.toNat, a.entry i = b.entry i

theorem same_iff {a b : CountedArray α} : a.Same b ↔ a.list = b.list := by
  apply Iff.intro
  · intro h
    rw [list, list, h.1]
    exact List.map_congr_left fun i hi => h.2 i (List.mem_range.mp hi)
  · intro h
    have count : a.count.toNat = b.count.toNat := by
      rw [← list_length, h, list_length]
    refine ⟨UInt32.toNat_inj.mp count, fun i hi => ?_⟩
    have left := a.list_getElem i (by rwa [list_length, count])
    have right := b.list_getElem i (by rwa [list_length])
    rw [← left, ← right]
    simp only [h]

theorem same_foldl_push_iff {cap : UInt32} {a b : CountedArray α} {xs ys : List α}
    (empty : a.count = 0) (length : xs.length = b.count.toNat) (fits : b.count ≤ cap) :
    ((xs ++ ys).foldl (push cap) a).Same b ↔ xs = b.list ∧ (ys = [] ∨ b.count = cap) := by
  have short : b.count.toNat ≤ cap.toNat := UInt32.le_iff_toNat_le.mp fits
  have full : cap.toNat - xs.length = 0 ↔ b.count = cap := by
    rw [← UInt32.toNat_inj]
    omega
  rw [same_iff, list_foldl_push_empty empty, List.take_append,
    List.take_of_length_le (length ▸ short)]
  apply Iff.intro
  · intro h
    have split : xs = b.list ∧ ys.take (cap.toNat - xs.length) = [] :=
      List.append_inj (h.trans (List.append_nil _).symm) (by rw [length, list_length])
    have room := List.take_eq_nil_iff.mp split.2
    exact ⟨split.1, room.symm.imp_right full.mp⟩
  · intro h
    have cut : ys.take (cap.toNat - xs.length) = [] :=
      List.take_eq_nil_iff.mpr (h.2.imp_right full.mpr).symm
    rw [cut, List.append_nil, h.1]

end CountedArray

end Emproto
