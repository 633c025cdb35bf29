import Emproto.Fills

/-! Formatting loops as a whole. A loop stores inside the space it was given, also if it
gives up on the way; a loop that ends leaves the encoded sequence of its tokens. -/

namespace Emproto

theorem Mem.patch_congr {m m' : Mem} {a : Nat} (ws : List (Nat × UInt8)) (same : m a = m' a) :
    m.patch ws a = m'.patch ws a := by
  by_cases stored : ∃ w ∈ ws, w.1 = a
  · exact Mem.patch_eq_of_stored m m' stored
  · have apart : ∀ w ∈ ws, w.1 ≠ a := fun w hw he => stored ⟨w, hw, he⟩
    rw [Mem.patch_frame m apart, Mem.patch_frame m' apart, same]

section Within
variable {width : Nat} {put : Nat → Nat → Code Unit}

theorem fillTokens_within
    (each : ∀ i c, ∃ ws, Emits (put i c) () ws ∧ ∀ w ∈ ws, c ≤ w.1 ∧ w.1 < c + width)
    (fin k i c : Nat) :
    ∃ ws, Emits (fillTokens width put fin k i c) (tokensEnd width fin k c) ws ∧
      ∀ w ∈ ws, c ≤ w.1 ∧ w.1 < fin := by
  induction k generalizing i c with
  | zero => exact ⟨[], .pure _, by simp⟩
  | succ k ih =>
    by_cases full : c + width > fin
    · rw [fillTokens, if_pos full, tokensEnd_full full]
      exact ⟨[], .pure none, by simp⟩
    · obtain ⟨vs, first, inside⟩ := each i c
      obtain ⟨ws, rest, behind⟩ := ih (i + 1) (c + width)
      rw [fillTokens, if_neg full, tokensEnd_step (Nat.le_of_not_lt full)]
      refine ⟨_, (Emits.note rfl).bind (first.bind rest), fun w hw => ?_⟩
      rw [List.nil_append, List.mem_append] at hw
      rcases hw with hw | hw
      · have := inside w hw
        omega
      · have := behind w hw
        omega

end Within

section Leaves
variable {width : Nat} {put : Nat → Nat → Code Unit} {tok : Mem → Nat → Nat → Token}

/-- A loop whose step leaves a token of which some bytes may come from the memory
before. The tokens do not get into each other's way. -/
theorem fillTokens_leaves
    (each : ∀ i c, ∃ ws, Emits (put i c) () ws ∧ (∀ w ∈ ws, c ≤ w.1 ∧ w.1 < c + width) ∧
      ∀ m : Mem, (m.patch ws).Holds c (tok m i c).bytes)
    (fixed : ∀ m i c, (tok m i c).bytes.length = width)
    (own : ∀ (m m' : Mem) i c, (∀ a, c ≤ a → m a = m' a) → tok m i c = tok m' i c)
    {fin k i c : Nat} (fits : c + width * k ≤ fin) :
    ∃ ws, Emits (fillTokens width put fin k i c) (some (c + width * k)) ws ∧
      (∀ w ∈ ws, c ≤ w.1 ∧ w.1 < c + width * k) ∧ ∀ m : Mem, (m.patch ws).Holds c
        (encode ((List.range k).map fun j => tok m (i + j) (c + width * j))) := by
  induction k generalizing i c with
  | zero => exact ⟨[], .pure _, by simp, fun m => rfl⟩
  | succ k ih =>
    have grow : c + width * (k + 1) = c + width + width * k := by rw [Nat.mul_succ]; omega
    rw [grow] at fits ⊢
    obtain ⟨vs, first, inside, held⟩ := each i c
    obtain ⟨ws, rest, behind, later⟩ := ih (i := i + 1) fits
    rw [fillTokens, if_neg (by omega)]
    refine ⟨_, (Emits.note rfl).bind (first.bind rest), fun w hw => ?_, fun m => ?_⟩
    · rw [List.nil_append, List.mem_append] at hw
      rcases hw with hw | hw
      · have := inside w hw
        omega
      · have := behind w hw
        omega
    rw [List.nil_append, Mem.patch_append, List.range_succ_eq_map, List.map_cons, encode_cons,
      Mem.holds_append, fixed]
    refine ⟨(held m).patch fun w hw => .inr ?_, ?_⟩
    · rw [fixed]
      exact (behind w hw).1
    have same (a : Nat) (ha : c + width ≤ a) : m.patch vs a = m a :=
      Mem.patch_frame m fun w hw => by
        have := inside w hw
        omega
    have tokens : (List.range k).map (fun j => tok (m.patch vs) (i + 1 + j) (c + width + width * j))
        = (List.range k).map (fun j => tok m (i + (j + 1)) (c + width * (j + 1))) := by
      refine List.map_congr_left fun j _ => ?_
      rw [own (m.patch vs) m _ _ fun a ha => same a (by omega), Nat.mul_succ]
      congr 1 <;> omega
    rw [List.map_map]
    have := later (m.patch vs)
    rwa [tokens] at this

end Leaves

end Emproto
