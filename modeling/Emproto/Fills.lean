import Emproto.TokenBytes

/-! Code that fills a range of addresses: its stores begin at an address and leave no
byte out up to another. What a memory holds in a filled range afterwards does not
depend on what it held before. -/

namespace Emproto

/-- Stores from `p` on that leave out no byte below `e`. -/
structure Stores (ws : List (Nat × UInt8)) (p e : Nat) : Prop where
  behind : ∀ w ∈ ws, p ≤ w.1
  covers : ∀ a, p ≤ a → a < e → ∃ w ∈ ws, w.1 = a

namespace Stores
variable {vs ws : List (Nat × UInt8)} {p q e e' : Nat}

theorem none (h : e ≤ p) : Stores [] p e where
  behind w hw := absurd hw List.not_mem_nil
  covers a := by omega

theorem shrink (h : Stores ws p e) (hq : q ≤ p) (he : e' ≤ e) (short : q = p ∨ e' ≤ q) :
    Stores ws q e' where
  behind w hw := hq.trans (h.behind w hw)
  covers a ha ha' := h.covers a (by omega) (by omega)

theorem append (h : Stores vs p q) (h' : Stores ws q e) (hq : p ≤ q) :
    Stores (vs ++ ws) p e where
  behind w hw := by
    rcases List.mem_append.mp hw with hw | hw
    · exact h.behind w hw
    · exact hq.trans (h'.behind w hw)
  covers a ha ha' := by
    by_cases first : a < q
    · obtain ⟨w, hw, rfl⟩ := h.covers a ha first
      exact ⟨w, List.mem_append_left _ hw, rfl⟩
    · obtain ⟨w, hw, rfl⟩ := h'.covers a (by omega) ha'
      exact ⟨w, List.mem_append_right _ hw, rfl⟩

theorem perm (h : Stores vs p e) (same : vs.Perm ws) : Stores ws p e where
  behind w hw := h.behind w (same.mem_iff.mpr hw)
  covers a ha ha' := by
    obtain ⟨w, hw, rfl⟩ := h.covers a ha ha'
    exact ⟨w, same.mem_iff.mp hw, rfl⟩

theorem chunk (p : Nat) (bs : List UInt8) : Stores (chunk p bs) p (p + bs.length) where
  behind _ hw := (chunk_bounds hw).1
  covers a ha ha' := by
    induction bs generalizing p with
    | nil => simp at ha'; omega
    | cons b bs ih =>
      rw [List.length_cons] at ha'
      by_cases first : a = p
      · exact ⟨(p, b), List.mem_cons_self, first.symm⟩
      · obtain ⟨w, hw, rfl⟩ := ih (p + 1) (by omega) (by omega)
        exact ⟨w, List.mem_cons_of_mem _ hw, rfl⟩

end Stores

/-- Where a byte is stored, the memories before do not matter. -/
theorem Mem.patch_eq_of_stored {ws : List (Nat × UInt8)} {a : Nat} (m m' : Mem)
    (stored : ∃ w ∈ ws, w.1 = a) : m.patch ws a = m'.patch ws a := by
  induction ws generalizing m m' with
  | nil => simp at stored
  | cons v ws ih =>
    rw [Mem.patch, Mem.patch]
    by_cases later : ∃ w ∈ ws, w.1 = a
    · exact ih _ _ later
    · have apart : ∀ w ∈ ws, w.1 ≠ a := fun w hw he => later ⟨w, hw, he⟩
      have own : v.1 = a := by
        obtain ⟨w, hw, he⟩ := stored
        rcases List.mem_cons.mp hw with rfl | hw
        · exact he
        · exact absurd he (apart w hw)
      rw [Mem.patch_frame _ apart, Mem.patch_frame _ apart, ← own, Function.update_self,
        Function.update_self]

/-- Whatever the memory, `c` ends with a value for which `ok` holds, after stores from
`p` on that leave out no byte below `e` of it. -/
def Fills {α : Type} (c : Code α) (p : Nat) (ok : α → Prop) (e : α → Nat) : Prop :=
  ∃ a ws, Emits c a ws ∧ ok a ∧ Stores ws p (e a)

namespace Fills
variable {α β : Type} {p : Nat} {ok : α → Prop} {e : α → Nat}

theorem pure {a : α} (h : ok a) (he : e a ≤ p) : Fills (Pure.pure a) p ok e :=
  ⟨a, [], .pure a, h, .none he⟩

theorem store_bind {W : Type} [Word W] {host : ByteOrder} {w : W} {f : Unit → Code α}
    (hf : Fills (f ()) (p + Word.width W) ok e) : Fills (Code.store host p w >>= f) p ok e := by
  obtain ⟨a, ws, emits, ha, stores⟩ := hf
  refine ⟨a, _, Emits.store.bind emits, ha, (Stores.chunk p _).append ?_ (by omega)⟩
  rwa [Word.bytes_length]

theorem store_behind {W : Type} [Word W] {host : ByteOrder} {q : Nat} {w : W} {f : Unit → Code α}
    (hq : p ≤ q) (hf : Fills (f ()) p ok e) : Fills (Code.store host q w >>= f) p ok e := by
  obtain ⟨a, ws, emits, ha, stores⟩ := hf
  refine ⟨a, _, Emits.store.bind emits, ha, fun w hw => ?_, fun a' ha' he => ?_⟩
  · rcases List.mem_append.mp hw with hw | hw
    · exact hq.trans (chunk_bounds hw).1
    · exact stores.behind w hw
  · obtain ⟨w, hw, rfl⟩ := stores.covers a' ha' he
    exact ⟨w, List.mem_append_right _ hw, rfl⟩

theorem store {W : Type} [Word W] {host : ByteOrder} {w : W} :
    Fills (Code.store host p w) p (fun _ => True) fun _ => p + Word.width W := by
  refine ⟨(), _, Emits.store, trivial, ?_⟩
  rw [← Word.bytes_length host w]
  exact .chunk p _

theorem note_bind {ev : Event} {f : Unit → Code α} (quiet : ev.store? = none)
    (hf : Fills (f ()) p ok e) : Fills (Code.note ev >>= f) p ok e := by
  obtain ⟨a, ws, emits, ha, stores⟩ := hf
  exact ⟨a, _, (Emits.note quiet).bind emits, ha, stores⟩

theorem bind {x : Code β} {f : β → Code α} {ok' : β → Prop} {e' : β → Nat}
    (hx : Fills x p ok' e')
    (hf : ∀ b, ok' b → p ≤ e' b ∧ Fills (f b) (e' b) ok e) : Fills (x >>= f) p ok e := by
  obtain ⟨b, vs, emits, hb, first⟩ := hx
  obtain ⟨le, a, ws, emits', ha, second⟩ := hf b hb
  exact ⟨a, vs ++ ws, emits.bind emits', ha, first.append second le⟩

theorem mono {c : Code α} {q : Nat} {ok' : α → Prop} {e' : α → Nat} (h : Fills c q ok' e')
    (hq : p ≤ q) (weaker : ∀ a, ok' a → ok a ∧ e a ≤ e' a ∧ (p = q ∨ e a ≤ p)) :
    Fills c p ok e := by
  obtain ⟨a, ws, emits, ha, stores⟩ := h
  obtain ⟨ha', he, short⟩ := weaker a ha
  exact ⟨a, ws, emits, ha', stores.shrink hq he short⟩

theorem ite {c : Prop} [Decidable c] {x y : Code α} (hx : c → Fills x p ok e)
    (hy : ¬ c → Fills y p ok e) : Fills (if c then x else y) p ok e := by
  split
  · exact hx ‹c›
  · exact hy ‹¬ c›

end Fills

section Tokens
variable {width : Nat} {put : Nat → Nat → Code Unit} {fin k i c : Nat}

def tokensEnd (width fin k c : Nat) : Option Nat :=
  if k = 0 ∨ c + width * k ≤ fin then some (c + width * k) else none

theorem tokensEnd_full (full : fin < c + width) : tokensEnd width fin (k + 1) c = none := by
  have grow : width ≤ width * (k + 1) := Nat.le_mul_of_pos_right width (Nat.succ_pos k)
  exact if_neg (by omega)

theorem tokensEnd_step (room : c + width ≤ fin) :
    tokensEnd width fin (k + 1) c = tokensEnd width fin k (c + width) := by
  have grow : c + width * (k + 1) = c + width + width * k := by rw [Nat.mul_succ]; omega
  have same : (k + 1 = 0 ∨ c + width * (k + 1) ≤ fin) ↔
      (k = 0 ∨ c + width + width * k ≤ fin) := by
    rw [grow]
    rcases Nat.eq_zero_or_pos k with rfl | pos <;> omega
  rw [tokensEnd, tokensEnd, grow, if_congr (grow ▸ same) rfl rfl]

theorem le_of_tokensEnd {e : Nat} (h : tokensEnd width fin k c = some e) : c ≤ e := by
  unfold tokensEnd at h
  split at h
  · cases h
    exact Nat.le_add_right c _
  · cases h

/-- The formatting loop ends behind its tokens, or at one that does not fit. If each
token is stored whole, so is the range up to the write pointer. -/
theorem fillTokens_fills (whole : Bool)
    (each : ∀ i c, Fills (put i c) c (fun _ => True) fun _ => if whole then c + width else c) :
    Fills (fillTokens width put fin k i c) c (· = tokensEnd width fin k c)
      fun r => if whole then r.getD c else c := by
  induction k generalizing i c with
  | zero =>
    refine .pure (if_pos (.inl rfl)).symm ?_
    split <;> simp
  | succ k ih =>
    rw [fillTokens]
    refine .ite (fun full => ?_) fun room => ?_
    · refine .pure (tokensEnd_full full).symm ?_
      split <;> simp
    · refine .note_bind rfl ((each i c).bind fun _ _ => ⟨by split <;> omega, ?_⟩)
      rw [tokensEnd_step (Nat.le_of_not_lt room)]
      refine ih.mono (by split <;> omega) fun r hr => ⟨hr, ?_⟩
      cases whole with
      | false => simp
      | true =>
        cases r with
        | none => simp
        | some e => simp

end Tokens

end Emproto
