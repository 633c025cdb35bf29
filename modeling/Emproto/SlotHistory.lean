import Emproto.SlotRuns

/-! Histories of stores into a slot table. A used slot keeps its key for good, keys get their
slots in the order in which they come first, and a history that is stored once more changes
nothing. -/

namespace Emproto.SlotTable
variable {κ ν : Type} [DecidableEq κ] {free : κ} {t : SlotTable κ ν} {k k' : κ} {v : ν} {i j : Nat}

/-! What stores leave alone. -/

theorem key_put_used (used : t.key i ≠ free) : (t.put free k v).key i = t.key i := by
  cases hs : t.select free k with
  | none => rw [put_of_full hs]
  | some x =>
    rw [put_of_select hs, write_key]
    split_ifs with hx
    · subst hx
      exact ((key_of_select hs).resolve_right used).symm
    · rfl

theorem key_puts_used (used : t.key i ≠ free) (ops : List (κ × ν)) :
    (t.puts free ops).key i = t.key i := by
  induction ops generalizing t with
  | nil => rfl
  | cons o ops ih =>
    have step : (t.put free o.1 o.2).key i = t.key i := key_put_used used
    rw [puts_cons, ih (step ▸ used), step]

theorem val_put_shadowed (front : j < i) (same : t.key j = t.key i) (used : t.key i ≠ free) :
    (t.put free k v).val i = t.val i := by
  cases hs : t.select free k with
  | none => rw [put_of_full hs]
  | some x =>
    have other : i ≠ x := by
      rintro rfl
      have own := (key_of_select hs).resolve_right used
      rcases (select_eq_some hs).2 with found | ⟨-, found⟩
      · exact (slotOf_eq_some.mp found).2.2 j front (same.trans own)
      · exact used (slotOf_eq_some.mp found).2.1
    rw [put_of_select hs, write_val, if_neg other]

theorem val_puts_shadowed (front : j < i) (same : t.key j = t.key i) (used : t.key i ≠ free)
    (ops : List (κ × ν)) : (t.puts free ops).val i = t.val i := by
  induction ops generalizing t with
  | nil => rfl
  | cons o ops ih =>
    have step : (t.put free o.1 o.2).key i = t.key i := key_put_used used
    have front' : (t.put free o.1 o.2).key j = t.key j := key_put_used (same ▸ used)
    rw [puts_cons, ih (front'.trans (same.trans step.symm)) (step ▸ used),
      val_put_shadowed front same used]

theorem denote_puts_held {ops : List (κ × ν)} (held : (t.puts free ops).Holds k)
    (proper : k ≠ free) :
    (t.puts free ops).denote free k = (ops.reverse.lookup k).or (t.denote free k) := by
  induction ops using List.reverseRecOn with
  | nil => rfl
  | append_singleton ops o ih =>
    rw [puts_append, puts_cons, puts_nil] at held ⊢
    rw [List.reverse_append, List.reverse_singleton, List.singleton_append, List.lookup_cons]
    by_cases ho : k = o.1
    · subst ho
      have slot : ((t.puts free ops).select free o.1).isSome := by
        by_contra full
        rw [Option.not_isSome_iff_eq_none] at full
        rw [put_of_full full] at held
        have := isSome_select.mpr (.inl held : _ ∨ (t.puts free ops).Holds free)
        rw [full] at this
        cases this
      rw [denote_put_self slot proper, beq_self_eq_true]
      rfl
    · have before : (t.puts free ops).Holds k := by
        rwa [← isSome_slotOf, slotOf_put_of_ne ho proper, isSome_slotOf] at held
      rw [denote_put_of_ne ho, ih before, beq_false_of_ne ho]

theorem val_puts_used (distinct : t.Distinct free) (hi : i < t.cap) (used : t.key i ≠ free)
    (ops : List (κ × ν)) :
    (t.puts free ops).val i = (ops.reverse.lookup (t.key i)).getD (t.val i) := by
  have first {u : SlotTable κ ν} (hu : u.Distinct free) (hi : i < u.cap) (used : u.key i ≠ free) :
      u.denote free (u.key i) = some (u.val i) := by
    have found : u.slotOf (u.key i) = some i :=
      slotOf_eq_some.mpr ⟨hi, rfl, fun j hj same =>
        absurd (hu j (Nat.lt_trans hj hi) i hi same (same ▸ used)) (Nat.ne_of_lt hj)⟩
    rw [denote, if_neg used, found, Option.map_some]
  have key := key_puts_used used ops
  have after := first (puts_distinct distinct ops) (by rwa [puts_cap]) (key ▸ used)
  rw [key, denote_puts_of_holds ⟨i, hi, rfl⟩ used ops, first distinct hi used] at after
  cases found : ops.reverse.lookup (t.key i) with
  | none => simpa [found] using after.symm
  | some w => simpa [found] using after.symm

/-! Keys in the order in which they come first. -/

/-- The keys but the free one, each where it comes first. -/
def firstKeys (free : κ) (ks : List κ) : List κ := (ks.filter fun k => k ≠ free).eraseDups

theorem mem_firstKeys {ks : List κ} : k ∈ firstKeys free ks ↔ k ∈ ks ∧ k ≠ free := by
  simp [firstKeys, List.mem_eraseDups]

theorem firstKeys_concat (ks : List κ) (k : κ) :
    firstKeys free (ks ++ [k]) =
      if k = free ∨ k ∈ ks then firstKeys free ks else firstKeys free ks ++ [k] := by
  rw [firstKeys, List.filter_append, List.eraseDups_append]
  by_cases none : k = free
  · simp [none, firstKeys, List.removeAll]
  · by_cases known : k ∈ ks
    · simp [none, known, firstKeys, List.removeAll]
    · simp [none, known, firstKeys, List.removeAll, List.eraseDups_cons]

theorem foldl_addKey_start (cap : Nat) (ks : List κ) :
    ks.foldl (addKey free cap) [] = (firstKeys free ks).take cap := by
  induction ks using List.reverseRecOn with
  | nil => simp [firstKeys]
  | append_singleton ks k ih =>
    rw [List.foldl_append, List.foldl_cons, List.foldl_nil, ih, firstKeys_concat, addKey,
      List.length_take]
    by_cases old : k = free ∨ k ∈ ks
    · rw [if_pos old]
      refine if_pos ?_
      rcases old with none | known
      · exact .inl none
      · by_cases none : k = free
        · exact .inl none
        · by_cases full : cap ≤ (firstKeys free ks).length
          · exact .inr (.inr (le_min le_rfl full))
          · rw [List.take_of_length_le (Nat.le_of_not_le full)]
            exact .inr (.inl (mem_firstKeys.mpr ⟨known, none⟩))
    · rw [if_neg old]
      rw [not_or] at old
      have absent : k ∉ (firstKeys free ks).take cap := fun mem =>
        old.2 (mem_firstKeys.mp (List.mem_of_mem_take mem)).1
      by_cases full : cap ≤ (firstKeys free ks).length
      · rw [if_pos (.inr (.inr (le_min le_rfl full))), List.take_append_of_le_length full]
      · rw [if_neg (by simp only [old.1, absent, false_or]; omega), List.take_append,
          List.take_of_length_le (Nat.le_of_not_le full),
          List.take_of_length_le (by rw [List.length_singleton]; omega)]

/-- Stores into a vacant table list the keys first come, each with its last value. -/
theorem entries_puts_vacant (vacant : t.Compact free []) (ops : List (κ × ν)) :
    (t.puts free ops).entries free =
      ((firstKeys free (ops.map Prod.fst)).take t.cap).filterMap fun k =>
        (ops.reverse.lookup k).map fun v => (k, v) := by
  have compact := vacant.puts ops
  rw [foldl_addKey_start] at compact
  have stored {k : κ} (mem : k ∈ (firstKeys free (ops.map Prod.fst)).take t.cap) :
      k ≠ free ∧ ∃ v, ops.reverse.lookup k = some v := by
    obtain ⟨named, proper⟩ := mem_firstKeys.mp (List.mem_of_mem_take mem)
    obtain ⟨o, ho, rfl⟩ := List.mem_map.mp named
    refine ⟨proper, Option.ne_none_iff_exists'.mp fun none => ?_⟩
    have := List.lookup_eq_none_iff.mp none o (List.mem_reverse.mpr ho)
    simp at this
  rw [compact.entries_eq_iff]
  refine ⟨?_, fun e he => ?_⟩
  · rw [List.map_filterMap, List.filterMap_congr (g := some) fun k mem => ?_,
      List.filterMap_some]
    obtain ⟨-, v, found⟩ := stored mem
    rw [found]
    rfl
  · obtain ⟨k, mem, found⟩ := List.mem_filterMap.mp he
    obtain ⟨proper, v, last⟩ := stored mem
    rw [last, Option.map_some, Option.some_inj] at found
    subst found
    rw [denote_puts_held ((compact.holds_iff proper).mpr mem) proper, last, Option.some_or]

/-! A history stored once more. -/

/-- A store for `k` takes no free slot. -/
def Settled (free : κ) (t : SlotTable κ ν) (k : κ) : Prop :=
  k = free ∨ t.Holds k ∨ ¬ t.Holds free

theorem Settled.put_key (h : t.Settled free k) : (t.put free k v).key = t.key := by
  by_cases known : k = free ∨ t.Holds k
  · exact SlotTable.put_key known
  · rw [not_or] at known
    have full := (h.resolve_left known.1).resolve_left known.2
    have none : t.select free k = none := by
      rw [← Option.not_isSome_iff_eq_none, isSome_select, not_or]
      exact ⟨known.2, full⟩
    rw [put_of_full none]

omit [DecidableEq κ] in
theorem settled_congr {u : SlotTable κ ν} (cap : u.cap = t.cap) (key : u.key = t.key) :
    u.Settled free k ↔ t.Settled free k := by
  simp only [Settled, Holds, cap, key]

theorem settled_put_self : (t.put free k v).Settled free k := by
  by_cases known : t.Settled free k
  · exact (settled_congr put_cap known.put_key).mpr known
  · rw [Settled, not_or, not_or, not_not] at known
    have slot : (t.select free k).isSome := isSome_select.mpr (.inr known.2.2)
    exact .inr (.inl ((holds_put slot known.1).mpr (.inr rfl)))

theorem Settled.put (h : t.Settled free k') : (t.put free k v).Settled free k' := by
  rcases h with none | held | full
  · exact .inl none
  · exact (holds_put_of_holds held).elim (fun held => .inr (.inl held)) .inl
  · refine .inr (.inr ?_)
    rintro ⟨i, hi, hkey⟩
    rw [put_cap] at hi
    by_cases used : t.key i = free
    · exact full ⟨i, hi, used⟩
    · exact used ((key_put_used used).symm.trans hkey)

theorem Settled.puts (h : t.Settled free k) (ops : List (κ × ν)) :
    (t.puts free ops).Settled free k := by
  induction ops generalizing t with
  | nil => exact h
  | cons o ops ih => exact ih h.put

theorem settled_puts {ops : List (κ × ν)} {o : κ × ν} (mem : o ∈ ops) :
    (t.puts free ops).Settled free o.1 := by
  obtain ⟨before, after, rfl⟩ := List.append_of_mem mem
  rw [puts_append, puts_cons]
  exact settled_put_self.puts after

theorem puts_key_settled {ops : List (κ × ν)} (h : ∀ o ∈ ops, t.Settled free o.1) :
    (t.puts free ops).key = t.key := by
  induction ops generalizing t with
  | nil => rfl
  | cons o ops ih =>
    obtain ⟨first, rest⟩ := List.forall_mem_cons.mp h
    rw [puts_cons, ih fun o' ho' => (rest o' ho').put, first.put_key]

theorem puts_again_key (ops : List (κ × ν)) :
    ((t.puts free ops).puts free ops).key = (t.puts free ops).key :=
  puts_key_settled fun _ mem => settled_puts mem

theorem puts_again_val (ops : List (κ × ν)) (hi : i < t.cap)
    (used : (t.puts free ops).key i ≠ free) :
    ((t.puts free ops).puts free ops).val i = (t.puts free ops).val i := by
  set once := t.puts free ops
  have keys : (once.puts free ops).key = once.key := puts_again_key ops
  have cap : i < once.cap := by rwa [puts_cap]
  by_cases shadowed : ∃ j < i, once.key j = once.key i
  · obtain ⟨j, front, same⟩ := shadowed
    exact val_puts_shadowed front same used ops
  · push Not at shadowed
    have denoted {u : SlotTable κ ν} (hcap : u.cap = once.cap) (hkey : u.key = once.key) :
        u.denote free (once.key i) = some (u.val i) := by
      have found : u.slotOf (once.key i) = some i :=
        slotOf_eq_some.mpr ⟨hcap ▸ cap, congrFun hkey i, fun j hj => hkey ▸ shadowed j hj⟩
      rw [denote, if_neg used, found, Option.map_some]
    have held : once.Holds (once.key i) := ⟨i, cap, rfl⟩
    have first := denote_puts_held held used
    have again := denote_puts_of_holds held used ops
    rw [denoted (puts_cap ops) keys] at again
    rw [denoted rfl rfl] at first again
    cases last : ops.reverse.lookup (once.key i) with
    | none => simpa [last] using again
    | some v =>
      rw [last, Option.some_or] at first again
      exact Option.some.inj (again.trans first.symm)

end Emproto.SlotTable
