import Emproto.SlotTable
import Mathlib.Data.Finset.Card
import Mathlib.Data.Finset.Dedup

/-! Sequences of stores into a slot table: when each finds a slot, decided from
the initial table and the keys alone, and what the slots hold, in order, when the
table has been filled from the start. -/

namespace Emproto.SlotTable
variable {κ ν : Type} [DecidableEq κ] (free : κ) (t : SlotTable κ ν)

def puts (ops : List (κ × ν)) : SlotTable κ ν := ops.foldl (fun t o => t.put free o.1 o.2) t

def bindKey (f : κ → Option ν) (o : κ × ν) : κ → Option ν :=
  if o.1 = free then f else Function.update f o.1 (some o.2)

/-- Every store of the sequence finds a slot. -/
def Fits : SlotTable κ ν → List (κ × ν) → Prop
  | _, [] => True
  | t, o :: ops => (t.select free o.1).isSome ∧ Fits (t.put free o.1 o.2) ops

def frees : Nat := ((Finset.range t.cap).filter fun i => t.key i = free).card

def freesBelow (j : Nat) : Nat := ((Finset.range j).filter fun i => t.key i = free).card

/-- The keys among `ks` that need a slot of their own. -/
def fresh (ks : List κ) : Finset κ := ks.toFinset.filter fun k => k ≠ free ∧ ¬ t.Holds k

/-- After stores for `ks` a slot can be had for `k`: it is already held, or the
new keys have not used up the free slots. -/
def Room (ks : List κ) (k : κ) : Prop :=
  (k ≠ free ∧ (t.Holds k ∨ k ∈ ks)) ∨ (t.fresh free ks).card < t.frees free

variable {free t} {k k' : κ} {v : ν} {i : Nat}

@[simp] theorem puts_nil : t.puts free [] = t := rfl

@[simp] theorem puts_cons (o : κ × ν) (ops : List (κ × ν)) :
    t.puts free (o :: ops) = (t.put free o.1 o.2).puts free ops := rfl

theorem puts_append (ops ops' : List (κ × ν)) :
    t.puts free (ops ++ ops') = (t.puts free ops).puts free ops' := List.foldl_append

@[simp] theorem puts_cap (ops : List (κ × ν)) : (t.puts free ops).cap = t.cap := by
  induction ops generalizing t with
  | nil => rfl
  | cons o ops ih => rw [puts_cons, ih, put_cap]

theorem puts_distinct (h : t.Distinct free) (ops : List (κ × ν)) :
    (t.puts free ops).Distinct free := by
  induction ops generalizing t with
  | nil => exact h
  | cons o ops ih => exact ih (put_distinct h)

/-- A sequence of stores that all find a slot updates the map in order. -/
theorem denote_puts {ops : List (κ × ν)} (h : t.Fits free ops) :
    (t.puts free ops).denote free = ops.foldl (bindKey free) (t.denote free) := by
  induction ops generalizing t with
  | nil => rfl
  | cons o ops ih =>
    obtain ⟨slot, rest⟩ := h
    rw [puts_cons, ih rest, List.foldl_cons, bindKey]
    split_ifs with hk
    · rw [hk, denote_put_free]
    · rw [denote_put slot hk]

theorem holds_put (hs : (t.select free k).isSome) (hk' : k' ≠ free) :
    (t.put free k v).Holds k' ↔ t.Holds k' ∨ k' = k := by
  by_cases h : k' = k
  · subst h
    obtain ⟨i, hs⟩ := Option.isSome_iff_exists.mp hs
    refine iff_of_true (isSome_slotOf.mp ?_) (.inr rfl)
    rw [slotOf_put_self hs]
    rfl
  · rw [← isSome_slotOf, slotOf_put_of_ne h hk', isSome_slotOf]
    simp [h]

theorem freesBelow_first (h : t.slotOf free = some i) {j : Nat} (hj : j ≤ i) :
    t.freesBelow free j = 0 := by
  rw [freesBelow, Finset.card_eq_zero, Finset.filter_eq_empty_iff]
  intro x hx
  exact (slotOf_eq_some.mp h).2.2 x (Nat.lt_of_lt_of_le (Finset.mem_range.mp hx) hj)

theorem freesBelow_write (hi : t.key i = free) (hk : k ≠ free) {j : Nat} (hj : i < j) :
    (t.write i k v).freesBelow free j + 1 = t.freesBelow free j := by
  have taken : ((Finset.range j).filter fun x => (t.write i k v).key x = free) =
      ((Finset.range j).filter fun x => t.key x = free).erase i := by
    ext x
    simp only [Finset.mem_filter, Finset.mem_erase, write_key]
    split_ifs with hx <;> simp [hx, hk]
  rw [freesBelow, taken, Finset.card_erase_add_one (by simp [hi, hj])]
  rfl

theorem holds_free : t.Holds free ↔ 0 < t.frees free := by
  rw [frees, Finset.card_pos]
  apply Iff.intro
  · rintro ⟨i, hi, hkey⟩
    exact ⟨i, by simp [hi, hkey]⟩
  · rintro ⟨i, hi⟩
    rw [Finset.mem_filter, Finset.mem_range] at hi
    exact ⟨i, hi.1, hi.2⟩

theorem frees_put_held (h : t.Holds k) : (t.put free k v).frees free = t.frees free := by
  obtain ⟨i, hi⟩ := Option.isSome_iff_exists.mp (isSome_slotOf.mpr h)
  have hs : t.select free k = some i := by rw [select, hi, Option.some_or]
  rw [put_of_select hs, frees, frees]
  congr 1
  ext j
  simp only [Finset.mem_filter, write_key]
  split_ifs with hj
  · rw [hj, (slotOf_eq_some.mp hi).2.1]
    rfl
  · rfl

theorem frees_put_new (hs : (t.select free k).isSome) (hk : ¬ t.Holds k) :
    (t.put free k v).frees free + 1 = t.frees free := by
  obtain ⟨i, hs⟩ := Option.isSome_iff_exists.mp hs
  obtain ⟨hi, found | ⟨-, found⟩⟩ := select_eq_some hs
  · exact absurd (isSome_slotOf.mp (by rw [found]; rfl)) hk
  have hkey := (slotOf_eq_some.mp found).2.1
  have hfree : k ≠ free := by
    rintro rfl
    exact hk ⟨i, hi, hkey⟩
  rw [put_of_select hs]
  exact freesBelow_write hkey hfree hi

structure Reached (free : κ) (t₀ : SlotTable κ ν) (ks : List κ) (t : SlotTable κ ν) : Prop where
  holds : ∀ k ≠ free, t.Holds k ↔ t₀.Holds k ∨ k ∈ ks
  frees : t.frees free + (t₀.fresh free ks).card = t₀.frees free

theorem Reached.start : Reached free t [] t where
  holds k _ := by simp
  frees := by simp [fresh]

theorem Reached.isSome_select {t₀ : SlotTable κ ν} {ks : List κ} (h : Reached free t₀ ks t) :
    (t.select free k).isSome ↔ t₀.Room free ks k := by
  have count := h.frees
  have left : t.Holds free ↔ (t₀.fresh free ks).card < t₀.frees free := by
    rw [holds_free]
    omega
  rw [SlotTable.isSome_select, Room, left]
  by_cases hk : k = free
  · subst hk
    rw [left]
    simp
  · rw [h.holds k hk]
    simp [hk]

theorem Reached.put {t₀ : SlotTable κ ν} {ks : List κ} (h : Reached free t₀ ks t)
    (hs : (t.select free k).isSome) : Reached free t₀ (ks ++ [k]) (t.put free k v) where
  holds k' hk' := by
    rw [holds_put hs hk', h.holds k' hk', List.mem_append, List.mem_singleton, or_assoc]
  frees := by
    have count := h.frees
    by_cases held : t.Holds k
    · have same : t₀.fresh free (ks ++ [k]) = t₀.fresh free ks := by
        ext k'
        simp only [fresh, Finset.mem_filter, List.mem_toFinset, List.mem_append, List.mem_singleton]
        apply Iff.intro
        · rintro ⟨hk' | rfl, hfree, habsent⟩
          · exact ⟨hk', hfree, habsent⟩
          · rcases (h.holds k' hfree).mp held with h | h
            · exact absurd h habsent
            · exact ⟨h, hfree, habsent⟩
        · rintro ⟨hk', rest⟩
          exact ⟨.inl hk', rest⟩
      rw [frees_put_held held, same, count]
    · have hfree : k ≠ free := by
        rintro rfl
        rcases SlotTable.isSome_select.mp hs with h | h <;> exact held h
      have absent := mt (h.holds k hfree).mpr held
      push Not at absent
      have more : t₀.fresh free (ks ++ [k]) = insert k (t₀.fresh free ks) := by
        ext k'
        simp only [fresh, Finset.mem_insert, Finset.mem_filter, List.mem_toFinset, List.mem_append,
          List.mem_singleton]
        apply Iff.intro
        · rintro ⟨hk' | rfl, rest⟩
          · exact .inr ⟨hk', rest⟩
          · exact .inl rfl
        · rintro (rfl | ⟨hk', rest⟩)
          · exact ⟨.inr rfl, hfree, absent.1⟩
          · exact ⟨.inl hk', rest⟩
      have outside : k ∉ t₀.fresh free ks := by simp [fresh, absent.2]
      have step := frees_put_new (v := v) hs held
      rw [more, Finset.card_insert_of_notMem outside]
      omega

/-- All stores find a slot exactly if there is room for each key after those
before it. -/
theorem fits_iff (ops : List (κ × ν)) :
    t.Fits free ops ↔
      ∀ before o after, ops = before ++ o :: after → t.Room free (before.map Prod.fst) o.1 := by
  suffices ∀ t' ks, Reached free t ks t' → (t'.Fits free ops ↔
      ∀ before o after, ops = before ++ o :: after →
        t.Room free (ks ++ before.map Prod.fst) o.1) from this t [] .start
  induction ops with
  | nil => simp [Fits]
  | cons o ops ih =>
    intro t' ks reached
    rw [Fits]
    apply Iff.intro
    · rintro ⟨slot, rest⟩ before o' after split
      cases before with
      | nil =>
        obtain ⟨rfl, -⟩ := List.cons.inj split
        simpa using reached.isSome_select.mp slot
      | cons b before =>
        simp only [List.cons_append, List.cons.injEq] at split
        obtain ⟨rfl, tail⟩ := split
        simpa using (ih _ _ (reached.put slot)).mp rest before o' after tail
    · intro room
      have slot := reached.isSome_select.mpr (by simpa using room [] o ops rfl)
      refine ⟨slot, (ih _ _ (reached.put slot)).mpr fun before o' after split => ?_⟩
      simpa using room (o :: before) o' after (by rw [split]; rfl)

theorem holds_put_of_holds (h : t.Holds k') : (t.put free k v).Holds k' ∨ k' = free := by
  by_cases hk' : k' = free
  · exact .inr hk'
  · left
    cases hs : t.select free k with
    | none => rwa [put_of_full hs]
    | some i => exact (holds_put (by rw [hs]; rfl) hk').mpr (.inl h)

theorem denote_put_of_holds (h : t.Holds k') (hk' : k' ≠ free) :
    (t.put free k v).denote free k' = if k = k' then some v else t.denote free k' := by
  split_ifs with hk
  · subst hk
    exact denote_put_self (isSome_select.mpr (.inl h)) hk'
  · exact denote_put_of_ne (Ne.symm hk)

theorem holds_puts_of_holds (h : t.Holds k) (hk : k ≠ free) (ops : List (κ × ν)) :
    (t.puts free ops).Holds k := by
  induction ops generalizing t with
  | nil => exact h
  | cons o ops ih => exact ih ((holds_put_of_holds h).resolve_right hk)

theorem denote_puts_of_holds (h : t.Holds k) (hk : k ≠ free) (ops : List (κ × ν)) :
    (t.puts free ops).denote free k = (ops.reverse.lookup k).or (t.denote free k) := by
  induction ops using List.reverseRecOn with
  | nil => rfl
  | append_singleton ops o ih =>
    rw [puts_append, puts_cons, puts_nil,
      denote_put_of_holds (holds_puts_of_holds h hk ops) hk, ih, List.reverse_append,
      List.reverse_singleton, List.singleton_append, List.lookup_cons]
    by_cases ho : o.1 = k
    · simp [ho]
    · simp [ho, beq_false_of_ne (Ne.symm ho)]

/-- `k` stands before every free slot, so that a search for it meets none. -/
def Ahead (free : κ) (t : SlotTable κ ν) (k : κ) : Prop :=
  ∀ i < t.cap, t.key i = free → ∃ j < i, t.key j = k

/-- After stores for `ks` the key `k` stands before every free slot: there is none left, or `k`
is new among `ks`, or the new keys have taken those before a slot that holds `k`. -/
def AheadAfter (free : κ) (t : SlotTable κ ν) (ks : List κ) (k : κ) : Prop :=
  t.frees free ≤ (t.fresh free ks).card ∨ k ∈ t.fresh free ks ∨
    k ≠ free ∧ ∃ j < t.cap, t.key j = k ∧ t.freesBelow free j ≤ (t.fresh free ks).card

instance (ks : List κ) (k : κ) : Decidable (t.AheadAfter free ks k) :=
  inferInstanceAs (Decidable (_ ∨ _ ∨ _ ∧ ∃ j < t.cap, t.key j = k ∧
    t.freesBelow free j ≤ (t.fresh free ks).card))

theorem ahead_iff : t.Ahead free k ↔ t.AheadAfter free [] k := by
  have none : t.fresh free [] = ∅ := by simp [fresh]
  rw [AheadAfter, none, Finset.card_empty, Nat.le_zero]
  simp only [Finset.notMem_empty, false_or]
  apply Iff.intro
  · intro ahead
    by_cases left : t.Holds free
    · obtain ⟨i, first⟩ := Option.isSome_iff_exists.mp (isSome_slotOf.mpr left)
      obtain ⟨inside, hkey, before⟩ := slotOf_eq_some.mp first
      obtain ⟨j, hj, found⟩ := ahead i inside hkey
      refine .inr ⟨found ▸ before j hj, j, Nat.lt_trans hj inside, found, ?_⟩
      exact (freesBelow_first first (Nat.le_of_lt hj)).le
    · exact .inl (Nat.eq_zero_of_not_pos (mt holds_free.mpr left))
  · rintro (full | ⟨hk, j, -, found, below⟩) i inside hkey
    · exact absurd (holds_free.mp ⟨i, inside, hkey⟩) (by omega)
    · refine ⟨j, Nat.lt_of_not_le fun past => ?_, found⟩
      have other : i ≠ j := by
        rintro rfl
        exact hk (found.symm.trans hkey)
      rw [Nat.le_zero, freesBelow, Finset.card_eq_zero, Finset.filter_eq_empty_iff] at below
      exact below (Finset.mem_range.mpr (by omega)) hkey

theorem aheadAfter_congr {t' : SlotTable κ ν} (cap : t'.cap = t.cap) (key : t'.key = t.key)
    (ks : List κ) : t'.AheadAfter free ks k ↔ t.AheadAfter free ks k := by
  obtain ⟨_, _, _⟩ := t
  obtain ⟨_, _, _⟩ := t'
  cases cap
  cases key
  exact Iff.rfl

theorem put_key (known : k = free ∨ t.Holds k) : (t.put free k v).key = t.key := by
  cases hs : t.select free k with
  | none => rw [put_of_full hs]
  | some i =>
    have own : t.key i = k := by
      rcases key_of_select hs with own | hfree
      · exact own
      rcases known with rfl | held
      · exact hfree
      · rcases (select_eq_some hs).2 with found | ⟨absent, -⟩
        · exact (slotOf_eq_some.mp found).2.1
        · exact absurd held absent
    rw [put_of_select hs, write, ← own]
    exact Function.update_eq_self i t.key

theorem fresh_cons_known {ks : List κ} (known : k = free ∨ t.Holds k) :
    t.fresh free (k :: ks) = t.fresh free ks := by
  ext k'
  simp only [fresh, Finset.mem_filter, List.mem_toFinset, List.mem_cons]
  refine and_congr_left fun new => or_iff_right ?_
  rintro rfl
  exact known.elim new.1 new.2

theorem fresh_cons_new {ks : List κ} (hs : (t.select free k).isSome) (hfree : k ≠ free)
    (hk : ¬ t.Holds k) :
    t.fresh free (k :: ks) = insert k ((t.put free k v).fresh free ks) := by
  ext k'
  simp only [fresh, Finset.mem_filter, Finset.mem_insert, List.mem_toFinset, List.mem_cons]
  by_cases hk' : k' = k
  · subst hk'
    simp [hfree, hk]
  · simp only [hk', false_or]
    refine and_congr_right fun _ => and_congr_right fun proper => not_congr ?_
    rw [holds_put hs proper, or_iff_left hk']

theorem freesBelow_put_le {k₀ : κ} (hs : t.select free k₀ = some i)
    (first : t.slotOf free = some i) (hfree : k₀ ≠ free) (j n : Nat) :
    (t.put free k₀ v).freesBelow free j ≤ n ↔ t.freesBelow free j ≤ n + 1 := by
  rw [put_of_select hs]
  by_cases behind : i < j
  · have := freesBelow_write (v := v) (slotOf_eq_some.mp first).2.1 hfree behind
    omega
  · have none := freesBelow_first first (Nat.le_of_not_lt behind)
    have still : (t.write i k₀ v).freesBelow free j = t.freesBelow free j := by
      simp only [freesBelow, write_key]
      congr 1
      refine Finset.filter_congr fun x hx => ?_
      rw [if_neg (by rw [Finset.mem_range] at hx; omega)]
    omega

theorem aheadAfter_put_full {ks : List κ} {k₀ : κ} (hs : t.select free k₀ = none) :
    (t.put free k₀ v).AheadAfter free ks k ↔ t.AheadAfter free (k₀ :: ks) k := by
  have full : t.frees free = 0 := Nat.eq_zero_of_not_pos fun left => by
    have := isSome_select.mpr (.inr (holds_free.mpr left) : t.Holds k₀ ∨ t.Holds free)
    rw [hs] at this
    cases this
  rw [put_of_full hs, AheadAfter, AheadAfter, full]
  exact iff_of_true (.inl (Nat.zero_le _)) (.inl (Nat.zero_le _))

theorem aheadAfter_put_new {ks : List κ} {k₀ : κ} (hs : t.select free k₀ = some i)
    (hfree : k₀ ≠ free) (hk : ¬ t.Holds k₀) :
    (t.put free k₀ v).AheadAfter free ks k ↔ t.AheadAfter free (k₀ :: ks) k := by
  have first : t.slotOf free = some i := (select_eq_some hs).2.elim
    (fun found => absurd (isSome_slotOf.mp (by rw [found]; rfl)) hk) And.right
  have some : (t.select free k₀).isSome := by
    rw [hs]
    rfl
  have new : k₀ ∉ (t.put free k₀ v).fresh free ks := by simp [fresh, holds_put some hfree]
  have frees := frees_put_new (v := v) some hk
  rw [AheadAfter, AheadAfter, fresh_cons_new some hfree hk, Finset.card_insert_of_notMem new,
    Finset.mem_insert, put_cap]
  simp only [freesBelow_put_le hs first hfree]
  refine or_congr (by omega) ?_
  by_cases same : k = k₀
  · subst same
    refine iff_of_true (.inr ⟨hfree, i, (slotOf_eq_some.mp first).1, ?_, ?_⟩) (.inl (.inl rfl))
    · rw [put_of_select hs, write_key, if_pos rfl]
    · rw [freesBelow_first first le_rfl]
      exact Nat.zero_le _
  · rw [or_iff_right (b := k ∈ _) same]
    refine or_congr_right (and_congr_right fun proper => exists_congr fun j => ?_)
    rw [key_put_iff same proper]

theorem aheadAfter_put {ks : List κ} {k₀ : κ} :
    (t.put free k₀ v).AheadAfter free ks k ↔ t.AheadAfter free (k₀ :: ks) k := by
  by_cases known : k₀ = free ∨ t.Holds k₀
  · have keys : (t.put free k₀ v).key = t.key := put_key known
    rw [aheadAfter_congr put_cap keys, AheadAfter, AheadAfter, fresh_cons_known known]
  · cases hs : t.select free k₀ with
    | none => exact aheadAfter_put_full hs
    | some i => exact aheadAfter_put_new hs (fun h => known (.inl h)) fun h => known (.inr h)

/-- Where the stored keys leave `k` is decided by the initial table and the keys alone. -/
theorem ahead_puts_iff (ops : List (κ × ν)) :
    (t.puts free ops).Ahead free k ↔ t.AheadAfter free (ops.map Prod.fst) k := by
  induction ops generalizing t with
  | nil => exact ahead_iff
  | cons o ops ih => rw [puts_cons, ih, List.map_cons, aheadAfter_put]

def entries (free : κ) (t : SlotTable κ ν) : List (κ × ν) :=
  ((List.range t.cap).map fun i => (t.key i, t.val i)).filter fun e => e.1 ≠ free

/-- The keys `ks` occupy the first slots, in order, and the others are free. -/
structure Compact (free : κ) (t : SlotTable κ ν) (ks : List κ) : Prop where
  fits : ks.length ≤ t.cap
  used : ∀ i (h : i < ks.length), t.key i = ks[i]
  unused : ∀ i, ks.length ≤ i → i < t.cap → t.key i = free
  nodup : ks.Nodup
  proper : free ∉ ks

def addKey (free : κ) (cap : Nat) (ks : List κ) (k : κ) : List κ :=
  if k = free ∨ k ∈ ks ∨ cap ≤ ks.length then ks else ks ++ [k]

namespace Compact
variable {ks : List κ}

omit [DecidableEq κ] in
theorem key_ne_free (h : t.Compact free ks) (hi : i < ks.length) : t.key i ≠ free := by
  rw [h.used i hi]
  exact fun hfree => h.proper (hfree ▸ List.getElem_mem hi)

omit [DecidableEq κ] in
theorem holds_iff (h : t.Compact free ks) (hk : k ≠ free) : t.Holds k ↔ k ∈ ks := by
  apply Iff.intro
  · rintro ⟨i, hi, rfl⟩
    by_cases inside : i < ks.length
    · rw [h.used i inside]
      exact List.getElem_mem inside
    · exact absurd (h.unused i (Nat.le_of_not_lt inside) hi) hk
  · intro hmem
    obtain ⟨i, hi, rfl⟩ := List.getElem_of_mem hmem
    exact ⟨i, Nat.lt_of_lt_of_le hi h.fits, h.used i hi⟩

theorem slotOf (h : t.Compact free ks) (hi : i < ks.length) : t.slotOf (ks[i]) = some i := by
  rw [slotOf_eq_some]
  refine ⟨Nat.lt_of_lt_of_le hi h.fits, h.used i hi, fun j hj hkey => ?_⟩
  rw [h.used j (Nat.lt_trans hj hi)] at hkey
  have := (h.nodup.getElem_inj_iff).mp hkey
  omega

theorem slotOf_free (h : t.Compact free ks) (room : ks.length < t.cap) :
    t.slotOf free = some ks.length := by
  rw [slotOf_eq_some]
  exact ⟨room, h.unused _ le_rfl room, fun j hj => h.key_ne_free hj⟩

theorem denote (h : t.Compact free ks) (hi : i < ks.length) :
    t.denote free (ks[i]) = some (t.val i) := by
  have hne : ks[i] ≠ free := fun hfree => h.proper (hfree ▸ List.getElem_mem hi)
  rw [SlotTable.denote, if_neg hne, h.slotOf hi, Option.map_some]

theorem put (h : t.Compact free ks) : (t.put free k v).Compact free (addKey free t.cap ks k) := by
  unfold addKey
  split_ifs with same
  · -- the key of the written slot, if any, does not change
    have keys : ∀ j < t.cap, (t.put free k v).key j = t.key j := by
      intro j hj
      cases hs : t.select free k with
      | none => rw [put_of_full hs]
      | some i =>
        rw [put_of_select hs, write_key]
        split_ifs with hji
        · subst hji
          rcases (select_eq_some hs).2 with found | ⟨absent, found⟩
          · exact (slotOf_eq_some.mp found).2.1.symm
          · have hkey := (slotOf_eq_some.mp found).2.1
            rcases same with rfl | hmem | full
            · exact hkey.symm
            · have hne : k ≠ free := fun hfree => h.proper (hfree ▸ hmem)
              exact absurd ((h.holds_iff hne).mpr hmem) absent
            · exact absurd hkey (h.key_ne_free (Nat.lt_of_lt_of_le hj full))
        · rfl
    exact {
      fits := by rw [put_cap]; exact h.fits
      used := fun i hi => by rw [keys i (Nat.lt_of_lt_of_le hi h.fits)]; exact h.used i hi
      unused := fun i hi hcap => by rw [put_cap] at hcap; rw [keys i hcap]; exact h.unused i hi hcap
      nodup := h.nodup
      proper := h.proper }
  · push Not at same
    obtain ⟨hne, hmem, room⟩ := same
    have absent : t.slotOf k = none := slotOf_eq_none.mpr (mt (h.holds_iff hne).mp hmem)
    have hs : t.select free k = some ks.length := by
      rw [select, absent, h.slotOf_free room, Option.none_or]
    rw [put_of_select hs]
    exact {
      fits := by
        rw [List.length_append, List.length_singleton]
        exact room
      used := fun i hi => by
        rw [write_key]
        split_ifs with hlast
        · simp [hlast]
        · have inside : i < ks.length := by
            rw [List.length_append, List.length_singleton] at hi
            omega
          rw [List.getElem_append_left inside]
          exact h.used i inside
      unused := fun i hi hcap => by
        rw [List.length_append, List.length_singleton] at hi
        rw [write_key, if_neg (by omega)]
        exact h.unused i (by omega) hcap
      nodup := List.nodup_append.mpr ⟨h.nodup, List.nodup_singleton k, fun a ha b hb => by
        rw [List.mem_singleton.mp hb]
        exact fun hab => hmem (hab ▸ ha)⟩
      proper := by simp [h.proper, Ne.symm hne] }

theorem puts (h : t.Compact free ks) (ops : List (κ × ν)) :
    (t.puts free ops).Compact free ((ops.map Prod.fst).foldl (addKey free t.cap) ks) := by
  induction ops generalizing t ks with
  | nil => exact h
  | cons o ops ih =>
    have := ih (h.put (k := o.1) (v := o.2))
    rwa [put_cap] at this

theorem entries_eq_iff (h : t.Compact free ks) (es : List (κ × ν)) :
    t.entries free = es ↔ es.map Prod.fst = ks ∧ ∀ e ∈ es, t.denote free e.1 = some e.2 := by
  have listed : t.entries free = (List.range ks.length).map fun i => (t.key i, t.val i) := by
    obtain ⟨d, hd⟩ := Nat.exists_eq_add_of_le h.fits
    rw [entries, hd, List.range_add, List.map_append, List.filter_append, List.map_map]
    have front : ∀ e ∈ (List.range ks.length).map fun i => (t.key i, t.val i), e.1 ≠ free := by
      intro e he
      obtain ⟨i, hi, rfl⟩ := List.mem_map.mp he
      exact h.key_ne_free (List.mem_range.mp hi)
    have back : ∀ e ∈ (List.range d).map ((fun i => (t.key i, t.val i)) ∘ fun x => ks.length + x),
        ¬ e.1 ≠ free := by
      intro e he
      obtain ⟨i, hi, rfl⟩ := List.mem_map.mp he
      have inside : ks.length + i < t.cap := by
        have := List.mem_range.mp hi
        omega
      exact not_not.mpr (h.unused _ (Nat.le_add_right _ _) inside)
    rw [List.filter_eq_self.mpr (by simpa using front),
      List.filter_eq_nil_iff.mpr (by simpa using back), List.append_nil]
  rw [listed]
  apply Iff.intro
  · intro same
    subst same
    refine ⟨?_, fun e he => ?_⟩
    · rw [List.map_map]
      refine List.ext_getElem (by simp) fun i hi _ => ?_
      simp only [List.getElem_map, List.getElem_range, Function.comp_apply]
      exact h.used i _
    · obtain ⟨i, hi, rfl⟩ := List.mem_map.mp he
      have hi := List.mem_range.mp hi
      rw [h.used i hi]
      exact h.denote hi
  · rintro ⟨keys, values⟩
    subst keys
    refine List.ext_getElem (by simp) fun i hi hi' => ?_
    rw [List.getElem_map, List.getElem_range]
    have inside : i < (es.map Prod.fst).length := by simpa using hi'
    have key := h.used i inside
    have val := h.denote inside
    rw [List.getElem_map] at key val
    rw [values _ (List.getElem_mem hi'), Option.some_inj] at val
    rw [key, ← val]

end Compact

variable (free) in
theorem length_foldl_addKey (cap : Nat) (ks new : List κ) :
    ks.length ≤ (new.foldl (addKey free cap) ks).length := by
  induction new generalizing ks with
  | nil => exact le_rfl
  | cons k new ih =>
    refine Nat.le_trans ?_ (ih _)
    unfold addKey
    split_ifs <;> simp

variable (free) in
theorem foldl_addKey_eq (cap : Nat) (ks new : List κ) :
    new.foldl (addKey free cap) ks = ks ↔
      ∀ k ∈ new, k ≠ free → k ∉ ks → cap ≤ ks.length := by
  induction new with
  | nil => simp
  | cons k new ih =>
    rw [List.foldl_cons, List.forall_mem_cons, ← ih]
    by_cases same : k = free ∨ k ∈ ks ∨ cap ≤ ks.length
    · rw [addKey, if_pos same]
      refine (and_iff_right fun hk hmem => ?_).symm
      exact (same.resolve_left hk).resolve_left hmem
    · rw [addKey, if_neg same]
      push Not at same
      refine iff_of_false (fun h => ?_) fun h => ?_
      · have := length_foldl_addKey free cap (ks ++ [k]) new
        rw [h, List.length_append, List.length_singleton] at this
        omega
      · have := h.1 same.1 same.2.1
        omega

theorem entries_puts_new (h : t.Compact free []) {es : List (κ × ν)}
    (nodup : (es.map Prod.fst).Nodup) (proper : free ∉ es.map Prod.fst)
    (fits : es.length ≤ t.cap) :
    (t.puts free es).Compact free (es.map Prod.fst) ∧ (t.puts free es).entries free = es := by
  induction es using List.reverseRecOn with
  | nil => exact ⟨h, (h.entries_eq_iff []).mpr (by simp)⟩
  | append_singleton es o ih =>
    simp only [List.map_append, List.map_cons, List.map_nil, List.nodup_append,
      List.mem_append, not_or, List.length_append, List.length_singleton,
      List.mem_singleton] at nodup proper fits
    obtain ⟨compact, listed⟩ := ih nodup.1 proper.1 (by omega)
    have absent : o.1 ∉ es.map Prod.fst := fun hmem => nodup.2.2 _ hmem _ rfl rfl
    have step := compact.put (k := o.1) (v := o.2)
    have room : ¬ (o.1 = free ∨ o.1 ∈ es.map Prod.fst ∨
        (t.puts free es).cap ≤ (es.map Prod.fst).length) := by
      rw [puts_cap, List.length_map]
      push Not
      exact ⟨Ne.symm proper.2, absent, by omega⟩
    rw [addKey, if_neg room] at step
    rw [puts_append, puts_cons, puts_nil, List.map_append, List.map_singleton]
    refine ⟨step, (step.entries_eq_iff _).mpr ⟨by simp, fun e he => ?_⟩⟩
    rcases List.mem_append.mp he with he | he
    · have other : e.1 ≠ o.1 := nodup.2.2 _ (List.mem_map_of_mem he) _ rfl
      rw [denote_put_of_ne other]
      exact ((compact.entries_eq_iff es).mp listed).2 e he
    · rw [List.mem_singleton.mp he]
      refine denote_put_self (isSome_select.mpr (.inr ?_)) (Ne.symm proper.2)
      refine isSome_slotOf.mp ?_
      rw [compact.slotOf_free (by rw [puts_cap, List.length_map]; omega)]
      rfl

/-- Further stores leave the entries as they are exactly if no new key comes up
while there is a free slot and the last store for each listed key repeats its
value. -/
theorem entries_puts_iff {es : List (κ × ν)} (h : t.Compact free (es.map Prod.fst))
    (listed : t.entries free = es) (ops : List (κ × ν)) :
    (t.puts free ops).entries free = es ↔
      (∀ o ∈ ops, o.1 ≠ free → o.1 ∉ es.map Prod.fst → t.cap ≤ es.length) ∧
        ∀ e ∈ es, ∀ v, ops.reverse.lookup e.1 = some v → v = e.2 := by
  have same := foldl_addKey_eq free t.cap (es.map Prod.fst) (ops.map Prod.fst)
  rw [List.forall_mem_map, List.length_map] at same
  rw [(h.puts ops).entries_eq_iff, eq_comm, same]
  refine and_congr_right fun _ => forall₂_congr fun e he => ?_
  have hne : e.1 ≠ free := fun hfree => h.proper (hfree ▸ List.mem_map_of_mem he)
  have held := (h.holds_iff hne).mpr (List.mem_map_of_mem he)
  rw [denote_puts_of_holds held hne, ((h.entries_eq_iff es).mp listed).2 e he]
  cases ops.reverse.lookup e.1 with
  | none => simp
  | some v => simp

end Emproto.SlotTable
