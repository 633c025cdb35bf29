import Emproto.UeReportRoundTrip

/-! The number of UEs that the report parser hands out. The handler of a token starts the
count anew, so that the number left at the end is what the last token counted: one, or
none. -/

namespace Emproto

namespace SlotTable
variable {κ ν : Type} {free : κ} {t : SlotTable κ ν} {ks : List κ} {k : κ}

theorem Compact.ahead_iff_mem (h : t.Compact free ks) (room : ks.length < t.cap) :
    t.Ahead free k ↔ k ∈ ks := by
  apply Iff.intro
  · intro ahead
    obtain ⟨j, hj, hkey⟩ := ahead ks.length room (h.unused _ le_rfl room)
    rw [← hkey, h.used j hj]
    exact List.getElem_mem hj
  · intro mem i hi hfree
    obtain ⟨j, hj, rfl⟩ := List.getElem_of_mem mem
    refine ⟨j, Nat.lt_of_lt_of_le hj (Nat.le_of_not_lt fun used => ?_), h.used j hj⟩
    exact h.key_ne_free used hfree

theorem addKey_distinct [DecidableEq κ] {cap : Nat} (nodup : ks.Nodup)
    (room : k ≠ free → (insert k ks.toFinset).card ≤ cap) :
    (addKey free cap ks k).Nodup ∧
      (addKey free cap ks k).toFinset = if k = free then ks.toFinset else insert k ks.toFinset := by
  by_cases none : k = free
  · rw [addKey, if_pos (.inl none), if_pos none]
    exact ⟨nodup, rfl⟩
  rw [if_neg none]
  by_cases known : k ∈ ks
  · rw [addKey, if_pos (.inr (.inl known)), Finset.insert_eq_of_mem (List.mem_toFinset.mpr known)]
    exact ⟨nodup, rfl⟩
  · have outside : k ∉ ks.toFinset := mt List.mem_toFinset.mp known
    have left := room none
    rw [Finset.card_insert_of_notMem outside, List.toFinset_card_of_nodup nodup] at left
    have new : ¬ (k = free ∨ k ∈ ks ∨ cap ≤ ks.length) := by
      push Not
      exact ⟨none, known, by omega⟩
    rw [addKey, if_neg new]
    refine ⟨nodup.append (List.nodup_singleton k) ?_, ?_⟩
    · exact List.disjoint_singleton.mpr known
    · rw [List.toFinset_append, Finset.union_comm]
      rfl

theorem toFinset_append_erase [DecidableEq κ] (new : List κ) (k : κ) :
    (new ++ [k]).toFinset.erase free =
      if k = free then new.toFinset.erase free else insert k (new.toFinset.erase free) := by
  ext x
  by_cases none : k = free
  · subst none
    simp only [Finset.mem_erase, List.mem_toFinset, List.mem_append, List.mem_singleton, if_true]
    tauto
  · simp only [Finset.mem_erase, Finset.mem_insert, List.mem_toFinset, List.mem_append,
      List.mem_singleton, if_neg none]
    apply Iff.intro
    · rintro ⟨hx, mem | rfl⟩
      · exact .inr ⟨hx, mem⟩
      · exact .inl rfl
    · rintro (rfl | ⟨hx, mem⟩)
      · exact ⟨none, .inr rfl⟩
      · exact ⟨hx, .inl mem⟩

theorem foldl_addKey_distinct [DecidableEq κ] {cap : Nat} (new : List κ)
    (room : (new.toFinset.erase free).card ≤ cap) :
    (new.foldl (addKey free cap) []).Nodup ∧
      (new.foldl (addKey free cap) []).toFinset = new.toFinset.erase free := by
  induction new using List.reverseRecOn with
  | nil => exact ⟨List.nodup_nil, rfl⟩
  | append_singleton new k ih =>
    rw [toFinset_append_erase] at room ⊢
    have before : (new.toFinset.erase free).card ≤ cap := by
      refine Nat.le_trans (Finset.card_le_card ?_) room
      split_ifs
      · exact Finset.Subset.refl _
      · exact Finset.subset_insert _ _
    obtain ⟨nodup, same⟩ := ih before
    rw [List.foldl_append, List.foldl_cons, List.foldl_nil, ← same]
    refine addKey_distinct nodup fun proper => ?_
    rwa [if_neg proper, ← same] at room

end SlotTable

/-! What one token counts. -/

section Count
variable {m : Mem} {c : Nat} {maxUes : UInt32}

theorem pickSlot_one (ues : Int → EpUeDetails) (rnti : UInt16) (k i : Nat) :
    (pickSlot ues rnti k i (-1) 0).2 = 0 ∨ (pickSlot ues rnti k i (-1) 0).2 = 1 := by
  induction k generalizing i with
  | zero => exact .inl rfl
  | succ k ih =>
    rw [pickSlot]
    by_cases free : (ues i).rnti = 0
    · simp only [free, beq_self_eq_true, Bool.and_true, Int.reduceNeg, Int.reduceLT, decide_true,
        if_true]
      right
      split_ifs
      · rfl
      · exact pickSlot_picked ues rnti k (i + 1) (Int.natCast_nonneg i) _
    · have other : ((ues i).rnti == 0) = false := beq_eq_false_iff_ne.mpr free
      simp only [other, Bool.and_false, Bool.false_eq_true, if_false]
      split_ifs
      · exact .inl rfl
      · exact ih (i + 1)

theorem uerepStep_count {ks : List UInt16} (token : IsUeToken m c)
    (s : (Int → EpUeDetails) × UInt32) (compact : (ueTable maxUes.toNat s.1).Compact 0 ks)
    (room : ks.length < maxUes.toNat) :
    (uerepStep m maxUes c s).2 = if tokenRnti m c ∈ ks then 0 else 1 := by
  have counted : (uerepStep m maxUes c s).2 =
      (pickSlot s.1 (tokenRnti m c) maxUes.toNat 0 (-1) 0).2 := by rw [uerepStep, if_pos token]
  have none := pickSlot_uncounted_iff s.1 (tokenRnti m c) maxUes.toNat
  rw [compact.ahead_iff_mem room] at none
  rw [counted]
  split_ifs with known
  · exact none.mpr known
  · exact (pickSlot_one s.1 (tokenRnti m c) maxUes.toNat 0).resolve_left (mt none.mp known)

end Count

def reportRntis (m : Mem) (c : Nat) (ts : List Token) : List UInt16 :=
  (bindings m (starts c ts)).map Prod.fst

def distinctUes (rntis : List UInt16) : Nat := (rntis.toFinset.erase 0).card

section Report
variable {m : Mem} {c : Nat} {maxUes : UInt32} {ts : List Token} {last : Token}

theorem reportRntis_append (us : List Token) :
    reportRntis m c (ts ++ us) =
      reportRntis m c ts ++ reportRntis m (c + (encode ts).length) us := by
  rw [reportRntis, starts_append, bindings_append, List.map_append]
  rfl

theorem reportRntis_token (h : m.Holds c last.bytes) :
    reportRntis m c [last] =
      if last.type = EpTLVType.ueRepId.code then [tokenRnti m c] else [] := by
  have type := Token.type_of_holds h
  by_cases ue : last.type = EpTLVType.ueRepId.code
  · rw [reportRntis, starts, starts, bindings_token [] (type.trans ue), if_pos ue]
    rfl
  · rw [reportRntis, starts, starts, bindings_other [] fun token => ue (type.symm.trans token),
      if_neg ue]
    rfl

theorem distinctUes_mono {rs rs' : List UInt16} (sub : rs ⊆ rs') :
    distinctUes rs ≤ distinctUes rs' := by
  refine Finset.card_le_card (Finset.erase_subset_erase 0 fun x hx => ?_)
  rw [List.mem_toFinset] at hx ⊢
  exact sub hx

theorem distinctUes_pos {rs : List UInt16} {r : UInt16} (mem : r ∈ rs) (proper : r ≠ 0) :
    0 < distinctUes rs :=
  Finset.card_pos.mpr ⟨r, Finset.mem_erase.mpr ⟨proper, List.mem_toFinset.mpr mem⟩⟩

/-- A token of a UE counts one or none, which is the number of all if it is the first one of
the only UE. -/
theorem lastCount_iff (rs : List UInt16) (r : UInt16) :
    (if r ≠ 0 ∧ r ∈ rs then (0 : UInt32) else 1).toNat = distinctUes (rs ++ [r]) ↔
      distinctUes (rs ++ [r]) = 1 ∧ (r = 0 ∨ r ∉ rs) := by
  by_cases known : r ≠ 0 ∧ r ∈ rs
  · have some := distinctUes_pos (List.mem_append_left [r] known.2) known.1
    rw [if_pos known]
    refine iff_of_false (fun none => ?_) fun h => ?_
    · exact absurd none (Nat.ne_of_lt some)
    · exact h.2.elim known.1 fun new => new known.2
  · rw [if_neg known]
    rw [not_and_or, not_not] at known
    exact ⟨fun one => ⟨one.symm, known⟩, fun h => h.1.symm⟩

theorem reportKeys_distinct (room : distinctUes (reportRntis m c ts) ≤ maxUes.toNat) :
    ((reportRntis m c ts).foldl (SlotTable.addKey 0 maxUes.toNat) []).Nodup ∧
      ((reportRntis m c ts).foldl (SlotTable.addKey 0 maxUes.toNat) []).toFinset =
        (reportRntis m c ts).toFinset.erase 0 :=
  SlotTable.foldl_addKey_distinct (reportRntis m c ts) room

theorem reportKeys_length (room : distinctUes (reportRntis m c ts) ≤ maxUes.toNat) :
    ((reportRntis m c ts).foldl (SlotTable.addKey 0 maxUes.toNat) []).length =
      distinctUes (reportRntis m c ts) := by
  obtain ⟨nodup, same⟩ := reportKeys_distinct room
  rw [← List.toFinset_card_of_nodup nodup, same]
  rfl

theorem compact_runSteps {ues : Int → EpUeDetails} (nofUes : UInt32)
    (vacant : ∀ i < maxUes.toNat, (ues (i : Nat)).rnti = 0) :
    (ueTable maxUes.toNat (runSteps (uerepStep m maxUes) (starts c ts) (ues, nofUes)).1).Compact 0
      ((reportRntis m c ts).foldl (SlotTable.addKey 0 maxUes.toNat) []) := by
  rw [ueTable_runSteps]
  exact (compact_vacant vacant).puts (bindings m (starts c ts))

theorem occupied_length {ues : Int → EpUeDetails} {ks : List UInt16}
    (compact : (ueTable maxUes.toNat ues).Compact 0 ks) :
    (occupied maxUes.toNat ues).length = ks.length := by
  have keys := ((compact.entries_eq_iff _).mp rfl).1
  rw [← occupied_binding] at keys
  rw [← keys, List.length_map, List.length_map]

theorem runSteps_count {ues : Int → EpUeDetails} (nofUes : UInt32)
    (vacant : ∀ i < maxUes.toNat, (ues (i : Nat)).rnti = 0)
    (held : m.Holds c (encode (ts ++ [last])))
    (room : distinctUes (reportRntis m c ts) < maxUes.toNat) :
    (runSteps (uerepStep m maxUes) (starts c (ts ++ [last])) (ues, nofUes)).2 =
      if last.type = EpTLVType.ueRepId.code then
        if tokenRnti m (c + (encode ts).length) ≠ 0 ∧
          tokenRnti m (c + (encode ts).length) ∈ reportRntis m c ts then 0 else 1
      else 0 := by
  have token := Token.type_of_holds (holds_encode_concat.mp held).2
  rw [runSteps_starts_concat]
  by_cases ue : last.type = EpTLVType.ueRepId.code
  · obtain ⟨nodup, same⟩ := reportKeys_distinct (le_of_lt room)
    have length := reportKeys_length (le_of_lt room)
    rw [uerepStep_count (token.trans ue) _ (compact_runSteps nofUes vacant) (length ▸ room),
      if_pos ue]
    refine if_congr ?_ rfl rfl
    rw [← List.mem_toFinset, same, Finset.mem_erase, List.mem_toFinset]
  · rw [uerepStep_other m maxUes _ _ fun h => ue (token.symm.trans h), if_neg ue]

end Report

/-- The count that is left after the tokens `ts` is the number of UEs they name: there is no
token and nothing was counted before, or the last token is none of a UE and the others are
none either, or it is the first one of the only UE, or it repeats the RNTI 0. -/
def CountsAll (nofUes : UInt32) (m : Mem) (b : Nat) (ts : List Token) : Prop :=
  match ts.getLast? with
  | none => nofUes = 0
  | some last =>
    if last.type = EpTLVType.ueRepId.code then
      distinctUes (reportRntis m b ts) = 1 ∧ ∃ r ∈ (reportRntis m b ts).getLast?,
        r = 0 ∨ r ∉ (reportRntis m b ts).dropLast
    else distinctUes (reportRntis m b ts) = 0

/-- A report that leaves a slot of an empty table free fills as many slots as it names UEs.
The number that the parser hands out is theirs exactly if `CountsAll`. -/
theorem ueReport_counted_iff (host : ByteOrder) (m : Mem) (b : Nat) (size nofUes maxUes : UInt32)
    (ues : Int → EpUeDetails) (ts : List Token) (held : m.Holds b (encode ts))
    (hsize : size.toNat = (encode ts).length)
    (vacant : ∀ i < maxUes.toNat, (ues (i : Nat)).rnti = 0)
    (room : distinctUes (reportRntis m b ts) < maxUes.toNat) :
    ∃ ues' n, (eppUerepRep host (some b) size (some nofUes) maxUes (some ues)).result m =
        some (epSuccess, some ues', some n) ∧
      (occupied maxUes.toNat ues').length = distinctUes (reportRntis m b ts) ∧
      (n.toNat = distinctUes (reportRntis m b ts) ↔ CountsAll nofUes m b ts) := by
  have walked : (m.walker false (b + size.toNat)).walk b = starts b ts :=
    walk_encode_all held (by omega)
  refine ⟨_, _, by rw [Code.result_of m (run_eppUerepRep host m b size nofUes maxUes ues), walked],
    ?_, ?_⟩
  · rw [occupied_length (compact_runSteps nofUes vacant), reportKeys_length (le_of_lt room)]
  rcases List.eq_nil_or_concat' ts with rfl | ⟨init, last, rfl⟩
  · exact UInt32.toNat_inj (b := 0)
  have all : reportRntis m b (init ++ [last]) =
      reportRntis m b init ++ reportRntis m (b + (encode init).length) [last] :=
    reportRntis_append [last]
  have before : distinctUes (reportRntis m b init) < maxUes.toNat :=
    lt_of_le_of_lt (distinctUes_mono (all ▸ List.subset_append_left _ _)) room
  rw [reportRntis_token (holds_encode_concat.mp held).2] at all
  rw [runSteps_count nofUes vacant held before, CountsAll, List.getLast?_concat]
  by_cases ue : last.type = EpTLVType.ueRepId.code
  · rw [if_pos ue] at all
    simp only [ue, if_true]
    rw [all, List.getLast?_concat, List.dropLast_concat]
    simp only [Option.mem_some_iff, exists_eq_left']
    exact lastCount_iff _ _
  · simp only [ue, if_false]
    exact eq_comm

def vacantUes : Int → EpUeDetails := fun _ => ⟨0, 0, 0, 0, 0⟩

def reportOfOne : List Token := [⟨0x7777, [1], by decide⟩, ueToken ⟨1, 1, 2, 3, 0⟩]

theorem ueReport_counted_iff_one :
    (Mem.ofBytes (encode reportOfOne)).Holds 0 (encode reportOfOne) ∧
      (28 : UInt32).toNat = (encode reportOfOne).length ∧
      (∀ i < (4 : UInt32).toNat, (vacantUes (i : Nat)).rnti = 0) ∧
      distinctUes (reportRntis (Mem.ofBytes (encode reportOfOne)) 0 reportOfOne) < 4 ∧
      ∃ ues' n, (eppUerepRep .little (some 0) 28 (some 9) 4 (some vacantUes)).result
            (Mem.ofBytes (encode reportOfOne)) = some (epSuccess, some ues', some n) ∧
        (occupied 4 ues').length =
          distinctUes (reportRntis (Mem.ofBytes (encode reportOfOne)) 0 reportOfOne) ∧
        (n.toNat = distinctUes (reportRntis (Mem.ofBytes (encode reportOfOne)) 0 reportOfOne) ↔
          CountsAll 9 (Mem.ofBytes (encode reportOfOne)) 0 reportOfOne) := by
  have held : (Mem.ofBytes (encode reportOfOne)).Holds 0 (encode reportOfOne) := by
    unfold Mem.Holds
    decide
  have room : distinctUes (reportRntis (Mem.ofBytes (encode reportOfOne)) 0 reportOfOne) < 4 := by
    decide +kernel
  exact ⟨held, by decide, fun _ _ => rfl, room, ueReport_counted_iff .little _ 0 28 9 4 vacantUes
    reportOfOne held (by decide) (fun _ _ => rfl) room⟩

def reportOfTwo : List Token := [ueToken ⟨1, 1, 2, 3, 0⟩, ueToken ⟨1, 2, 2, 3, 0⟩]

/-- Both are in the table afterwards, and one is counted. -/
theorem reportOfTwo_miscounted :
    (Mem.ofBytes (encode reportOfTwo)).Holds 0 (encode reportOfTwo) ∧
      (46 : UInt32).toNat = (encode reportOfTwo).length ∧
      distinctUes (reportRntis (Mem.ofBytes (encode reportOfTwo)) 0 reportOfTwo) = 2 ∧
      ∃ ues', (eppUerepRep .little (some 0) 46 (some 0) 4 (some vacantUes)).result
            (Mem.ofBytes (encode reportOfTwo)) = some (epSuccess, some ues', some 1) ∧
        (occupied 4 ues').length = 2 := by
  have held : (Mem.ofBytes (encode reportOfTwo)).Holds 0 (encode reportOfTwo) := by
    unfold Mem.Holds
    decide
  refine ⟨held, by decide, by decide +kernel, _,
    Code.result_of _ (run_eppUerepRep .little _ 0 46 0 4 vacantUes), ?_⟩
  decide +kernel

end Emproto
