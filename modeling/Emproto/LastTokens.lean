import Emproto.Transparency

/-! Two parsers to which the end of a body matters. The report parser counts anew at each
token, so the count is that of the last one; the capabilities parser stops before a token
that ends the body. An unknown token behind all others shows in both. -/

namespace Emproto

section Insertion
variable {known : Known} {width : Nat} (ins : Insertion known width)

theorem holds_image (bs : List UInt8) : (Mem.patch (fun _ => 0) (chunk 0 bs)).Holds 0 bs :=
  Mem.holds_patch_chunk _ 0 bs

theorem Insertion.transparent_iff {ρ : Type} {parse : Mem → Nat → UInt32 → ρ} {P : Prop}
    (each : ∀ (m m' : Mem) (b b' : Nat), m.Holds b ins.plain → m'.Holds b' ins.longer →
      (parse m b ins.size = parse m' b' ins.longerSize ↔ P)) : ins.Transparent parse ↔ P := by
  apply Iff.intro
  · intro transparent
    have plain := holds_image ins.plain
    have longer := holds_image ins.longer
    exact (each _ _ 0 0 plain longer).mp (transparent _ _ 0 0 plain longer)
  · intro holds m m' b b' h h'
    exact (each m m' b b' h h').mpr holds

theorem Insertion.full_before : ∀ t ∈ ins.before, t.Full known :=
  (List.forall_mem_append.mp ins.full).1

theorem Insertion.full_after : ∀ t ∈ ins.after, t.Full known :=
  (List.forall_mem_append.mp ins.full).2

end Insertion

/-! The report parser. -/

section Report
variable {m m' : Mem} {c c' : Nat} {maxUes : UInt32} {t : Token} {ts : List Token}

def Token.rnti (t : Token) : UInt16 := Word.ofBytes .big (t.body.take 2)

def reportKeys (ts : List Token) : List UInt16 :=
  ts.filterMap fun t => if t.type = EpTLVType.ueRepId.code then some t.rnti else none

theorem tokenRnti_of_holds (h : m.Holds c t.bytes) (room : 18 ≤ t.body.length) :
    tokenRnti m c = t.rnti := by
  have body := (Token.holds_bytes.mp h).2.2
  rw [← List.take_append_drop 2 t.body, Mem.holds_append] at body
  have length : (t.body.take 2).length = Word.width UInt16 := by
    rw [List.length_take]
    exact Nat.min_eq_left (by omega)
  have first : m.slice (c + 4) (Word.width UInt16) = t.body.take 2 := length ▸ body.1
  rw [tokenRnti, Mem.be, Mem.word, first, Token.rnti]

theorem bindings_keys (full : ∀ t ∈ ts, t.Full ueKnown) (h : m.Holds c (encode ts)) :
    (bindings m (starts c ts)).map Prod.fst = reportKeys ts := by
  have agree : ∀ t ∈ ts, ∀ o, m.Holds o t.bytes →
      (if IsUeToken m o then some (tokenRnti m o) else none) =
        if t.type = EpTLVType.ueRepId.code then some t.rnti else none := by
    intro t mem o held
    simp only [IsUeToken, Token.type_of_holds held]
    split_ifs with mine
    · rw [tokenRnti_of_holds held (full t mem (.ueRepId, 18) (by decide) mine)]
    · rfl
  have same := filterMap_starts agree (by rwa [List.map_id'])
  rw [List.map_id'] at same
  rw [reportKeys, ← same, bindings, List.map_filterMap]
  congr 1
  funext o
  split_ifs <;> rfl

theorem uerepStep_local (maxUes : UInt32) :
    Local (fun m => uerepStep m maxUes) (Token.Full ueKnown) := by
  intro t full m m' c c' h h' s
  simp only [uerepStep, IsUeToken, Token.type_of_holds h, Token.type_of_holds h']
  split_ifs with mine
  · have room : 18 ≤ t.body.length := full (.ueRepId, 18) (by decide) mine
    have rnti : tokenRnti m c = tokenRnti m' c' := by
      rw [tokenRnti_of_holds h room, tokenRnti_of_holds h' room]
    have plmn : (m.be (c + 6) : UInt32) = m'.be (c' + 6) :=
      Token.word_same h h' (by simp only [Word.width]; omega)
    have imsi : (m.be (c + 10) : UInt64) = m'.be (c' + 10) :=
      Token.word_same h h' (by simp only [Word.width]; omega)
    have tmsi : (m.be (c + 18) : UInt32) = m'.be (c' + 18) :=
      Token.word_same h h' (by simp only [Word.width]; omega)
    rw [rnti, plmn, imsi, tmsi]
  · rfl

theorem uerepStep_unknown (new : t.Unknown ueKnown) (h : m.Holds c t.bytes)
    (s : (Int → EpUeDetails) × UInt32) : uerepStep m maxUes c s = (s.1, 0) :=
  uerepStep_other m maxUes c s (new.type_ne h (e := (.ueRepId, 18)) (by decide))

/-- The last token counts nothing: it is none of a UE, or its RNTI stands before every slot
that the tokens before it leave free. -/
theorem uerepStep_uncounted_iff (full : t.Full ueKnown) (h : m.Holds c t.bytes)
    (s : (Int → EpUeDetails) × UInt32) :
    (uerepStep m maxUes c s).2 = 0 ↔
      (t.type = EpTLVType.ueRepId.code → (ueTable maxUes.toNat s.1).Ahead 0 t.rnti) := by
  by_cases mine : t.type = EpTLVType.ueRepId.code
  · have token : IsUeToken m c := (Token.type_of_holds h).trans mine
    rw [imp_iff_right mine, ← pickSlot_uncounted_iff,
      ← tokenRnti_of_holds h (full (.ueRepId, 18) (by decide) mine), uerepStep, if_pos token]
  · have other : ¬ IsUeToken m c := fun token => mine ((Token.type_of_holds h).symm.trans token)
    rw [uerepStep_other m maxUes c s other]
    exact iff_of_true rfl fun h => absurd h mine

end Report

/-- Nothing is counted when the tokens `ts` have been parsed: there is none and the count was
zero, or the last one is none of a UE, or its RNTI stands before every slot then free. -/
def EndsUncounted (nofUes maxUes : UInt32) (ues : Int → EpUeDetails) (ts : List Token) : Prop :=
  match ts.getLast? with
  | none => nofUes = 0
  | some last => last.type = EpTLVType.ueRepId.code →
      (ueTable maxUes.toNat ues).AheadAfter 0 (reportKeys ts.dropLast) last.rnti

section Count
variable {m : Mem} {c : Nat} {ts : List Token} (nofUes maxUes : UInt32) (ues : Int → EpUeDetails)

theorem uncounted_iff (full : ∀ t ∈ ts, t.Full ueKnown) (h : m.Holds c (encode ts)) :
    (runSteps (uerepStep m maxUes) (starts c ts) (ues, nofUes)).2 = 0 ↔
      EndsUncounted nofUes maxUes ues ts := by
  rcases List.eq_nil_or_concat' ts with rfl | ⟨init, last, rfl⟩
  · exact Iff.rfl
  · obtain ⟨front, back⟩ := holds_encode_concat.mp h
    obtain ⟨fullInit, fullLast⟩ := List.forall_mem_append.mp full
    rw [runSteps_starts_concat, uerepStep_uncounted_iff (fullLast last List.mem_cons_self) back,
      ueTable_runSteps, SlotTable.ahead_puts_iff, bindings_keys fullInit front, EndsUncounted,
      List.getLast?_concat, List.dropLast_concat]

end Count

theorem eppUerepRep_transparent_iff (host : ByteOrder) (ins : Insertion ueKnown 0)
    (nofUes maxUes : UInt32) (ues : Int → EpUeDetails) :
    (ins.Transparent fun m b size =>
        (eppUerepRep host (some b) size (some nofUes) maxUes (some ues)).result m) ↔
      (ins.after = [] → EndsUncounted nofUes maxUes ues ins.before) := by
  refine ins.transparent_iff fun m m' b b' h h' => ?_
  have walk : (m.walker false (b + ins.size.toNat)).walk b =
      starts b (ins.before ++ ins.after) := ins.plain_walk h
  have walk' : (m'.walker false (b' + ins.longerSize.toNat)).walk b' =
      starts b' (ins.before ++ ins.token :: ins.after) := ins.longer_walk h'
  have held : m.Holds b (encode (ins.before ++ ins.after)) := tokens_held ins.fixed h
  have held' : m'.Holds b' (encode (ins.before ++ ins.token :: ins.after)) :=
    tokens_held ins.fixed h'
  rw [encode_append] at held held'
  obtain ⟨front, back⟩ := Mem.holds_append.mp held
  obtain ⟨front', rest⟩ := Mem.holds_append.mp held'
  obtain ⟨middle, back'⟩ := Mem.holds_append.mp rest
  have same := (uerepStep_local maxUes).runSteps_same ins.full_before front front' (ues, nofUes)
  rw [Code.result_of m (run_eppUerepRep host m b ins.size nofUes maxUes ues),
    Code.result_of m' (run_eppUerepRep host m' b' ins.longerSize nofUes maxUes ues), walk, walk',
    runSteps_starts_append, runSteps_starts_append, starts, runSteps_cons,
    uerepStep_unknown ins.unknown middle, ← same]
  rcases after : ins.after with _ | ⟨t, us⟩
  · rw [← uncounted_iff nofUes maxUes ues ins.full_before front]
    simp [starts]
  · have tail := (uerepStep_local maxUes).runSteps_same ins.full_after back back'
      (runSteps (uerepStep m maxUes) (starts b ins.before) (ues, nofUes))
    rw [after] at tail
    rw [tail]
    exact iff_of_true rfl fun none => absurd none (List.cons_ne_nil t us)

/-! The capabilities parser. -/

/-- The last token of `ts` tells the parser nothing: its type is unknown, or eight tokens of
its type stand before it. -/
def EndsIdle (ts : List Token) : Prop :=
  ∀ last ∈ ts.getLast?, last.Unknown capKnown ∨
    epEcapCellMax.toNat ≤ ts.dropLast.countP fun t => t.type = last.type

section Capabilities
variable {host : ByteOrder} {m m' : Mem} {b b' c : Nat} {ts : List Token} {t : Token}

theorem held_dropLast (h : m.Holds c (encode ts)) : m.Holds c (encode ts.dropLast) := by
  rcases List.eq_nil_or_concat' ts with rfl | ⟨init, last, rfl⟩
  · exact h
  · rw [List.dropLast_concat]
    exact (holds_encode_concat.mp h).1

theorem length_filterMap_starts {β : Type} (type : UInt16) (entry : Nat → β)
    (h : m.Holds c (encode ts)) :
    ((starts c ts).filterMap fun o => if m.be o = type then some (entry o) else none).length =
      ts.countP fun t => t.type = type := by
  induction ts generalizing c with
  | nil => rfl
  | cons t ts ih =>
    obtain ⟨first, rest⟩ := Mem.holds_append.mp h
    rw [starts, List.filterMap_cons, List.countP_cons, ← ih rest, Token.type_of_holds first]
    by_cases mine : t.type = type <;> simp [mine]

theorem ecap_counts (host : ByteOrder) (h : m.Holds c (encode ts)) {det : EpEnbDet}
    (cells : det.nofCells = 0) (rans : det.nofRan = 0) :
    (runSteps (ecapStep m host) (starts c ts) det).nofCells.toNat =
        min epEcapCellMax.toNat (ts.countP fun t => t.type = EpTLVType.cellCap.code) ∧
      (runSteps (ecapStep m host) (starts c ts) det).nofRan.toNat =
        min epEcapCellMax.toNat (ts.countP fun t => t.type = EpTLVType.ranCap.code) := by
  obtain ⟨cellArray, ranArray⟩ := runSteps_ecapStep m host (starts c ts) det
  rw [← length_filterMap_starts EpTLVType.cellCap.code (cellAt m) h,
    ← length_filterMap_starts EpTLVType.ranCap.code (ranAt m host) h]
  refine ⟨?_, ?_⟩
  · have count := congrArg (fun a => a.count.toNat) cellArray
    exact count.trans (CountedArray.count_foldl_push cells _)
  · have count := congrArg (fun a => a.count.toNat) ranArray
    exact count.trans (CountedArray.count_foldl_push rans _)

theorem ecapStep_eq_self_iff (h : m.Holds c t.bytes) (det : EpEnbDet) :
    ecapStep m host c det = det ↔
      (t.type = EpTLVType.cellCap.code → epEcapCellMax ≤ det.nofCells) ∧
        (t.type = EpTLVType.ranCap.code → epEcapCellMax ≤ det.nofRan) := by
  have next (n : UInt32) : n + 1 ≠ n := by simp
  rw [← Token.type_of_holds h]
  by_cases cell : IsCellCap m c
  · have other : ¬ IsRanCap m c := fun ran => ranCap_ne_cellCap (ran.symm.trans cell)
    rw [imp_iff_right cell, and_iff_left fun ran => absurd ran other, ecapStep, if_pos cell]
    by_cases full : epEcapCellMax ≤ det.nofCells
    · rw [CountedArray.list_push_full (a := det.cellArray) full]
      exact iff_of_true rfl full
    · have room : ¬ det.cellArray.count ≥ epEcapCellMax := full
      refine iff_of_false (fun same => ?_) full
      have count := congrArg EpEnbDet.nofCells same
      rw [CountedArray.push, if_neg room] at count
      exact next _ count
  · rw [and_iff_right fun token => absurd token cell, ecapStep, if_neg cell]
    by_cases ran : IsRanCap m c
    · rw [imp_iff_right ran, if_pos ran]
      by_cases full : epEcapCellMax ≤ det.nofRan
      · rw [CountedArray.list_push_full (a := det.ranArray) full]
        exact iff_of_true rfl full
      · have room : ¬ det.ranArray.count ≥ epEcapCellMax := full
        refine iff_of_false (fun same => ?_) full
        have count := congrArg EpEnbDet.nofRan same
        rw [CountedArray.push, if_neg room] at count
        exact next _ count
    · rw [if_neg ran]
      exact iff_of_true rfl fun token => absurd token ran

theorem ecap_last_iff (h : m.Holds c (encode ts)) {det : EpEnbDet} (cells : det.nofCells = 0)
    (rans : det.nofRan = 0) :
    runSteps (ecapStep m host) (starts c ts.dropLast) det =
        runSteps (ecapStep m host) (starts c ts) det ↔ EndsIdle ts := by
  rcases List.eq_nil_or_concat' ts with rfl | ⟨init, last, rfl⟩
  · exact iff_of_true rfl (by simp [EndsIdle])
  · obtain ⟨front, back⟩ := holds_encode_concat.mp h
    have counts := ecap_counts host front cells rans
    rw [List.dropLast_concat, runSteps_starts_concat, eq_comm, ecapStep_eq_self_iff back,
      UInt32.le_iff_toNat_le, UInt32.le_iff_toNat_le, counts.1, counts.2, EndsIdle,
      List.getLast?_concat, List.dropLast_concat]
    simp only [Option.mem_def, Option.some.injEq, forall_eq', Token.Unknown, capKnown,
      List.forall_mem_cons, List.not_mem_nil, false_imp_iff, implies_true, and_true]
    by_cases cell : last.type = EpTLVType.cellCap.code
    · have other : last.type ≠ EpTLVType.ranCap.code := fun ran =>
        ranCap_ne_cellCap (ran.symm.trans cell)
      simp [cell, ranCap_ne_cellCap.symm]
    · by_cases ran : last.type = EpTLVType.ranCap.code
      · simp [ran, ranCap_ne_cellCap]
      · simp [cell, ran]

end Capabilities

theorem Insertion.plain_walk_strict {known : Known} (ins : Insertion known 0) {m : Mem} {b : Nat}
    (h : m.Holds b ins.plain) :
    (m.walker true (b + ins.size.toNat)).walk b = starts b (ins.before ++ ins.after).dropLast := by
  refine walk_encode_strict (tokens_held ins.fixed h) ?_
  rw [ins.size_toNat, Insertion.plain, List.length_append, ins.fixed, Nat.zero_add]

theorem Insertion.longer_walk_strict {known : Known} (ins : Insertion known 0) {m : Mem} {b : Nat}
    (h : m.Holds b ins.longer) :
    (m.walker true (b + ins.longerSize.toNat)).walk b =
      starts b (ins.before ++ ins.token :: ins.after).dropLast := by
  refine walk_encode_strict (tokens_held ins.fixed h) ?_
  rw [ins.longerSize_toNat, Insertion.longer, List.length_append, ins.fixed, Nat.zero_add]

/-- The capabilities parser is transparent unless the token goes behind a token that tells it
something: only then that one is parsed. -/
theorem eppEcapRep_transparent_iff (host : ByteOrder) (ins : Insertion capKnown 0)
    (det : EpEnbDet) :
    (ins.Transparent fun m b size => (eppEcapRep host b size (some det)).result m) ↔
      (ins.after = [] → EndsIdle ins.before) := by
  refine ins.transparent_iff fun m m' b b' h h' => ?_
  have held : m.Holds b (encode (ins.before ++ ins.after)) := tokens_held ins.fixed h
  have held' : m'.Holds b' (encode (ins.before ++ ins.token :: ins.after)) :=
    tokens_held ins.fixed h'
  rw [Code.result_of m (run_eppEcapRep m b ins.size det),
    Code.result_of m' (run_eppEcapRep m' b' ins.longerSize det), ins.plain_walk_strict h,
    ins.longer_walk_strict h']
  simp only [Option.some.injEq, Prod.mk.injEq, true_and]
  by_cases last : ins.after = []
  · have full : ∀ t ∈ ins.before.dropLast, t.Full capKnown := fun t mem =>
      ins.full_before t (List.mem_of_mem_dropLast mem)
    rw [last, List.append_nil] at held
    rw [last] at held'
    have front' := Mem.holds_append.mp (encode_append .. ▸ held')
    rw [imp_iff_right last, last, List.append_nil, List.dropLast_concat,
      ecapStep_local.runSteps_same full (held_dropLast held) (held_dropLast front'.1),
      ecap_last_iff front'.1 rfl rfl]
  · refine iff_of_true ?_ fun none => absurd none last
    have front := held_dropLast held
    have front' := held_dropLast held'
    rw [List.dropLast_append_of_ne_nil last] at front ⊢
    rw [List.dropLast_append_of_ne_nil (List.cons_ne_nil _ _), List.dropLast_cons_of_ne_nil last]
      at front' ⊢
    refine ecapStep_local.runSteps_insert ecapStep_skips (fun t mem => ins.full t ?_) ins.unknown
      front front' _
    exact (List.mem_append.mp mem).elim (fun mem => List.mem_append_left _ mem)
      fun mem => List.mem_append_right _ (List.mem_of_mem_dropLast mem)

/-- Seven body parsers make the same of a body with an unknown token put in anywhere; the report
and the capabilities parser do so unless it goes behind a last token that matters to them. -/
theorem bodies_transparent_iff (host : ByteOrder) :
    (∀ (ins : Insertion setupKnown 12) (old : EpRanDet),
      ins.Transparent fun m b size => (eppRanEup host b size (some old)).result m) ∧
    (∀ (ins : Insertion sliceKnown 8) (id : Option UInt64) (old : EpRanSliceDet),
      ins.Transparent fun m b size => (eppRanSup host b size id (some old)).result m) ∧
    (∀ (ins : Insertion sliceKnown 8) (id : Option UInt64) (old : EpRanSliceDet),
      ins.Transparent fun m b size => (eppRanSaq host b size id (some old)).result m) ∧
    (∀ (ins : Insertion sliceKnown 8) (id : Option UInt64) (old : EpRanSliceDet),
      ins.Transparent fun m b size => (eppRanSsq host b size id (some old)).result m) ∧
    (∀ (ins : Insertion cellKnown 0) (old : EpCellRep),
      ins.Transparent fun m b size => (eppCellMeasRep host (some b) size (some old)).result m) ∧
    (∀ (ins : Insertion rrcReportKnown 0) (old : EpUeReport),
      ins.Transparent fun m b size => (eppUemeasRep host (some b) size (some old)).result m) ∧
    (∀ (ins : Insertion rrcMeasKnown 0) (old : EpUeMeas),
      ins.Transparent fun m b size => (eppUemeasReq host (some b) size (some old)).result m) ∧
    (∀ (ins : Insertion ueKnown 0) (nofUes maxUes : UInt32) (ues : Int → EpUeDetails),
      (ins.Transparent fun m b size =>
          (eppUerepRep host (some b) size (some nofUes) maxUes (some ues)).result m) ↔
        (ins.after = [] → EndsUncounted nofUes maxUes ues ins.before)) ∧
    ∀ (ins : Insertion capKnown 0) (det : EpEnbDet),
      (ins.Transparent fun m b size => (eppEcapRep host b size (some det)).result m) ↔
        (ins.after = [] → EndsIdle ins.before) :=
  ⟨eppRanEup_transparent, fun ins => parseSlice_transparent ins false,
    fun ins => parseSlice_transparent ins true, fun ins => parseSlice_transparent ins false,
    eppCellMeasRep_transparent, eppUemeasRep_transparent, eppUemeasReq_transparent,
    eppUerepRep_transparent_iff host, eppEcapRep_transparent_iff host⟩

def ueThenUnknown : Insertion ueKnown 0 where
  head := []
  before := [⟨EpTLVType.ueRepId.code, [0, 7, 0, 0, 0, 1, 0, 0, 0, 0, 0, 0, 0, 2, 0, 0, 0, 3],
    by decide⟩]
  token := ⟨0x7777, [], by decide⟩
  after := []
  fixed := rfl
  full := by simp [Token.Full, ueKnown]
  unknown := by
    simp only [Token.Unknown, ueKnown, List.forall_mem_singleton]
    decide
  bounded := by decide

/-- In a table of four free slots the UE is counted, until the unknown token comes. -/
theorem ueThenUnknown_not_transparent :
    ¬ ueThenUnknown.Transparent fun m b size =>
      (eppUerepRep .little (some b) size (some 0) 4 (some fun _ => ⟨0, 0, 0, 0, 0⟩)).result m := by
  rw [eppUerepRep_transparent_iff]
  intro uncounted
  have ahead : (ueTable 4 fun _ => ⟨0, 0, 0, 0, 0⟩).AheadAfter 0 [] 7 := uncounted rfl rfl
  exact absurd ahead (by decide)

end Emproto
