import Emproto.UeReport
import Emproto.SlotRuns

/-! The UE table of a report parser as a slot table. A slot is free when its RNTI
is zero, and a UE identity token stores its identity under its RNTI. From this
follow the map a parse leaves behind and the indices it writes at. -/

namespace Emproto

structure UeIdentity where
  plmn : UInt32
  imsi : UInt64
  tmsi : UInt32
deriving DecidableEq, Repr

def EpUeDetails.identity (ue : EpUeDetails) : UeIdentity := ⟨ue.plmn, ue.imsi, ue.tmsi⟩

def ueTable (cap : Nat) (ues : Int → EpUeDetails) : SlotTable UInt16 UeIdentity where
  cap := cap
  key i := (ues i).rnti
  val i := (ues i).identity

variable {host : ByteOrder} (m : Mem)

section Search
variable (ues : Int → EpUeDetails) (rnti : UInt16)

def pickSlot : Nat → Nat → Int → UInt32 → Int × UInt32
  | 0, _, j, nofUes => (j, nofUes)
  | k + 1, i, j, nofUes =>
    let picked := j < 0 && (ues i).rnti == 0
    let j := if picked then (i : Int) else j
    let nofUes := if picked then nofUes + 1 else nofUes
    if (ues i).rnti = rnti then ((i : Int), nofUes) else pickSlot k (i + 1) j nofUes

def pickTrace (buf : Nat) : Nat → Nat → Trace
  | 0, _ => []
  | k + 1, i => .get i :: (Code.loadTrace (buf + 4) 2 ++
      if (ues i).rnti = rnti then [] else pickTrace buf k (i + 1))

theorem pickTrace_plain (buf k i : Nat) : (pickTrace ues rnti buf k i).Plain := by
  induction k generalizing i with
  | zero => exact Trace.plain_nil
  | succ k ih =>
    rw [pickTrace]
    split <;> simp [ih]

theorem pickTrace_sets (buf k i : Nat) : (pickTrace ues rnti buf k i).sets = [] := by
  induction k generalizing i with
  | zero => rfl
  | succ k ih =>
    rw [pickTrace]
    split <;> simp [Event.set?, ih]

theorem run_selectSlot (buf k i : Nat) (j : Int) (nofUes : UInt32) :
    (selectSlot host buf ues k i j nofUes).run m =
      some (pickSlot ues (m.be (buf + 4)) k i j nofUes,
        pickTrace ues (m.be (buf + 4)) buf k i) := by
  induction k generalizing i j nofUes with
  | zero => rfl
  | succ k ih =>
    rw [selectSlot, Code.run_note_bind m rfl, Code.run_load_bind]
    simp only [Mem.ntoh_word, pickSlot, pickTrace]
    by_cases found : (ues i).rnti = m.be (buf + 4)
    · simp only [found, if_true]
      rfl
    · simp only [found, if_false, ih]
      rfl

theorem pickSlot_fst (k i : Nat) (j : Int) (nofUes : UInt32) :
    (pickSlot ues rnti k i j nofUes).1 =
      match (List.range' i k).find? fun x : Nat => (ues x).rnti = rnti with
      | some x => (x : Int)
      | none =>
        if j < 0 then
          match (List.range' i k).find? fun x : Nat => (ues x).rnti = 0 with
          | some x => (x : Int)
          | none => j
        else j := by
  induction k generalizing i j nofUes with
  | zero => simp [pickSlot]
  | succ k ih =>
    rw [pickSlot, List.range'_succ, List.find?_cons, List.find?_cons]
    by_cases found : (ues i).rnti = rnti
    · simp [found]
    · simp only [found, if_false, decide_false]
      rw [ih]
      cases (List.range' (i + 1) k).find? fun x : Nat => decide ((ues x).rnti = rnti) with
      | some x => rfl
      | none =>
        by_cases free : (ues i).rnti = 0
        · by_cases hj : j < 0 <;> simp [free, hj]
        · simp [free]

theorem pickSlot_select (cap : Nat) :
    (pickSlot ues rnti cap 0 (-1) 0).1 =
      match (ueTable cap ues).select 0 rnti with
      | some x => (x : Int)
      | none => -1 := by
  have found (r : UInt16) : (List.range' 0 cap).find? (fun x : Nat => (ues x).rnti = r) =
      (ueTable cap ues).slotOf r := by
    rw [SlotTable.slotOf, List.range_eq_range']
    rfl
  rw [pickSlot_fst, found, found, SlotTable.select]
  cases (ueTable cap ues).slotOf rnti <;> rfl

theorem pickSlot_picked (k i : Nat) {j : Int} (hj : 0 ≤ j) (nofUes : UInt32) :
    (pickSlot ues rnti k i j nofUes).2 = nofUes := by
  have kept : ¬ j < 0 := by omega
  induction k generalizing i with
  | zero => rfl
  | succ k ih =>
    rw [pickSlot]
    simp only [kept, decide_false, Bool.false_and, Bool.false_eq_true, if_false]
    split_ifs
    · rfl
    · exact ih (i + 1)

theorem pickSlot_uncounted (k i : Nat) :
    (pickSlot ues rnti k i (-1) 0).2 = 0 ↔
      ∀ x, i ≤ x → x < i + k → (ues (x : Nat)).rnti = 0 →
        ∃ y : Nat, i ≤ y ∧ y < x ∧ (ues y).rnti = rnti := by
  induction k generalizing i with
  | zero => exact iff_of_true rfl fun x low high => by omega
  | succ k ih =>
    rw [pickSlot]
    by_cases free : (ues i).rnti = 0
    · simp only [free, beq_self_eq_true, Bool.and_true, Int.reduceNeg, Int.reduceLT, decide_true,
        if_true]
      refine iff_of_false ?_ fun all => ?_
      · have one : (0 + 1 : UInt32) ≠ 0 := by decide
        split_ifs
        · exact one
        · rwa [pickSlot_picked ues rnti k (i + 1) (Int.natCast_nonneg i)]
      · obtain ⟨y, low, high, -⟩ := all i le_rfl (by omega) free
        omega
    · have other : ((ues i).rnti == 0) = false := beq_eq_false_iff_ne.mpr free
      simp only [other, Bool.and_false, Bool.false_eq_true, if_false]
      split_ifs with found
      · refine iff_of_true rfl fun x low high hx => ⟨i, le_rfl, ?_, found⟩
        exact Nat.lt_of_le_of_ne low fun same => free (same ▸ hx)
      · rw [ih]
        apply Iff.intro
        · intro all x low high hx
          have past : i ≠ x := fun same => free (same ▸ hx)
          obtain ⟨y, hy, before, key⟩ := all x (by omega) (by omega) hx
          exact ⟨y, by omega, before, key⟩
        · intro all x low high hx
          obtain ⟨y, hy, before, key⟩ := all x (by omega) (by omega) hx
          have past : i ≠ y := fun same => found (same ▸ key)
          exact ⟨y, by omega, before, key⟩

theorem pickSlot_uncounted_iff (cap : Nat) :
    (pickSlot ues rnti cap 0 (-1) 0).2 = 0 ↔ (ueTable cap ues).Ahead 0 rnti := by
  rw [pickSlot_uncounted]
  simp only [Nat.zero_le, true_and, forall_const, Nat.zero_add]
  exact Iff.rfl

end Search

abbrev IsUeToken (c : Nat) : Prop := m.be c = EpTLVType.ueRepId.code

def tokenRnti (c : Nat) : UInt16 := m.be (c + 4)

def tokenIdentity (c : Nat) : UeIdentity := ⟨m.be (c + 6), m.be (c + 10), m.be (c + 18)⟩

/-- Effect of `epp_uerep_rep_TLV` at `c`. -/
def uerepStep (maxUes : UInt32) (c : Nat) (s : (Int → EpUeDetails) × UInt32) :
    (Int → EpUeDetails) × UInt32 :=
  if IsUeToken m c then
    let (j, nofUes) := pickSlot s.1 (tokenRnti m c) maxUes.toNat 0 (-1) 0
    (Function.update s.1 j { s.1 j with
      rnti := tokenRnti m c
      plmn := m.be (c + 6)
      imsi := m.be (c + 10)
      tmsi := m.be (c + 18) }, nofUes)
  else (s.1, 0)

def uerepTrace (maxUes : UInt32) (c : Nat) (s : (Int → EpUeDetails) × UInt32) : Trace :=
  .call c :: (Code.loadTrace c 2 ++
    if IsUeToken m c then
      pickTrace s.1 (tokenRnti m c) c maxUes.toNat 0 ++ (Code.loadTrace (c + 4) 2 ++
        (Code.loadTrace (c + 6) 4 ++ (Code.loadTrace (c + 10) 8 ++ (Code.loadTrace (c + 18) 4 ++
          [.set (pickSlot s.1 (tokenRnti m c) maxUes.toNat 0 (-1) 0).1]))))
    else [])

section Handler
variable (maxUes : UInt32) (c : Nat) (s : (Int → EpUeDetails) × UInt32)

theorem uerepTrace_handles : (uerepTrace m maxUes c s).Handles c := by
  refine Trace.Plain.handles ?_ c
  split_ifs <;> simp [pickTrace_plain]

theorem uerepTrace_sets :
    (uerepTrace m maxUes c s).sets =
      if IsUeToken m c then [(pickSlot s.1 (tokenRnti m c) maxUes.toNat 0 (-1) 0).1] else [] := by
  unfold uerepTrace
  split_ifs <;> simp [Event.set?, pickTrace_sets]

theorem run_eppUerepRepTLV :
    (eppUerepRepTLV host maxUes c s).run m =
      some ((0, uerepStep m maxUes c s), uerepTrace m maxUes c s) := by
  rw [eppUerepRepTLV, Code.run_note_bind m rfl, Code.run_load_bind]
  simp only [Mem.ntoh_word]
  by_cases h : m.be c = EpTLVType.ueRepId.code
  · rw [if_pos h, uerepStep, if_pos h, uerepTrace, if_pos h,
      Code.run_bind_quiet m (run_selectSlot m _ _ _ _ _ _) (pickTrace_plain _ _ _ _ _).stores]
    simp only [Code.run_load_bind, Code.run_note_bind m (e := Event.set _) rfl, Mem.ntoh_word]
    rfl
  · rw [if_neg h, uerepStep, if_neg h, uerepTrace, if_neg h]
    rfl

theorem ueTable_uerepStep (h : IsUeToken m c) :
    ueTable maxUes.toNat (uerepStep m maxUes c s).1 =
      (ueTable maxUes.toNat s.1).put 0 (tokenRnti m c) (tokenIdentity m c) := by
  have slot := pickSlot_select s.1 (tokenRnti m c) maxUes.toNat
  rw [uerepStep, if_pos h]
  cases hs : (ueTable maxUes.toNat s.1).select 0 (tokenRnti m c) with
  | none =>
    rw [hs] at slot
    rw [SlotTable.put_of_full hs]
    simp only [slot, ueTable, SlotTable.mk.injEq, true_and]
    constructor <;> ext i : 1 <;> rw [Function.update_of_ne (by omega)]
  | some x =>
    rw [hs] at slot
    rw [SlotTable.put_of_select hs]
    simp only [slot, ueTable, SlotTable.write, SlotTable.mk.injEq, true_and]
    constructor <;> ext i : 1 <;> by_cases hi : i = x <;>
      simp [hi, EpUeDetails.identity, tokenIdentity]

theorem uerepStep_other (h : ¬ IsUeToken m c) : uerepStep m maxUes c s = (s.1, 0) := by
  rw [uerepStep, if_neg h]

end Handler

/-- The stores a walk asks for: RNTI and identity of each UE identity token. -/
def bindings (os : List Nat) : List (UInt16 × UeIdentity) :=
  os.filterMap fun o =>
    if IsUeToken m o then some (tokenRnti m o, tokenIdentity m o) else none

section Runs
variable {m} (maxUes : UInt32) (os : List Nat) (s : (Int → EpUeDetails) × UInt32)

theorem bindings_token {o : Nat} (h : IsUeToken m o) :
    bindings m (o :: os) = (tokenRnti m o, tokenIdentity m o) :: bindings m os := by
  rw [bindings, List.filterMap_cons, if_pos h]
  rfl

theorem bindings_other {o : Nat} (h : ¬ IsUeToken m o) : bindings m (o :: os) = bindings m os := by
  rw [bindings, List.filterMap_cons, if_neg h]
  rfl

theorem bindings_append (os' : List Nat) :
    bindings m (os ++ os') = bindings m os ++ bindings m os' := by
  simp [bindings]

/-- The parsed table is the slot table after the stores of the walk. -/
theorem ueTable_runSteps :
    ueTable maxUes.toNat (runSteps (uerepStep m maxUes) os s).1 =
      (ueTable maxUes.toNat s.1).puts 0 (bindings m os) := by
  induction os generalizing s with
  | nil => rfl
  | cons o os ih =>
    rw [runSteps_cons, ih]
    by_cases h : IsUeToken m o
    · rw [ueTable_uerepStep m maxUes o s h, bindings_token os h, SlotTable.puts_cons]
    · rw [uerepStep_other m maxUes o s h, bindings_other os h]

theorem fits_iff_visits :
    (ueTable maxUes.toNat s.1).Fits 0 (bindings m os) ↔
      ∀ v ∈ visits (uerepStep m maxUes) os s, IsUeToken m v.1 →
        ((ueTable maxUes.toNat v.2.1).select 0 (tokenRnti m v.1)).isSome := by
  induction os generalizing s with
  | nil => simp [bindings, SlotTable.Fits, visits]
  | cons o os ih =>
    rw [visits, List.forall_mem_cons, ← ih]
    by_cases h : IsUeToken m o
    · rw [bindings_token os h, SlotTable.Fits, ueTable_uerepStep m maxUes o s h, imp_iff_right h]
    · rw [uerepStep_other m maxUes o s h, bindings_other os h]
      exact (and_iff_right fun h' => absurd h' h).symm

theorem pickSlot_inside (ues : Int → EpUeDetails) (rnti : UInt16) (cap : Nat) :
    (0 ≤ (pickSlot ues rnti cap 0 (-1) 0).1 ∧ (pickSlot ues rnti cap 0 (-1) 0).1 < cap) ↔
      ((ueTable cap ues).select 0 rnti).isSome := by
  have slot := pickSlot_select ues rnti cap
  cases hs : (ueTable cap ues).select 0 rnti with
  | none =>
    rw [hs] at slot
    simp [slot]
  | some x =>
    have inside : x < cap := (SlotTable.select_eq_some hs).1
    rw [hs] at slot
    simp [slot, inside]

theorem run_eppUerepRep (host : ByteOrder) (m : Mem) (b : Nat) (size nofUes maxUes : UInt32)
    (ues : Int → EpUeDetails) :
    (eppUerepRep host (some b) size (some nofUes) maxUes (some ues)).run m =
      some ((0, some (runSteps (uerepStep m maxUes)
            ((m.walker false (b + size.toNat)).walk b) (ues, nofUes)).1,
          some (runSteps (uerepStep m maxUes)
            ((m.walker false (b + size.toNat)).walk b) (ues, nofUes)).2),
        .enter b size.toNat :: loopTrace (m.walker false (b + size.toNat)) (uerepStep m maxUes)
          (uerepTrace m maxUes) b (ues, nofUes)) := by
  rw [eppUerepRep, Code.run_note_bind m rfl]
  dsimp only
  rw [run_tokenLoop_bind (uerepStep m maxUes) (run_eppUerepRepTLV m maxUes)
    (fun c s => (uerepTrace_handles m maxUes c s).stores) (by omega)]
  simp

end Runs

def SetsInside {α : Type} (run : Option (α × Trace)) (cap : Nat) : Prop :=
  ∃ r es, run = some (r, es) ∧ ∀ j ∈ es.sets, 0 ≤ j ∧ j < cap

/-- The report parser stays inside the table exactly if each UE identity token
finds its RNTI, in the initial table or in an earlier token, or a free slot that
the new RNTIs before it have left. -/
theorem eppUerepRep_setsInside_iff (host : ByteOrder) (m : Mem) (b : Nat)
    (size nofUes maxUes : UInt32) (ues : Int → EpUeDetails) :
    SetsInside ((eppUerepRep host (some b) size (some nofUes) maxUes (some ues)).run m)
        maxUes.toNat ↔
      ∀ before u after,
        bindings m ((m.walker false (b + size.toNat)).walk b) = before ++ u :: after →
        (ueTable maxUes.toNat ues).Room 0 (before.map Prod.fst) u.1 := by
  rw [← SlotTable.fits_iff, fits_iff_visits maxUes _ (ues, nofUes)]
  have inside (v : Nat × (Int → EpUeDetails) × UInt32) :
      (∀ j ∈ (uerepTrace m maxUes v.1 v.2).sets, 0 ≤ j ∧ j < maxUes.toNat) ↔
        (IsUeToken m v.1 →
          ((ueTable maxUes.toNat v.2.1).select 0 (tokenRnti m v.1)).isSome) := by
    rw [uerepTrace_sets, ← pickSlot_inside]
    by_cases h : IsUeToken m v.1
    · rw [if_pos h, List.forall_mem_singleton, imp_iff_right h]
    · rw [if_neg h]
      simp only [List.not_mem_nil, false_imp_iff, implies_true, true_iff]
      exact fun h' => absurd h' h
  simp only [← inside]
  apply Iff.intro
  · rintro ⟨r, es, hrun, all⟩ v hv j hj
    rw [run_eppUerepRep] at hrun
    cases hrun
    refine all j ?_
    rw [Trace.sets_cons, loopTrace_sets, List.mem_append, List.mem_flatMap]
    exact .inr ⟨v, hv, hj⟩
  · intro all
    refine ⟨_, _, run_eppUerepRep .., fun j hj => ?_⟩
    rw [Trace.sets_cons, loopTrace_sets, List.mem_append, List.mem_flatMap] at hj
    rcases hj with hj | ⟨v, hv, hj⟩
    · simp [Event.set?] at hj
    · exact all v hv j hj

/-- A table with one slot, taken by RNTI 5, and a token for RNTI 7: the parser
writes at index -1. -/
theorem eppUerepRep_full_not_setsInside :
    ¬ SetsInside ((eppUerepRep .little (some 0) 23 (some 0) 1
        (some fun _ => ⟨0, 5, 0, 0, 0⟩)).run (Mem.ofBytes [7, 0, 0, 19, 0, 7])) 1 := by
  rintro ⟨r, es, hrun, inside⟩
  have sets : ((eppUerepRep .little (some 0) 23 (some 0) 1 (some fun _ => ⟨0, 5, 0, 0, 0⟩)).run
      (Mem.ofBytes [7, 0, 0, 19, 0, 7])).map (fun r => r.2.sets) = some [-1] := by
    decide +kernel
  rw [hrun] at sets
  have := inside (-1) (by simp [Option.some.inj sets])
  omega

/-- Parsing a report keeps the RNTIs of the table apart and updates the map it
denotes, in token order, with the identity tokens of non-zero RNTI, if each such
token finds its RNTI or a free slot in the table it is handled with. -/
theorem eppUerepRep_denote (host : ByteOrder) (m : Mem) (b : Nat) (size nofUes maxUes : UInt32)
    (ues : Int → EpUeDetails) (distinct : (ueTable maxUes.toNat ues).Distinct 0)
    (room : ∀ v ∈ visits (uerepStep m maxUes) ((m.walker false (b + size.toNat)).walk b)
        (ues, nofUes), IsUeToken m v.1 →
      (ueTable maxUes.toNat v.2.1).Holds (tokenRnti m v.1) ∨
        (ueTable maxUes.toNat v.2.1).Holds 0) :
    ∃ ues' nofUes' es,
      (eppUerepRep host (some b) size (some nofUes) maxUes (some ues)).run m =
        some ((epSuccess, some ues', some nofUes'), es) ∧
      (ueTable maxUes.toNat ues').Distinct 0 ∧
      (ueTable maxUes.toNat ues').denote 0 =
        (bindings m ((m.walker false (b + size.toNat)).walk b)).foldl (SlotTable.bindKey 0)
          ((ueTable maxUes.toNat ues).denote 0) := by
  have fits : (ueTable maxUes.toNat ues).Fits 0
      (bindings m ((m.walker false (b + size.toNat)).walk b)) :=
    (fits_iff_visits maxUes _ (ues, nofUes)).mpr fun v hv h =>
      SlotTable.isSome_select.mpr (room v hv h)
  refine ⟨_, _, _, run_eppUerepRep .., ?_, ?_⟩
  · rw [ueTable_runSteps]
    exact SlotTable.puts_distinct distinct _
  · rw [ueTable_runSteps, SlotTable.denote_puts fits]

theorem eppUerepRep_denote_hole :
    ∃ ues' nofUes' es,
      (eppUerepRep .little (some 0) 23 (some 0) 2
          (some fun i => ⟨0, if i = 1 then 7 else 0, 0, 0, 0⟩)).run
          (Mem.ofBytes [7, 0, 0, 19, 0, 7, 0, 0, 0, 9]) =
        some ((epSuccess, some ues', some nofUes'), es) ∧
      (ueTable (2 : UInt32).toNat ues').Distinct 0 ∧
      (ueTable (2 : UInt32).toNat ues').denote 0 =
        (bindings (Mem.ofBytes [7, 0, 0, 19, 0, 7, 0, 0, 0, 9])
            ((Mem.walker (Mem.ofBytes [7, 0, 0, 19, 0, 7, 0, 0, 0, 9]) false
              (0 + (23 : UInt32).toNat)).walk 0)).foldl (SlotTable.bindKey 0)
          ((ueTable (2 : UInt32).toNat fun i => ⟨0, if i = 1 then 7 else 0, 0, 0, 0⟩).denote 0) :=
  eppUerepRep_denote .little (Mem.ofBytes [7, 0, 0, 19, 0, 7, 0, 0, 0, 9]) 0 23 0 2
    (fun i => ⟨0, if i = 1 then 7 else 0, 0, 0, 0⟩) (by decide +kernel) (by decide +kernel)

end Emproto
