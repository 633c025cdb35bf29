import Emproto.RanParse
import Emproto.UeTable
import Emproto.UeMeas
import Emproto.CellMeas
import Emproto.EnbCapsRun

/-! Which bytes the body parsers fetch. A loop looks at the length of each token it
meets before it knows that the header lies in the body, and a handler at the fixed
fields of a token whatever length it declares. -/

namespace Emproto
variable {host : ByteOrder} {m : Mem}

/-- The run ends and fetches bytes of `[lo, hi)` only. -/
def ReadsInside {α : Type} (run : Option (α × Trace)) (lo hi : Nat) : Prop :=
  ∃ r es, run = some (r, es) ∧ es.ReadsIn lo hi

theorem readsInside_iff {α : Type} {run : Option (α × Trace)} {r : α} {es : Trace} {lo hi : Nat}
    (hrun : run = some (r, es)) : ReadsInside run lo hi ↔ es.ReadsIn lo hi :=
  Code.exists_run_iff hrun fun _ es => es.ReadsIn lo hi

/-- Behind the tokens that the walk takes there is no byte or a whole header. -/
def HeadersFit (w : Walker) (c : Nat) : Prop := w.stop c < w.fin → w.stop c + 4 ≤ w.fin

/-- The tokens of the given type at `os` have `need` body bytes before `fin`. -/
def BodiesFit (m : Mem) (fin : Nat) (code : UInt16) (need : Nat) (os : List Nat) : Prop :=
  ∀ o ∈ os, m.be o = code → o + 4 + need ≤ fin

def firstOf (m : Mem) (code : UInt16) (k : Nat) (os : List Nat) : List Nat :=
  (os.filter fun o => m.be o = code).take k

theorem bodiesFit_firstOf {fin need k : Nat} {code : UInt16} {os : List Nat} :
    BodiesFit m fin code need (firstOf m code k os) ↔
      ∀ o ∈ firstOf m code k os, o + 4 + need ≤ fin := by
  refine forall₂_congr fun o ho => imp_iff_right ?_
  exact of_decide_eq_true (List.mem_filter.mp (List.mem_of_mem_take ho)).2

section Loops
variable {σ : Type} {strict : Bool} {lo fin c : Nat} {step : Nat → σ → σ} {s : σ}

/-- A loop whose handlers read inside the area exactly where `P` holds. -/
theorem readsIn_loop {tr : Nat → σ → Trace} {P : Nat → σ → Prop} (h : lo ≤ c)
    (each : ∀ c s, lo ≤ c → m.nextToken c ≤ fin → ((tr c s).ReadsIn lo fin ↔ P c s)) :
    (loopTrace (m.walker strict fin) step tr c s).ReadsIn lo fin ↔
      HeadersFit (m.walker strict fin) c ∧
        ∀ v ∈ visits step ((m.walker strict fin).walk c) s, P v.1 v.2 := by
  have inside : (loopTrace (m.walker strict fin) step tr c s).ReadsIn lo fin ↔ _ :=
    readsIn_loopTrace m.header_le_nextToken h
  refine inside.trans (and_congr_right fun _ => forall₂_congr fun v hv => ?_)
  obtain ⟨before, rest, split, _⟩ := (mem_visits step).mp hv
  obtain ⟨lower, ok⟩ := (m.walker strict fin).mem_walk
    (split ▸ List.mem_append_right before List.mem_cons_self : v.1 ∈ (m.walker strict fin).walk c)
  exact each v.1 v.2 (h.trans lower) ((m.walker strict fin).bounded _ ok)

theorem readsIn_plainLoop {tr : Nat → Trace} {P : Nat → Prop} (h : lo ≤ c)
    (each : ∀ c, lo ≤ c → m.nextToken c ≤ fin → ((tr c).ReadsIn lo fin ↔ P c)) :
    (loopTrace (m.walker strict fin) step (fun c _ => tr c) c s).ReadsIn lo fin ↔
      HeadersFit (m.walker strict fin) c ∧ ∀ o ∈ (m.walker strict fin).walk c, P o := by
  calc
    _ ↔ HeadersFit (m.walker strict fin) c ∧
        ∀ v ∈ visits step ((m.walker strict fin).walk c) s, P v.1 :=
      readsIn_loop h fun c _ => each c
    _ ↔ _ := and_congr_right fun _ => forall_visits step _ s

end Loops

section Handlers
variable {lo hi c : Nat}

theorem readsIn_handler {t : Trace} (low : lo ≤ c) (next : m.nextToken c ≤ hi) :
    Trace.ReadsIn (.call c :: (Code.loadTrace c 2 ++ t)) lo hi ↔ t.ReadsIn lo hi := by
  have := m.header_le_nextToken c
  rw [Trace.readsIn_cons _ rfl, Trace.readsIn_append, Code.readsIn_loadTrace]
  exact and_iff_right (.inr (by omega))

theorem readsIn_ite {p : Prop} [Decidable p] {t : Trace} :
    Trace.ReadsIn (if p then t else []) lo hi ↔ (p → t.ReadsIn lo hi) := by
  by_cases h : p <;> simp [h]

variable (low : lo ≤ c) (next : m.nextToken c ≤ hi)
include low next

theorem setupTrace_readsIn :
    (setupTrace m c).ReadsIn lo hi ↔
      ((m.be c : UInt16) = EpTLVType.ranMacSched.code → c + 4 + 4 ≤ hi) := by
  rw [setupTrace, readsIn_handler low next, readsIn_ite, Code.readsIn_loadTrace]
  refine imp_congr_right fun _ => ?_
  omega

theorem sliceTrace_readsIn :
    (sliceTrace m c).ReadsIn lo hi ↔
      ((m.be c : UInt16) = EpTLVType.ranSliceMacRes.code → c + 4 + 2 ≤ hi) ∧
        ((m.be c : UInt16) = EpTLVType.ranSliceMacSched.code → c + 4 + 4 ≤ hi) := by
  have header := m.header_le_nextToken c
  rw [sliceTrace, readsIn_handler low next]
  by_cases report : (m.be c : UInt16) = EpTLVType.rntiReport.code
  · have copied : c + 4 + 2 * rntiCount m c epRanUsersMax.toNat ≤ hi := by
      have whole : c + 4 + (m.be (c + 2) : UInt16).toNat ≤ hi := next
      unfold rntiCount
      omega
    have other : EpTLVType.rntiReport.code ≠ EpTLVType.ranSliceMacRes.code ∧
        EpTLVType.rntiReport.code ≠ EpTLVType.ranSliceMacSched.code := by decide
    rw [if_pos report, Trace.readsIn_append, Code.readsIn_loadTrace, report]
    exact iff_of_true ⟨.inr (by omega), rntiCopyTrace_readsIn (by omega) copied⟩
      ⟨fun h => absurd h other.1, fun h => absurd h other.2⟩
  rw [if_neg report]
  by_cases res : (m.be c : UInt16) = EpTLVType.ranSliceMacRes.code
  · have other : EpTLVType.ranSliceMacRes.code ≠ EpTLVType.ranSliceMacSched.code := by decide
    rw [if_pos res, Code.readsIn_loadTrace, res]
    simp only [other, forall_const, false_imp_iff, and_true]
    omega
  rw [if_neg res, readsIn_ite, Code.readsIn_loadTrace]
  simp only [res, false_imp_iff, true_and]
  refine imp_congr_right fun _ => ?_
  omega

theorem prbTrace_readsIn :
    (prbTrace m c).ReadsIn lo hi ↔
      ((m.be c : UInt16) = EpTLVType.cellPrbReport.code → c + 4 + 10 ≤ hi) := by
  rw [prbTrace, readsIn_handler low next, readsIn_ite]
  refine imp_congr_right fun _ => ?_
  simp only [Trace.readsIn_append, Code.readsIn_loadTrace]
  omega

theorem reqTrace_readsIn : (Code.loadTrace c 2).ReadsIn lo hi := by
  have := m.header_le_nextToken c
  exact (Code.readsIn_loadTrace _ _).mpr (.inr (by omega))

theorem rrcTrace_readsIn {α : Type} {code : UInt16} {read : Nat → Trace} {need : Nat}
    (body : (read c).ReadsIn lo hi ↔ c + 4 + need ≤ hi) (rep : CountedArray α) :
    (rrcTrace m code read c rep).ReadsIn lo hi ↔
      (m.be c = code ∧ rep.count.toNat < epUeRrcMeasMax.toNat → c + 4 + need ≤ hi) := by
  rw [rrcTrace, readsIn_handler low next, readsIn_ite, body, UInt32.lt_iff_toNat_lt]

theorem uerepTrace_readsIn (maxUes : UInt32) (s : (Int → EpUeDetails) × UInt32) :
    (uerepTrace m maxUes c s).ReadsIn lo hi ↔ (IsUeToken m c → c + 4 + 18 ≤ hi) := by
  have search (rnti : UInt16) (k i : Nat) (h : c + 6 ≤ hi) :
      (pickTrace s.1 rnti c k i).ReadsIn lo hi := by
    induction k generalizing i with
    | zero => exact Trace.readsIn_nil lo hi
    | succ k ih =>
      rw [pickTrace, Trace.readsIn_cons _ rfl, Trace.readsIn_append, Code.readsIn_loadTrace]
      refine ⟨.inr (by omega), ?_⟩
      split
      · exact Trace.readsIn_nil lo hi
      · exact ih (i + 1)
  rw [uerepTrace, readsIn_handler low next, readsIn_ite]
  refine imp_congr_right fun _ => ?_
  simp only [Trace.readsIn_append, Code.readsIn_loadTrace]
  rw [Trace.readsIn_cons _ rfl]
  apply Iff.intro
  · intro reads
    omega
  · intro fits
    exact ⟨search _ _ _ (by omega), .inr (by omega), .inr (by omega), .inr (by omega),
      .inr (by omega), Trace.readsIn_nil lo hi⟩

theorem ecapTrace_readsIn (det : EpEnbDet) :
    (ecapTrace m c det).ReadsIn lo hi ↔
      (IsCellCap m c ∧ det.nofCells.toNat < epEcapCellMax.toNat → c + 4 + 14 ≤ hi) ∧
        (IsRanCap m c ∧ det.nofRan.toNat < epEcapCellMax.toNat → c + 4 + 20 ≤ hi) := by
  rw [ecapTrace, readsIn_handler low next]
  by_cases cell : IsCellCap m c
  · have other : ¬ IsRanCap m c := fun ran => ranCap_ne_cellCap (ran.symm.trans cell)
    rw [if_pos cell, and_iff_left fun token => absurd token.1 other]
    by_cases full : det.nofCells ≥ epEcapCellMax
    · have none := Nat.not_lt.mpr (UInt32.le_iff_toNat_le.mp full)
      rw [if_pos full]
      exact iff_of_true (Trace.readsIn_nil lo hi) fun token => absurd token.2 none
    · have room := UInt32.lt_iff_toNat_lt.mp (UInt32.not_le.mp full)
      rw [if_neg full, imp_iff_right ⟨cell, room⟩]
      simp only [Trace.readsIn_append, Code.readsIn_loadTrace]
      omega
  rw [if_neg cell, and_iff_right fun token => absurd token.1 cell]
  by_cases ran : IsRanCap m c
  · rw [if_pos ran]
    by_cases full : det.nofRan ≥ epEcapCellMax
    · have none := Nat.not_lt.mpr (UInt32.le_iff_toNat_le.mp full)
      rw [if_pos full]
      exact iff_of_true (Trace.readsIn_nil lo hi) fun token => absurd token.2 none
    · have room := UInt32.lt_iff_toNat_lt.mp (UInt32.not_le.mp full)
      rw [if_neg full, imp_iff_right ⟨ran, room⟩]
      simp only [Trace.readsIn_append, Code.readsIn_loadTrace]
      omega
  · rw [if_neg ran]
    exact iff_of_true (Trace.readsIn_nil lo hi) fun token => absurd token.1 ran

end Handlers

section Parsers
variable {b : Nat} {size : UInt32}

theorem readsIn_body {σ : Type} {strict : Bool} {step : Nat → σ → σ} {tr : Nat → σ → Trace}
    {s : σ} {lo hi c : Nat} (b n : Nat) :
    Trace.ReadsIn (.enter b n :: loopTrace (m.walker strict hi) step tr c s) lo hi ↔
      (loopTrace (m.walker strict hi) step tr c s).ReadsIn lo hi :=
  Trace.readsIn_cons _ rfl lo hi

theorem eppRanEup_readsInside_iff (det : EpRanDet) :
    ReadsInside ((eppRanEup host b size (some det)).run m) b (b + size.toNat) ↔
      size.toNat < 12 ∨ HeadersFit (m.walker false (b + size.toNat)) (b + 12) ∧
        BodiesFit m (b + size.toNat) EpTLVType.ranMacSched.code 4
          ((m.walker false (b + size.toNat)).walk (b + 12)) := by
  by_cases short : size.toNat < 12
  · rw [readsInside_iff (run_eppRanEup_short m short _)]
    exact iff_of_true ((Trace.readsIn_cons _ rfl _ _).mpr (Trace.readsIn_nil _ _)) (.inl short)
  · have masks : (masksTrace b).ReadsIn b (b + size.toNat) := by
      simp only [masksTrace, Trace.readsIn_append, Code.readsIn_loadTrace]
      omega
    rw [readsInside_iff (run_eppRanEup m (by omega) det), Trace.readsIn_cons _ rfl,
      Trace.readsIn_append, and_iff_right masks,
      readsIn_plainLoop (Nat.le_add_right b 12) fun _ low next => setupTrace_readsIn low next,
      or_iff_right short]
    rfl

def SliceFits (m : Mem) (b : Nat) (size : UInt32) : Prop :=
  size.toNat < 8 ∨ HeadersFit (m.walker false (b + size.toNat)) (b + 8) ∧
    BodiesFit m (b + size.toNat) EpTLVType.ranSliceMacRes.code 2
      ((m.walker false (b + size.toNat)).walk (b + 8)) ∧
    BodiesFit m (b + size.toNat) EpTLVType.ranSliceMacSched.code 4
      ((m.walker false (b + size.toNat)).walk (b + 8))

theorem parseSlice_readsInside_iff {checked : Bool} (id : Option UInt64) (det : EpRanSliceDet) :
    ReadsInside ((parseSlice host checked b size id (some det)).run m) b (b + size.toNat) ↔
      SliceFits m b size := by
  by_cases short : size.toNat < 8
  · rw [readsInside_iff (run_parseSlice_short m short _ _)]
    exact iff_of_true ((Trace.readsIn_cons _ rfl _ _).mpr (Trace.readsIn_nil _ _)) (.inl short)
  · have value : (Code.assignTrace id b 8).ReadsIn b (b + size.toNat) :=
      Code.readsIn_assignTrace b 8 id le_rfl (by omega)
    rw [readsInside_iff (run_parseSlice m (by omega) id det), Trace.readsIn_cons _ rfl,
      Trace.readsIn_append, and_iff_right value,
      readsIn_plainLoop (Nat.le_add_right b 8) fun _ low next => sliceTrace_readsIn low next,
      SliceFits, or_iff_right short, forall₂_and]
    rfl

theorem eppCellMeasRep_readsInside_iff (rep : EpCellRep) :
    ReadsInside ((eppCellMeasRep host (some b) size (some rep)).run m) b (b + size.toNat) ↔
      HeadersFit (m.walker false (b + size.toNat)) b ∧
        BodiesFit m (b + size.toNat) EpTLVType.cellPrbReport.code 10
          ((m.walker false (b + size.toNat)).walk b) := by
  rw [readsInside_iff (run_eppCellMeasRep m b size rep), readsIn_body,
    readsIn_plainLoop le_rfl fun _ low next => prbTrace_readsIn low next]
  rfl

theorem eppCellMeasReq_readsInside_iff :
    ReadsInside ((eppCellMeasReq host (some b) size).run m) b (b + size.toNat) ↔
      HeadersFit (m.walker false (b + size.toNat)) b := by
  rw [readsInside_iff (run_eppCellMeasReq m b size), readsIn_body,
    readsIn_plainLoop (P := fun _ => True) le_rfl fun _ low next =>
      iff_true_intro (reqTrace_readsIn low next)]
  exact and_iff_left fun _ _ => trivial

theorem parseRrcs_readsInside_iff {α : Type} {code : UInt16} {body : Nat → Code α}
    {entry : Nat → α} {read : Nat → Trace} {need : Nat}
    (hbody : ∀ c, (body c).run m = some (entry c, read c)) (plain : ∀ c, (read c).Plain)
    (reads : ∀ {lo hi c : Nat}, lo ≤ c → ((read c).ReadsIn lo hi ↔ c + 4 + need ≤ hi))
    {zero : CountedArray α} (empty : zero.count = 0) (rep : CountedArray α) :
    ReadsInside ((parseRrcs host code body zero (some b) size (some rep)).run m) b
        (b + size.toNat) ↔
      HeadersFit (m.walker false (b + size.toNat)) b ∧
        BodiesFit m (b + size.toNat) code need
          (firstOf m code 8 ((m.walker false (b + size.toNat)).walk b)) := by
  have first := forall_visits_room (rrcStep m code entry) (fun c => m.be c = code)
    (fun c => c + 4 + need ≤ b + size.toNat) (fun rep => rep.count.toNat)
    (fun c rep => CountedArray.count_ite_push (m.be c = code) epUeRrcMeasMax rep (entry c))
    ((m.walker false (b + size.toNat)).walk b) zero
  rw [empty] at first
  rw [readsInside_iff (run_parseRrcs m hbody plain zero b size rep), readsIn_body,
    readsIn_loop le_rfl fun c rep low next => rrcTrace_readsIn low next (reads low) rep,
    bodiesFit_firstOf]
  exact and_congr_right fun _ => first

theorem eppUerepRep_readsInside_iff (nofUes maxUes : UInt32) (ues : Int → EpUeDetails) :
    ReadsInside ((eppUerepRep host (some b) size (some nofUes) maxUes (some ues)).run m) b
        (b + size.toNat) ↔
      HeadersFit (m.walker false (b + size.toNat)) b ∧
        BodiesFit m (b + size.toNat) EpTLVType.ueRepId.code 18
          ((m.walker false (b + size.toNat)).walk b) := by
  rw [readsInside_iff (run_eppUerepRep host m b size nofUes maxUes ues), readsIn_body,
    readsIn_loop le_rfl fun _ s low next => uerepTrace_readsIn low next maxUes s,
    forall_visits (uerepStep m maxUes) (P := fun c => IsUeToken m c → c + 4 + 18 ≤ _)]
  rfl

theorem eppEcapRep_readsInside_iff (det : EpEnbDet) :
    ReadsInside ((eppEcapRep host b size (some det)).run m) b (b + size.toNat) ↔
      HeadersFit (m.walker true (b + size.toNat)) b ∧
        BodiesFit m (b + size.toNat) EpTLVType.cellCap.code 14
          (firstOf m EpTLVType.cellCap.code 8 ((m.walker true (b + size.toNat)).walk b)) ∧
        BodiesFit m (b + size.toNat) EpTLVType.ranCap.code 20
          (firstOf m EpTLVType.ranCap.code 8 ((m.walker true (b + size.toNat)).walk b)) := by
  set os := (m.walker true (b + size.toNat)).walk b
  set empty : EpEnbDet := { det with nofCells := 0, nofRan := 0 }
  have cells := forall_visits_room (ecapStep m host) (IsCellCap m)
    (fun c => c + 4 + 14 ≤ b + size.toNat) (fun det => det.cellArray.count.toNat)
    (fun c det => (ecapStep_arrays m host c det).1 ▸
      CountedArray.count_ite_push (IsCellCap m c) epEcapCellMax det.cellArray (cellAt m c))
    os empty
  have rans := forall_visits_room (ecapStep m host) (IsRanCap m)
    (fun c => c + 4 + 20 ≤ b + size.toNat) (fun det => det.ranArray.count.toNat)
    (fun c det => (ecapStep_arrays m host c det).2 ▸
      CountedArray.count_ite_push (IsRanCap m c) epEcapCellMax det.ranArray (ranAt m host c))
    os empty
  rw [readsInside_iff (run_eppEcapRep m b size det), readsIn_body,
    readsIn_loop le_rfl fun _ det low next => ecapTrace_readsIn low next det, forall₂_and,
    bodiesFit_firstOf, bodiesFit_firstOf]
  exact and_congr_right fun _ => and_congr cells rans

end Parsers

/-- Each body parser fetches bytes of its body only exactly if the tokens it walks
over leave no byte or a whole header, and each token it recognises and stores has
its fixed fields inside the body, whatever length it declares. -/
theorem bodies_readsInside_iff (host : ByteOrder) (m : Mem) (b : Nat) (size : UInt32) :
    (∀ det : EpRanDet,
      ReadsInside ((eppRanEup host b size (some det)).run m) b (b + size.toNat) ↔
        size.toNat < 12 ∨ HeadersFit (m.walker false (b + size.toNat)) (b + 12) ∧
          BodiesFit m (b + size.toNat) EpTLVType.ranMacSched.code 4
            ((m.walker false (b + size.toNat)).walk (b + 12))) ∧
    (∀ (id : Option UInt64) (det : EpRanSliceDet),
      ReadsInside ((eppRanSup host b size id (some det)).run m) b (b + size.toNat) ↔
        SliceFits m b size) ∧
    (∀ (id : Option UInt64) (det : EpRanSliceDet),
      ReadsInside ((eppRanSaq host b size id (some det)).run m) b (b + size.toNat) ↔
        SliceFits m b size) ∧
    (∀ (id : Option UInt64) (det : EpRanSliceDet),
      ReadsInside ((eppRanSsq host b size id (some det)).run m) b (b + size.toNat) ↔
        SliceFits m b size) ∧
    (∀ rep : EpCellRep,
      ReadsInside ((eppCellMeasRep host (some b) size (some rep)).run m) b (b + size.toNat) ↔
        HeadersFit (m.walker false (b + size.toNat)) b ∧
          BodiesFit m (b + size.toNat) EpTLVType.cellPrbReport.code 10
            ((m.walker false (b + size.toNat)).walk b)) ∧
    (ReadsInside ((eppCellMeasReq host (some b) size).run m) b (b + size.toNat) ↔
      HeadersFit (m.walker false (b + size.toNat)) b) ∧
    (∀ rep : EpUeReport,
      ReadsInside ((eppUemeasRep host (some b) size (some rep)).run m) b (b + size.toNat) ↔
        HeadersFit (m.walker false (b + size.toNat)) b ∧
          BodiesFit m (b + size.toNat) EpTLVType.ueRrcReport.code 8
            (firstOf m EpTLVType.ueRrcReport.code 8
              ((m.walker false (b + size.toNat)).walk b))) ∧
    (∀ meas : EpUeMeas,
      ReadsInside ((eppUemeasReq host (some b) size (some meas)).run m) b (b + size.toNat) ↔
        HeadersFit (m.walker false (b + size.toNat)) b ∧
          BodiesFit m (b + size.toNat) EpTLVType.ueRrcMeas.code 12
            (firstOf m EpTLVType.ueRrcMeas.code 8
              ((m.walker false (b + size.toNat)).walk b))) ∧
    (∀ (nofUes maxUes : UInt32) (ues : Int → EpUeDetails),
      ReadsInside ((eppUerepRep host (some b) size (some nofUes) maxUes (some ues)).run m) b
          (b + size.toNat) ↔
        HeadersFit (m.walker false (b + size.toNat)) b ∧
          BodiesFit m (b + size.toNat) EpTLVType.ueRepId.code 18
            ((m.walker false (b + size.toNat)).walk b)) ∧
    (∀ det : EpEnbDet,
      ReadsInside ((eppEcapRep host b size (some det)).run m) b (b + size.toNat) ↔
        HeadersFit (m.walker true (b + size.toNat)) b ∧
          BodiesFit m (b + size.toNat) EpTLVType.cellCap.code 14
            (firstOf m EpTLVType.cellCap.code 8 ((m.walker true (b + size.toNat)).walk b)) ∧
          BodiesFit m (b + size.toNat) EpTLVType.ranCap.code 20
            (firstOf m EpTLVType.ranCap.code 8
              ((m.walker true (b + size.toNat)).walk b))) := by
  have report {lo hi c : Nat} (low : lo ≤ c) :
      (rrcReportReads c).ReadsIn lo hi ↔ c + 4 + 8 ≤ hi := by
    simp only [rrcReportReads, Trace.readsIn_append, Code.readsIn_loadTrace]
    omega
  have meas {lo hi c : Nat} (low : lo ≤ c) : (rrcMeasReads c).ReadsIn lo hi ↔ c + 4 + 12 ≤ hi := by
    simp only [rrcMeasReads, Trace.readsIn_append, Code.readsIn_loadTrace]
    omega
  exact ⟨eppRanEup_readsInside_iff, parseSlice_readsInside_iff, parseSlice_readsInside_iff,
    parseSlice_readsInside_iff, eppCellMeasRep_readsInside_iff, eppCellMeasReq_readsInside_iff,
    parseRrcs_readsInside_iff (run_rrcReportBody m) rrcReportReads_plain report rfl,
    parseRrcs_readsInside_iff (run_rrcMeasBody m) rrcMeasReads_plain meas rfl,
    eppUerepRep_readsInside_iff, eppEcapRep_readsInside_iff⟩

/-- A report token without body is read beyond the four bytes of the area, and so
is the length of a token of which one byte is there. -/
theorem cutTokens_not_readsInside :
    ¬ ReadsInside ((eppCellMeasRep .little (some 0) 4 (some .zero)).run
        (Mem.ofBytes [1, 2, 0, 0])) 0 (0 + (4 : UInt32).toNat) ∧
      ¬ ReadsInside ((eppCellMeasReq .little (some 0) 1).run (Mem.ofBytes [1])) 0
        (0 + (1 : UInt32).toNat) := by
  refine ⟨fun h => ?_, fun h => ?_⟩
  · obtain ⟨r, es, hrun, inside⟩ := h
    have run : ((eppCellMeasRep .little (some 0) 4 (some .zero)).run
        (Mem.ofBytes [1, 2, 0, 0])).map (fun r => decide (4 ∈ r.2.loads)) = some true := by
      decide +kernel
    rw [hrun] at run
    exact absurd (inside 4 (of_decide_eq_true (Option.some.inj run))).2 (by decide)
  · obtain ⟨r, es, hrun, inside⟩ := h
    have run : ((eppCellMeasReq .little (some 0) 1).run (Mem.ofBytes [1])).map
        (fun r => decide (2 ∈ r.2.loads)) = some true := by
      decide +kernel
    rw [hrun] at run
    exact absurd (inside 2 (of_decide_eq_true (Option.some.inj run))).2 (by decide)

end Emproto
