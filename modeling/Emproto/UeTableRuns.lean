import Emproto.SlotHistory
import Emproto.UeReportRoundTrip

/-! The UE table of a caller over whole runs of received reports. Whatever bytes the reports
hold, the table is the slot table after all their stores, one report after the other. -/

namespace Emproto

/-- A message at `b` that is parsed as one of `size` bytes. -/
structure Arrival where
  mem : Mem
  b : Nat
  size : UInt32

def receiveUeReport (host : ByteOrder) (maxUes : UInt32) (s : (Int → EpUeDetails) × UInt32)
    (r : Arrival) : Option ((Int → EpUeDetails) × UInt32) :=
  match (eppTriggerUerepRep host (some r.b) r.size (some s.2) maxUes (some s.1)).result r.mem with
  | some (_, some ues, some nofUes) => some (ues, nofUes)
  | _ => none

def receiveUeReports (host : ByteOrder) (maxUes : UInt32) (rs : List Arrival)
    (s : (Int → EpUeDetails) × UInt32) : Option ((Int → EpUeDetails) × UInt32) :=
  rs.foldlM (receiveUeReport host maxUes) s

namespace Arrival
variable (r : Arrival)

def ueOffsets : List Nat :=
  (r.mem.walker false (r.b + 24 + 3 + r.size.toNat)).walk (r.b + 24 + 3)

/-- RNTI and identity of each UE identity token of the report. -/
def ueBindings : List (UInt16 × UeIdentity) := bindings r.mem r.ueOffsets

def ueStep (maxUes : UInt32) (s : (Int → EpUeDetails) × UInt32) : (Int → EpUeDetails) × UInt32 :=
  runSteps (uerepStep r.mem maxUes) r.ueOffsets s

end Arrival

def ueRun (maxUes : UInt32) (rs : List Arrival) (s : (Int → EpUeDetails) × UInt32) :
    (Int → EpUeDetails) × UInt32 :=
  rs.foldl (fun s r => r.ueStep maxUes s) s

section Runs
variable {maxUes : UInt32} {r : Arrival} {rs : List Arrival} {s : (Int → EpUeDetails) × UInt32}

theorem receiveUeReport_eq (host : ByteOrder) :
    receiveUeReport host maxUes s r = some (r.ueStep maxUes s) := by
  have parsed := Code.result_of r.mem
    (run_eppUerepRep host r.mem (r.b + 24 + 3) r.size s.2 maxUes s.1)
  rw [receiveUeReport, eppTriggerUerepRep, parsed]
  rfl

theorem receiveUeReports_eq (host : ByteOrder) :
    receiveUeReports host maxUes rs s = some (ueRun maxUes rs s) := by
  have each : receiveUeReport host maxUes = fun s r => pure (r.ueStep maxUes s) := by
    funext s r
    exact receiveUeReport_eq host
  rw [receiveUeReports, each, List.foldlM_pure]
  rfl

/-- The table after a run of reports is the slot table after all their stores. -/
theorem ueTable_ueRun :
    ueTable maxUes.toNat (ueRun maxUes rs s).1 =
      (ueTable maxUes.toNat s.1).puts 0 (rs.flatMap Arrival.ueBindings) := by
  induction rs generalizing s with
  | nil => rfl
  | cons r rs ih =>
    rw [List.flatMap_cons, SlotTable.puts_append]
    calc
      _ = (ueTable maxUes.toNat (r.ueStep maxUes s).1).puts 0 (rs.flatMap Arrival.ueBindings) := ih
      _ = _ := by rw [Arrival.ueStep, ueTable_runSteps, Arrival.ueBindings]

theorem ueRun_preserves {P : (Int → EpUeDetails) × UInt32 → Prop}
    (step : ∀ m c s, P s → P (uerepStep m maxUes c s)) (hs : P s) : P (ueRun maxUes rs s) := by
  induction rs generalizing s with
  | nil => exact hs
  | cons r rs ih => exact ih (runSteps_preserves _ (step r.mem) _ hs)

theorem ueRun_state (i : Int) : ((ueRun maxUes rs s).1 i).state = (s.1 i).state :=
  ueRun_preserves (P := fun s' => (s'.1 i).state = (s.1 i).state)
    (fun _ _ s' h => (uerepStep_state maxUes s' i).trans h) rfl

theorem uerepStep_outside {m : Mem} {c : Nat} {i : Int} (outside : i < -1 ∨ maxUes.toNat ≤ i) :
    (uerepStep m maxUes c s).1 i = s.1 i := by
  have other : i ≠ (pickSlot s.1 (tokenRnti m c) maxUes.toNat 0 (-1) 0).1 := by
    rw [pickSlot_select]
    cases hs : (ueTable maxUes.toNat s.1).select 0 (tokenRnti m c) with
    | none =>
      dsimp only
      omega
    | some x =>
      have inside : x < maxUes.toNat := (SlotTable.select_eq_some hs).1
      dsimp only
      omega
  unfold uerepStep
  split
  · exact Function.update_of_ne other _ _
  · rfl

theorem ueRun_outside {i : Int} (outside : i < -1 ∨ maxUes.toNat ≤ i) :
    (ueRun maxUes rs s).1 i = s.1 i :=
  ueRun_preserves (P := fun s' => s'.1 i = s.1 i)
    (fun _ _ _ h => (uerepStep_outside outside).trans h) rfl

theorem ueRun_key (i : Nat) :
    ((ueRun maxUes rs s).1 i).rnti =
      ((ueTable maxUes.toNat s.1).puts 0 (rs.flatMap Arrival.ueBindings)).key i :=
  congrArg (fun t : SlotTable UInt16 UeIdentity => t.key i) ueTable_ueRun

theorem ueRun_val (i : Nat) :
    ((ueRun maxUes rs s).1 i).identity =
      ((ueTable maxUes.toNat s.1).puts 0 (rs.flatMap Arrival.ueBindings)).val i :=
  congrArg (fun t : SlotTable UInt16 UeIdentity => t.val i) ueTable_ueRun

theorem EpUeDetails.eq_of_parts {u v : EpUeDetails} (rnti : u.rnti = v.rnti)
    (identity : u.identity = v.identity) (state : u.state = v.state) : u = v := by
  cases u
  cases v
  simp_all [EpUeDetails.identity]

end Runs

/-- UEs enter a table without UEs first come, first served: over any run of reports the occupied
slots are, in order, those of the first RNTIs that are not zero, as many as there are slots, each
with the identity reported for it last. The others are stored too, in the entry before the
table. -/
theorem ueReports_firstCome (host : ByteOrder) (maxUes : UInt32) (rs : List Arrival)
    (ues : Int → EpUeDetails) (nofUes : UInt32)
    (vacant : ∀ i < maxUes.toNat, (ues (i : Nat)).rnti = 0) :
    ∃ ues' nofUes', receiveUeReports host maxUes rs (ues, nofUes) = some (ues', nofUes') ∧
      (occupied maxUes.toNat ues').map EpUeDetails.binding =
        ((SlotTable.firstKeys 0 ((rs.flatMap Arrival.ueBindings).map Prod.fst)).take
            maxUes.toNat).filterMap fun rnti =>
          ((rs.flatMap Arrival.ueBindings).reverse.lookup rnti).map fun identity =>
            (rnti, identity) := by
  refine ⟨(ueRun maxUes rs (ues, nofUes)).1, _, receiveUeReports_eq host, ?_⟩
  rw [occupied_binding, ueTable_ueRun]
  exact SlotTable.entries_puts_vacant (compact_vacant vacant) _

def twoReports : List Arrival :=
  [⟨Mem.ofBytes (List.replicate 27 0 ++ encode [ueToken ⟨1, 5, 1, 1, 0⟩, ueToken ⟨1, 6, 2, 2, 0⟩]),
      0, 46⟩,
    ⟨Mem.ofBytes (List.replicate 27 0 ++ encode [ueToken ⟨1, 7, 3, 3, 0⟩, ueToken ⟨1, 5, 9, 9, 0⟩]),
      0, 46⟩]

theorem ueReports_firstCome_two :
    (∀ i < (2 : UInt32).toNat, EpUeDetails.zero.rnti = 0) ∧
      ∃ ues' nofUes', receiveUeReports .little 2 twoReports (fun _ => .zero, 0) =
          some (ues', nofUes') ∧
        (occupied 2 ues').map EpUeDetails.binding = [(5, ⟨1, 9, 9⟩), (6, ⟨1, 2, 2⟩)] := by
  obtain ⟨ues', nofUes', received, listed⟩ :=
    ueReports_firstCome .little 2 twoReports (fun _ => .zero) 0 fun _ _ => rfl
  refine ⟨fun _ _ => rfl, ues', nofUes', received, listed.trans ?_⟩
  decide +kernel

/-- No UE loses its slot: over any run of reports, whatever they hold and whatever the table
held, a slot in use keeps its RNTI, and its identity is the one reported last for it if no RNTI
had two slots. No state changes, and no entry but those of the table and the one before it. -/
theorem ueReports_stable (host : ByteOrder) (maxUes : UInt32) (rs : List Arrival)
    (ues : Int → EpUeDetails) (nofUes : UInt32) :
    ∃ ues' nofUes', receiveUeReports host maxUes rs (ues, nofUes) = some (ues', nofUes') ∧
      (∀ i < maxUes.toNat, (ues (i : Nat)).rnti ≠ 0 → (ues' i).rnti = (ues i).rnti) ∧
      (∀ i : Int, (ues' i).state = (ues i).state) ∧
      (∀ i : Int, i < -1 ∨ maxUes.toNat ≤ i → ues' i = ues i) ∧
      ((ueTable maxUes.toNat ues).Distinct 0 →
        (ueTable maxUes.toNat ues').Distinct 0 ∧
        ∀ i < maxUes.toNat, (ues (i : Nat)).rnti ≠ 0 →
          (ues' i).identity =
            ((rs.flatMap Arrival.ueBindings).reverse.lookup (ues i).rnti).getD
              (ues i).identity) := by
  refine ⟨(ueRun maxUes rs (ues, nofUes)).1, _, receiveUeReports_eq host, ?_, ueRun_state,
    fun i => ueRun_outside, ?_⟩
  · intro i _ used
    exact (ueRun_key i).trans (SlotTable.key_puts_used used _)
  · intro distinct
    refine ⟨?_, fun i hi used => ?_⟩
    · rw [ueTable_ueRun]
      exact SlotTable.puts_distinct distinct _
    · exact (ueRun_val i).trans (SlotTable.val_puts_used distinct hi used _)

/-- Reports that arrive once more change nothing: after the same run of reports again every slot
has the RNTI it had and every slot in use the very entry it had, whatever the reports hold and
whatever the table held before. -/
theorem ueReports_again (host : ByteOrder) (maxUes : UInt32) (rs : List Arrival)
    (s : (Int → EpUeDetails) × UInt32) :
    ∃ once twice, receiveUeReports host maxUes rs s = some once ∧
      receiveUeReports host maxUes (rs ++ rs) s = some twice ∧
      ∀ i < maxUes.toNat, (twice.1 (i : Nat)).rnti = (once.1 i).rnti ∧
        ((once.1 i).rnti ≠ 0 → twice.1 i = once.1 i) := by
  refine ⟨_, _, receiveUeReports_eq host, receiveUeReports_eq host, fun i hi => ?_⟩
  set ops := rs.flatMap Arrival.ueBindings
  set t := ueTable maxUes.toNat s.1
  have stores : (rs ++ rs).flatMap Arrival.ueBindings = ops ++ ops := List.flatMap_append
  have rnti : ((ueRun maxUes (rs ++ rs) s).1 i).rnti = ((ueRun maxUes rs s).1 i).rnti := by
    rw [ueRun_key, ueRun_key, stores, SlotTable.puts_append, SlotTable.puts_again_key]
  refine ⟨rnti, fun used => ?_⟩
  rw [ueRun_key] at used
  refine EpUeDetails.eq_of_parts rnti ?_ ((ueRun_state i).trans (ueRun_state i).symm)
  rw [ueRun_val, ueRun_val, stores, SlotTable.puts_append]
  exact SlotTable.puts_again_val (t := t) ops hi used

/-! A report split into several. -/

/-- The table after a token for the UE `ue`. -/
def enterUe (maxUes : UInt32) (table : Int → EpUeDetails) (ue : EpUeDetails) :
    Int → EpUeDetails :=
  let j := (pickSlot table ue.rnti maxUes.toNat 0 (-1) 0).1
  Function.update table j { ue with state := (table j).state }

/-- The formatter is called for the UEs `us`, for which it has room, what it writes arrives as `r`,
and nothing behind it reads as the identity of a UE. -/
def Reports (us : List EpUeDetails) (r : Arrival) : Prop :=
  ∃ (host : ByteOrder) (b : Nat) (size : UInt32) (ids : EpHdrId) (nofUes maxUes : UInt32)
    (ues : Nat → EpUeDetails) (m : Mem) (es : Trace),
    us = reported nofUes maxUes ues ∧ 27 + 23 * us.length ≤ size.toNat ∧
    27 + 23 * us.length < 2147483648 ∧
    (epfTriggerUerepRep host (some b) size ids nofUes maxUes (some ues)).run m =
      some ((r.size.toNat : Int), es) ∧
    (m.patch es.stores).Received b r.mem r.b r.size.toNat ∧
    trailing r.mem r.b r.size.toNat = []

section Split
variable {maxUes : UInt32} {m : Mem} {c : Nat} {us : List EpUeDetails} {r : Arrival}
  {s : (Int → EpUeDetails) × UInt32}

theorem uerepStep_entered {ue : EpUeDetails} (h : m.Holds c (ueToken ue).bytes) :
    (uerepStep m maxUes c s).1 = enterUe maxUes s.1 ue := by
  obtain ⟨type, rnti, identity⟩ := token_of_ueToken h
  simp only [tokenIdentity, EpUeDetails.identity, UeIdentity.mk.injEq] at identity
  obtain ⟨plmn, imsi, tmsi⟩ := identity
  rw [uerepStep, if_pos type]
  simp only [rnti, plmn, imsi, tmsi]
  rfl

theorem runSteps_entered (h : m.Holds c (encode (us.map ueToken))) :
    (runSteps (uerepStep m maxUes) (starts c (us.map ueToken)) s).1 =
      us.foldl (enterUe maxUes) s.1 := by
  induction us generalizing c s with
  | nil => rfl
  | cons u us ih =>
    obtain ⟨first, rest⟩ := Mem.holds_append.mp h
    rw [List.map_cons, starts, runSteps_cons, ih rest, uerepStep_entered first]
    rfl

theorem runSteps_noUes {os : List Nat} (none : bindings m os = []) :
    (runSteps (uerepStep m maxUes) os s).1 = s.1 := by
  induction os generalizing s with
  | nil => rfl
  | cons o os ih =>
    by_cases h : IsUeToken m o
    · rw [bindings_token os h] at none
      cases none
    · rw [bindings_other os h] at none
      rw [runSteps_cons, ih none, uerepStep_other m maxUes o s h]

theorem ueStep_entered {n : Nat} (held : r.mem.Holds (r.b + 27) (encode (us.map ueToken)))
    (hn : n = 27 + 23 * us.length) (hsize : r.size.toNat = n) (quiet : trailing r.mem r.b n = []) :
    (r.ueStep maxUes s).1 = us.foldl (enterUe maxUes) s.1 := by
  have length := encode_ueTokens_length us
  have stop : r.b + 27 + (encode (us.map ueToken)).length = r.b + n := by omega
  have walked : r.ueOffsets = starts (r.b + 27) (us.map ueToken) ++
      (r.mem.walker false (r.b + n + 27)).walk (r.b + n) := by
    rw [Arrival.ueOffsets, hsize, show r.b + 24 + 3 + n = r.b + n + 27 by omega,
      show r.b + 24 + 3 = r.b + 27 by omega, walk_encode held (by rw [if_neg (by decide)]; omega),
      stop]
  rw [Arrival.ueStep, walked, runSteps, List.foldl_append]
  exact (runSteps_noUes quiet).trans (runSteps_entered held)

theorem Reports.ueStep (arrived : Reports us r) :
    (r.ueStep maxUes s).1 = us.foldl (enterUe maxUes) s.1 := by
  obtain ⟨host, b, size, ids, nofUes, _, ues, m, es, rfl, room, bound, hrun, received, quiet⟩ :=
    arrived
  obtain ⟨ws, emits, holds⟩ := epfTriggerUerepRep_emits host b ids room bound
  obtain ⟨es', hrun', rfl⟩ := emits m
  obtain ⟨length, rfl⟩ := Prod.mk.inj (Option.some.inj (hrun.symm.trans hrun'))
  have size := Int.ofNat.inj length
  refine ueStep_entered ((holds m).received received ?_) size rfl quiet
  rw [encode_ueTokens_length, size]

theorem ueRun_reports {pieces : List (List EpUeDetails × Arrival)}
    (each : ∀ p ∈ pieces, Reports p.1 p.2) :
    (ueRun maxUes (pieces.map Prod.snd) s).1 =
      (pieces.flatMap Prod.fst).foldl (enterUe maxUes) s.1 := by
  induction pieces generalizing s with
  | nil => rfl
  | cons p ps ih =>
    obtain ⟨first, rest⟩ := List.forall_mem_cons.mp each
    rw [List.flatMap_cons, List.foldl_append, ← first.ueStep]
    exact ih rest

end Split

/-- A report split into several makes no difference: formatting a list of UEs in any pieces and
parsing what arrives of each leaves the very table that the report of all of them leaves, if there
is room for each message and nothing behind it reads as a UE. -/
theorem ueReports_split (host : ByteOrder) (maxUes : UInt32)
    (pieces : List (List EpUeDetails × Arrival)) (whole : Arrival)
    (each : ∀ p ∈ pieces, Reports p.1 p.2) (all : Reports (pieces.flatMap Prod.fst) whole)
    (s : (Int → EpUeDetails) × UInt32) :
    ∃ split once, receiveUeReports host maxUes (pieces.map Prod.snd) s = some split ∧
      receiveUeReports host maxUes [whole] s = some once ∧ split.1 = once.1 := by
  refine ⟨_, _, receiveUeReports_eq host, receiveUeReports_eq host, ?_⟩
  rw [ueRun_reports each]
  exact all.ueStep.symm

def sentReport (n : UInt32) (ues : Nat → EpUeDetails) : Arrival where
  mem := Mem.patch (fun _ => 0) ((((epfTriggerUerepRep .little (some 0) 96 ⟨1, 2, 3⟩ n n
    (some ues)).run fun _ => 0).map fun r => r.2.stores).getD [])
  b := 0
  size := 27 + 23 * n

def numberedUes (i : Nat) : EpUeDetails := ⟨0x222f93, 5 + UInt16.ofNat i, UInt64.ofNat i, 1, 0⟩

theorem ueReports_split_two :
    ∃ split once, receiveUeReports .big 3 [sentReport 1 numberedUes,
          sentReport 1 fun i => numberedUes (i + 1)] (fun _ => .zero, 0) = some split ∧
      receiveUeReports .big 3 [sentReport 2 numberedUes] (fun _ => .zero, 0) = some once ∧
      split.1 = once.1 := by
  have first : Reports [numberedUes 0] (sentReport 1 numberedUes) :=
    ⟨.little, 0, 96, ⟨1, 2, 3⟩, 1, 1, numberedUes, fun _ => 0, _, rfl, by decide, by decide, rfl,
      fun _ _ => rfl, by decide +kernel⟩
  have second : Reports [numberedUes 1] (sentReport 1 fun i => numberedUes (i + 1)) :=
    ⟨.little, 0, 96, ⟨1, 2, 3⟩, 1, 1, fun i => numberedUes (i + 1), fun _ => 0, _, rfl, by decide,
      by decide, rfl, fun _ _ => rfl, by decide +kernel⟩
  have both : Reports [numberedUes 0, numberedUes 1] (sentReport 2 numberedUes) :=
    ⟨.little, 0, 96, ⟨1, 2, 3⟩, 2, 2, numberedUes, fun _ => 0, _, rfl, by decide, by decide, rfl,
      fun _ _ => rfl, by decide +kernel⟩
  refine ueReports_split .big 3 [([numberedUes 0], sentReport 1 numberedUes),
    ([numberedUes 1], sentReport 1 fun i => numberedUes (i + 1))] _ ?_ both (fun _ => .zero, 0)
  rw [List.forall_mem_cons, List.forall_mem_singleton]
  exact ⟨first, second⟩

end Emproto
