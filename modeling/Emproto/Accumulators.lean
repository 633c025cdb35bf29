import Emproto.EnbCapsRoundTrip
import Emproto.UeMeas

/-! Token handlers that collect entries. Whatever tokens they are given, in whatever
memory each, they keep the first entries of a kind and drop the others. -/

namespace Emproto

/-- The record after a handler was given tokens one after another. A token is a memory
and an address; nobody looks at the status of the handler. -/
def feed {σ : Type} (handler : Nat → σ → Code (Int × σ)) : List (Mem × Nat) → σ → Option σ
  | [], s => some s
  | token :: tokens, s =>
    ((handler token.2 s).result token.1).bind fun r => feed handler tokens r.2

def found {α : Type} (decode : Mem → Nat → Option α) (tokens : List (Mem × Nat)) : List α :=
  tokens.filterMap fun token => decode token.1 token.2

section Accumulate
variable {σ α : Type} (handler : Nat → σ → Code (Int × σ)) (arr : σ → CountedArray α)
  (cap : UInt32) (decode : Mem → Nat → Option α)

def Appends : Prop :=
  ∀ m c s, ∃ status s', (handler c s).result m = some (status, s') ∧
    arr s' = ((decode m c).elim (arr s) fun x => (arr s).push cap x)

/-- After every part of the sequence the array has as many entries as were found, up to the
capacity, each of them is what was found in its place, and it stays that to the end. -/
def KeepsFirst (tokens : List (Mem × Nat)) : Prop :=
  ∀ s, (arr s).count = 0 → ∀ before later, tokens = before ++ later →
    ∃ t u, feed handler before s = some t ∧ feed handler tokens s = some u ∧
      (arr t).count.toNat = min cap.toNat (found decode before).length ∧
      (∀ i < (arr t).count.toNat, (found decode before)[i]? = some ((arr t).entry i)) ∧
      ∀ i < (arr t).count.toNat, (arr u).entry i = (arr t).entry i

/-- The array depends on the tokens it is made of and on no other part of the record. -/
def Isolated (tokens : List (Mem × Nat)) : Prop :=
  ∀ s s' tokens' t t', arr s = arr s' → found decode tokens = found decode tokens' →
    feed handler tokens s = some t → feed handler tokens' s' = some t' → arr t = arr t'

variable {handler arr cap decode}

theorem Appends.feed (appends : Appends handler arr cap decode) (tokens : List (Mem × Nat))
    (s : σ) :
    ∃ t, Emproto.feed handler tokens s = some t ∧
      arr t = (found decode tokens).foldl (CountedArray.push cap) (arr s) := by
  induction tokens generalizing s with
  | nil => exact ⟨s, rfl, rfl⟩
  | cons token tokens ih =>
    obtain ⟨status, s', handled, appended⟩ := appends token.1 token.2 s
    obtain ⟨t, rest, collected⟩ := ih s'
    refine ⟨t, ?_, ?_⟩
    · rw [Emproto.feed, handled]
      exact rest
    · rw [collected, appended, found, found, List.filterMap_cons]
      cases decode token.1 token.2 <;> rfl

variable {g : α → α} {tokens : List (Mem × Nat)}

theorem found_map (tokens : List (Mem × Nat)) :
    found (fun m c => (decode m c).map g) tokens = (found decode tokens).map g := by
  rw [found, found, List.map_filterMap]

theorem Appends.keepsFirst_iff
    (appends : Appends handler arr cap fun m c => (decode m c).map g)
    (empty : ∃ s, (arr s).count = 0) :
    KeepsFirst handler arr cap decode tokens ↔
      ∀ x ∈ (found decode tokens).take cap.toNat, g x = x := by
  apply Iff.intro
  · intro keeps x hx
    obtain ⟨s, empty⟩ := empty
    obtain ⟨t, -, fed, -, count, entries, -⟩ := keeps s empty tokens [] (List.append_nil _).symm
    obtain ⟨t', fed', collected⟩ := appends.feed tokens s
    cases fed.symm.trans fed'
    rw [found_map] at collected
    obtain ⟨i, inside, rfl⟩ := List.mem_iff_getElem.mp hx
    rw [List.length_take] at inside
    have used : i < (arr t).count.toNat := count ▸ inside
    have decoded := entries i used
    rw [collected] at used
    have handled := CountedArray.entry_foldl_push empty _ used
    rw [← collected, List.getElem?_map, decoded] at handled
    have entry : (found decode tokens)[i] = (arr t).entry i :=
      Option.some.inj ((List.getElem?_eq_getElem _).symm.trans decoded)
    rw [List.getElem_take, entry]
    exact Option.some.inj handled
  · intro same s empty before later split
    obtain ⟨t, fed, collected⟩ := appends.feed before s
    obtain ⟨u, fed', collected'⟩ := appends.feed tokens s
    have count : (arr t).count.toNat = min cap.toNat (found decode before).length := by
      rw [collected, CountedArray.count_foldl_push empty, found_map, List.length_map]
    refine ⟨t, u, fed, fed', count, fun i used => ?_, fun i used => ?_⟩
    · rw [collected] at used
      have handled := CountedArray.entry_foldl_push empty _ used
      rw [← collected, found_map, List.getElem?_map] at handled
      obtain ⟨x, decoded, value⟩ := Option.map_eq_some_iff.mp handled
      have first : x ∈ (found decode tokens).take cap.toNat := by
        rw [← collected, count] at used
        refine List.mem_of_getElem? (i := i) ?_
        rw [List.getElem?_take_of_lt (by omega), split, found, List.filterMap_append,
          List.getElem?_append_left (by rw [← found]; omega)]
        exact decoded
      rw [decoded, ← value, same x first]
    · rw [collected] at used
      rw [collected', collected, split, found, List.filterMap_append]
      exact CountedArray.entry_foldl_push_append empty _ _ used

theorem Appends.map_id (appends : Appends handler arr cap decode) :
    Appends handler arr cap fun m c => (decode m c).map id := by
  simpa only [Option.map_id_fun, id] using appends

theorem Appends.keepsFirst (appends : Appends handler arr cap decode)
    (empty : ∃ s, (arr s).count = 0) (tokens : List (Mem × Nat)) :
    KeepsFirst handler arr cap decode tokens :=
  (appends.map_id.keepsFirst_iff empty).mpr fun _ _ => rfl

theorem Appends.isolated (appends : Appends handler arr cap fun m c => (decode m c).map g) :
    Isolated handler arr decode tokens := by
  intro s s' tokens' t t' same finds fed fed'
  obtain ⟨u, hu, collected⟩ := appends.feed tokens s
  obtain ⟨u', hu', collected'⟩ := appends.feed tokens' s'
  cases fed.symm.trans hu
  cases fed'.symm.trans hu'
  rw [collected, collected', found_map, found_map, same, finds]

end Accumulate

/-! The three handlers. -/

def decodeRrcReport (m : Mem) (c : Nat) : Option EpUeRRCReport :=
  if m.be c = EpTLVType.ueRrcReport.code then some (rrcReportAt m c) else none

def decodeRrcMeas (m : Mem) (c : Nat) : Option EpUeRRCMeas :=
  if m.be c = EpTLVType.ueRrcMeas.code then some (rrcMeasAt m c) else none

def decodeCell (m : Mem) (c : Nat) : Option EpCellDet :=
  if IsCellCap m c then some (cellAt m c) else none

/-- The RAN entry that a token has on the wire. The handler cuts its number of slices. -/
def decodeRan (m : Mem) (c : Nat) : Option EpRanDet :=
  if IsRanCap m c then
    some {
      pci := m.be (c + 4)
      l1Mask := m.be (c + 6)
      l2Mask := m.be (c + 10)
      l3Mask := m.be (c + 14)
      sliceSched := m.be (c + 18)
      maxSlices := m.be (c + 22) }
  else none

section Handlers
variable {host : ByteOrder}

theorem elim_push {α : Type} {p : Prop} [Decidable p] (a : CountedArray α) (cap : UInt32) (x : α) :
    (if p then some x else none).elim a (fun x => a.push cap x) =
      if p then a.push cap x else a := by
  split <;> rfl

theorem eppUemeasRepTLV_appends :
    Appends (eppUemeasRepTLV host) id epUeRrcMeasMax decodeRrcReport := fun m c rep =>
  ⟨_, _, Code.result_of m (run_parseRrcTLV m (run_rrcReportBody m) rrcReportReads_plain c rep),
    (elim_push _ _ _).symm⟩

theorem eppUemeasReqTLV_appends :
    Appends (eppUemeasReqTLV host) id epUeRrcMeasMax decodeRrcMeas := fun m c meas =>
  ⟨_, _, Code.result_of m (run_parseRrcTLV m (run_rrcMeasBody m) rrcMeasReads_plain c meas),
    (elim_push _ _ _).symm⟩

theorem eppEcapSingleTLV_appends_cells :
    Appends (eppEcapSingleTLV host) EpEnbDet.cellArray epEcapCellMax decodeCell := fun m c det =>
  ⟨_, _, Code.result_of m (run_eppEcapSingleTLV m c det),
    (ecapStep_arrays m host c det).1.trans (elim_push _ _ _).symm⟩

/-- The handler appends the entry with the number of slices cut. -/
theorem eppEcapSingleTLV_appends_rans :
    Appends (eppEcapSingleTLV host) EpEnbDet.ranArray epEcapCellMax
      fun m c => (decodeRan m c).map (EpRanDet.cut host) := fun m c det => by
  have handled : (if IsRanCap m c then some (ranAt m host c) else none) =
      (decodeRan m c).map (EpRanDet.cut host) := by
    rw [decodeRan]
    split <;> rfl
  refine ⟨_, _, Code.result_of m (run_eppEcapSingleTLV m c det), ?_⟩
  dsimp only
  rw [← handled, elim_push]
  exact (ecapStep_arrays m host c det).2

end Handlers

/-- Measurements, cells and RAN entries are collected from the sequence up to eight, the first
ones of each, for good, and cells have no effect on the RAN entries, nor these on the cells. -/
structure DecodersKeepFirst (host : ByteOrder) (tokens : List (Mem × Nat)) : Prop where
  reports : KeepsFirst (eppUemeasRepTLV host) id epUeRrcMeasMax decodeRrcReport tokens
  requests : KeepsFirst (eppUemeasReqTLV host) id epUeRrcMeasMax decodeRrcMeas tokens
  cells : KeepsFirst (eppEcapSingleTLV host) EpEnbDet.cellArray epEcapCellMax decodeCell tokens
  rans : KeepsFirst (eppEcapSingleTLV host) EpEnbDet.ranArray epEcapCellMax decodeRan tokens
  cellsApart : Isolated (eppEcapSingleTLV host) EpEnbDet.cellArray decodeCell tokens
  ransApart : Isolated (eppEcapSingleTLV host) EpEnbDet.ranArray decodeRan tokens

theorem rans_keepFirst_iff (host : ByteOrder) (tokens : List (Mem × Nat)) :
    KeepsFirst (eppEcapSingleTLV host) EpEnbDet.ranArray epEcapCellMax decodeRan tokens ↔
      (host = .little →
        ∀ ran ∈ (found decodeRan tokens).take epEcapCellMax.toNat, ran.maxSlices = 0) := by
  rw [eppEcapSingleTLV_appends_rans.keepsFirst_iff ⟨.zero, rfl⟩]
  simp only [EpRanDet.cut_eq_iff]
  exact ⟨fun h little ran mem => h ran mem little, fun h ran mem little => h little ran mem⟩

/-- The first entries are kept as they are on the wire exactly if a little-endian host finds no
number of slices in the RAN tokens that it stores. -/
theorem decoders_keepFirst_iff (host : ByteOrder) (tokens : List (Mem × Nat)) :
    DecodersKeepFirst host tokens ↔
      (host = .little →
        ∀ ran ∈ (found decodeRan tokens).take epEcapCellMax.toNat, ran.maxSlices = 0) := by
  rw [← rans_keepFirst_iff]
  apply Iff.intro
  · exact DecodersKeepFirst.rans
  · exact fun rans => {
      reports := eppUemeasRepTLV_appends.keepsFirst ⟨.zero, rfl⟩ tokens
      requests := eppUemeasReqTLV_appends.keepsFirst ⟨.zero, rfl⟩ tokens
      cells := eppEcapSingleTLV_appends_cells.keepsFirst ⟨.zero, rfl⟩ tokens
      rans := rans
      cellsApart := eppEcapSingleTLV_appends_cells.map_id.isolated
      ransApart := eppEcapSingleTLV_appends_rans.isolated }

/-- The entry for a RAN token with four slices has none. -/
theorem ranToken_not_keptFirst :
    ¬ DecodersKeepFirst .little [(Mem.ofBytes (ranToken ⟨3, 1, 1, 0, 1, 4⟩).bytes, 0)] := by
  intro keeps
  have slices := (rans_keepFirst_iff _ _).mp keeps.rans rfl ⟨3, 1, 1, 0, 1, 4⟩ (by decide +kernel)
  exact absurd slices (by decide)

end Emproto
