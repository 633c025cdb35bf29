import Emproto.ReadBounds
import Emproto.TokenLoops

/-! Traces that leave nothing out: memories that agree on the bytes a run fetches give the same
run. With a bound on these bytes, what lies further off makes no difference. -/

namespace Emproto

/-- Memories that agree on the bytes that a run of the code fetches give the same run. -/
def Traced {α : Type} (c : Code α) : Prop :=
  ∀ (m m' : Mem) (r : α) (t : Trace), c.run m = some (r, t) → (∀ a ∈ t.loads, m' a = m a) →
    c.run m' = some (r, t)

namespace Traced
variable {α β : Type}

theorem pure (a : α) : Traced (Pure.pure a) := fun _ _ _ _ hrun _ => hrun

theorem crash : Traced (Code.crash : Code α) := fun _ _ _ _ hrun _ => hrun

theorem note (e : Event) : Traced (Code.note e) := fun _ _ _ _ hrun _ => hrun

theorem load {W : Type} [Word W] (host : ByteOrder) (p : Nat) :
    Traced (Code.load host p : Code W) := by
  intro m m' r t hrun same
  cases hrun
  have bytes : m'.slice p (Word.width W) = m.slice p (Word.width W) := by
    refine Mem.slice_congr fun i hi => same (p + i) ?_
    rw [Code.loads_loadTrace, List.mem_range'_1]
    omega
  rw [Code.run_load, Mem.word, Mem.word, bytes]

theorem bind {x : Code α} {f : α → Code β} (hx : Traced x) (hf : ∀ a, Traced (f a)) :
    Traced (x >>= f) := by
  intro m m' r t hrun same
  rw [Code.run_bind, Option.bind_eq_some_iff] at hrun
  obtain ⟨⟨a, s⟩, first, hrun⟩ := hrun
  rw [Option.map_eq_some_iff] at hrun
  obtain ⟨⟨r, u⟩, second, rfl, rfl⟩ := hrun
  rw [Trace.loads_append, List.forall_mem_append] at same
  have first' := hx m m' a s first same.1
  have second' := hf a (m.patch s.stores) (m'.patch s.stores) r u second fun p hp =>
    Mem.patch_congr s.stores (same.2 p hp)
  rw [Code.run_bind_of m' first', second']
  rfl

theorem ite {p : Prop} [Decidable p] {x y : Code α} (hx : Traced x) (hy : Traced y) :
    Traced (if p then x else y) := by
  split
  · exact hx
  · exact hy

theorem fetch {W : Type} [Word W] (host : ByteOrder) (p : Nat) :
    Traced (Code.fetch host p : Code W) := (load host p).bind fun _ => .pure _

theorem assign {value : Code α} (h : Traced value) (out : Option α) :
    Traced (Code.assign out value) := by
  cases out with
  | none => exact .pure none
  | some _ => exact h.bind fun v => .pure (some v)

theorem tokenLoop {σ : Type} {host : ByteOrder} {strict checked : Bool}
    {handle : Nat → σ → Code (Int × σ)} {fin : Nat} (each : ∀ c s, Traced (handle c s))
    (fuel c : Nat) (s : σ) : Traced (tokenLoop host strict checked handle fin fuel c s) := by
  induction fuel generalizing c s with
  | zero => exact .pure _
  | succ fuel ih =>
    refine .ite (.bind (.load host _) fun length => .ite (.pure _) ?_) (.pure _)
    refine .bind (each c s) fun r => .ite (.pure _) ?_
    exact .bind (.load host _) fun _ => ih _ _

end Traced

section Handlers
variable {host : ByteOrder} (c : Nat)

theorem rntiCopy_traced (n i : Nat) (rntis : Nat → UInt16) :
    Traced (rntiCopy host n i c rntis) := by
  induction n generalizing i c rntis with
  | zero => exact .pure rntis
  | succ n ih => exact .bind (.load host c) fun _ => .bind (.note _) fun _ => ih _ _ _

theorem eppTLVRntiReport_traced (rntis : Nat → UInt16) (nofRntis : UInt32) :
    Traced (eppTLVRntiReport host c rntis nofRntis) :=
  .bind (.load host _) fun _ => .bind (rntiCopy_traced _ _ _ _) fun _ => .pure _

theorem eppRanTLV_traced (det : Option EpRanSliceDet) : Traced (eppRanTLV host c det) := by
  refine .bind (.note _) fun _ => .bind (.load host c) fun type => ?_
  cases det with
  | none => exact .ite .crash (.ite .crash (.ite .crash (.pure _)))
  | some det =>
    refine .ite ?_ (.ite ?_ (.ite ?_ (.pure _)))
    · exact .bind (eppTLVRntiReport_traced c _ _) fun _ => .ite (.pure _) (.pure _)
    · exact .bind (.load host _) fun _ => .pure _
    · exact .bind (.load host _) fun _ => .pure _

theorem eppRanEupTLV_traced (det : EpRanDet) : Traced (eppRanEupTLV host c det) :=
  .bind (.note _) fun _ => .bind (.load host c) fun _ =>
    .ite (.bind (.load host _) fun _ => .pure _) (.pure _)

theorem eppEcapSingleTLV_traced (det : EpEnbDet) : Traced (eppEcapSingleTLV host c det) := by
  refine .bind (.note _) fun _ => .bind (.load host c) fun type => ?_
  refine .ite (.ite (.pure _) ?_) (.ite (.ite (.pure _) ?_) (.pure _))
  · exact .bind (.load host _) fun _ => .bind (.load host _) fun _ => .bind (.load host _) fun _ =>
      .bind (.load host _) fun _ => .bind (.load host _) fun _ => .bind (.load host _) fun _ =>
        .bind (.load host _) fun _ => .pure _
  · exact .bind (.load host _) fun _ => .bind (.load host _) fun _ => .bind (.load host _) fun _ =>
      .bind (.load host _) fun _ => .bind (.load host _) fun _ => .bind (.load host _) fun _ =>
        .pure _

theorem eppCellMeasRepTLV_traced (rep : EpCellRep) : Traced (eppCellMeasRepTLV host c rep) := by
  refine .bind (.note _) fun _ => .bind (.load host c) fun _ => .ite ?_ (.pure _)
  exact .bind (.load host _) fun _ => .bind (.load host _) fun _ => .bind (.load host _) fun _ =>
    .bind (.load host _) fun _ => .pure _

theorem eppCellMeasReqTLV_traced (s : Unit) : Traced (eppCellMeasReqTLV host c s) :=
  .bind (.load host c) fun _ => .ite (.pure _) (.pure _)

theorem parseRrcTLV_traced {α : Type} {code : UInt16} {body : Nat → Code α}
    (each : ∀ c, Traced (body c)) (rep : CountedArray α) :
    Traced (parseRrcTLV host code body c rep) :=
  .bind (.note _) fun _ => .bind (.load host c) fun _ =>
    .ite (.ite (.pure _) (.bind (each c) fun _ => .pure _)) (.pure _)

theorem rrcReportBody_traced : Traced (rrcReportBody host c) :=
  .bind (.load host _) fun _ => .bind (.load host _) fun _ => .bind (.load host _) fun _ =>
    .bind (.load host _) fun _ => .pure _

theorem rrcMeasBody_traced : Traced (rrcMeasBody host c) :=
  .bind (.load host _) fun _ => .bind (.load host _) fun _ => .bind (.load host _) fun _ =>
    .bind (.load host _) fun _ => .bind (.load host _) fun _ => .bind (.load host _) fun _ =>
      .pure _

theorem selectSlot_traced (ues : Int → EpUeDetails) (k i : Nat) (j : Int) (nofUes : UInt32) :
    Traced (selectSlot host c ues k i j nofUes) := by
  induction k generalizing i j nofUes with
  | zero => exact .pure _
  | succ k ih =>
    exact .bind (.note _) fun _ => .bind (.load host _) fun _ => .ite (.pure _) (ih _ _ _)

theorem eppUerepRepTLV_traced (maxUes : UInt32) (s : (Int → EpUeDetails) × UInt32) :
    Traced (eppUerepRepTLV host maxUes c s) := by
  refine .bind (.note _) fun _ => .bind (.load host c) fun _ => .ite ?_ (.pure _)
  exact .bind (selectSlot_traced c _ _ _ _ _) fun _ => .bind (.load host _) fun _ =>
    .bind (.load host _) fun _ => .bind (.load host _) fun _ => .bind (.load host _) fun _ =>
      .bind (.note _) fun _ => .pure _

end Handlers

section Bodies
variable {host : ByteOrder} {p : Nat} {size : UInt32}

theorem parseHello_traced (id : Option UInt32) : Traced (parseHello host p size id) :=
  .bind (.note _) fun _ => .ite (.pure _) (.bind (.assign (.fetch host p) id) fun _ => .pure _)

theorem parseSliceId_traced (id : Option UInt64) : Traced (parseSliceId host p size id) :=
  .bind (.note _) fun _ => .ite (.pure _) (.bind (.assign (.fetch host p) id) fun _ => .pure _)

theorem eppHoRep_traced (out : HoRepOut) : Traced (eppHoRep host p size out) := by
  refine .bind (.note _) fun _ => .ite (.pure _) ?_
  exact .bind (.assign (.fetch host _) _) fun _ => .bind (.assign (.fetch host _) _) fun _ =>
    .bind (.assign (.fetch host _) _) fun _ => .bind (.assign (.fetch host _) _) fun _ => .pure _

theorem eppHoReq_traced (out : HoReqOut) : Traced (eppHoReq host p size out) := by
  refine .bind (.note _) fun _ => .ite (.pure _) ?_
  exact .bind (.assign (.fetch host _) _) fun _ => .bind (.assign (.fetch host _) _) fun _ =>
    .bind (.assign (.fetch host _) _) fun _ => .bind (.assign (.load host _) _) fun _ => .pure _

theorem eppEcapReq_traced : Traced (eppEcapReq p size) := .bind (.note _) fun _ => .pure _

theorem eppRanEuq_traced : Traced (eppRanEuq p size) := .bind (.note _) fun _ => .pure _

theorem eppUerepReq_traced : Traced (eppUerepReq p size) :=
  .bind (.note _) fun _ => .ite (.pure _) (.pure _)

theorem eppRanEup_traced (det : Option EpRanDet) : Traced (eppRanEup host p size det) := by
  refine .bind (.note _) fun _ => .ite (.pure _) ?_
  cases det with
  | none => exact .pure _
  | some det =>
    refine .bind (.load host _) fun _ => .bind (.load host _) fun _ =>
      .bind (.load host _) fun _ => ?_
    exact .bind (.tokenLoop eppRanEupTLV_traced _ _ _) fun _ => .pure _

theorem parseSlice_traced {checked : Bool} (id : Option UInt64) (det : Option EpRanSliceDet) :
    Traced (parseSlice host checked p size id det) := by
  refine .bind (.note _) fun _ => .ite (.pure _) ?_
  refine .bind (.assign (.fetch host p) id) fun _ => ?_
  exact .bind (.tokenLoop eppRanTLV_traced _ _ _) fun _ => .pure _

theorem eppEcapRep_traced (det : Option EpEnbDet) : Traced (eppEcapRep host p size det) := by
  refine .bind (.note _) fun _ => ?_
  cases det with
  | none => exact .pure _
  | some det => exact .bind (.tokenLoop eppEcapSingleTLV_traced _ _ _) fun _ => .pure _

theorem eppCellMeasRep_traced (rep : Option EpCellRep) :
    Traced (eppCellMeasRep host (some p) size rep) := by
  refine .bind (.note _) fun _ => ?_
  cases rep with
  | none => exact .pure _
  | some rep => exact .bind (.tokenLoop eppCellMeasRepTLV_traced _ _ _) fun _ => .pure _

theorem eppCellMeasReq_traced : Traced (eppCellMeasReq host (some p) size) :=
  .bind (.note _) fun _ => .bind (.tokenLoop eppCellMeasReqTLV_traced _ _ _) fun _ => .pure _

theorem parseRrcs_traced {α : Type} {code : UInt16} {body : Nat → Code α} {zero : CountedArray α}
    (each : ∀ c, Traced (body c)) (rep : Option (CountedArray α)) :
    Traced (parseRrcs host code body zero (some p) size rep) := by
  refine .bind (.note _) fun _ => ?_
  cases rep with
  | none => exact .pure _
  | some rep =>
    exact .bind (.tokenLoop (fun c rep => parseRrcTLV_traced c each rep) _ _ _) fun _ => .pure _

theorem eppUerepRep_traced (nofUes : Option UInt32) (maxUes : UInt32)
    (ues : Option (Int → EpUeDetails)) :
    Traced (eppUerepRep host (some p) size nofUes maxUes ues) := by
  refine .bind (.note _) fun _ => ?_
  cases ues with
  | none => exact .pure _
  | some ues =>
    cases nofUes with
    | none => exact .pure _
    | some nofUes =>
      exact .bind (.tokenLoop (fun c s => eppUerepRepTLV_traced c maxUes s) _ _ _) fun _ => .pure _

end Bodies

open Outputs

namespace PublicParser

theorem eppHead_traced (host : ByteOrder) (b : Nat) (size : UInt32) (out : HeadOut) :
    Traced (eppHead host (some b) size out) := by
  refine .ite (.pure _) (.bind (.load host _) fun _ => .ite (.pure _) ?_)
  refine .bind (.assign (.bind (.load host b) fun _ => .pure _) _) fun _ => ?_
  exact .bind (.assign (.fetch host _) _) fun _ => .bind (.assign (.fetch host _) _) fun _ =>
    .bind (.assign (.fetch host _) _) fun _ => .bind (.assign (.load host _) _) fun _ => .pure _

theorem parse_traced (host : ByteOrder) (b : Nat) (size : UInt32) (p : PublicParser)
    (out : p.Out) : Traced (p.parse host b size out) := by
  cases p with
  | head => exact eppHead_traced host b size out
  | singleHelloReq => exact parseHello_traced out
  | singleHelloRep => exact parseHello_traced out
  | schedHelloReq => exact parseHello_traced out
  | schedHelloRep => exact parseHello_traced out
  | singleHoReq => exact eppHoReq_traced out
  | singleHoRep => exact eppHoRep_traced out
  | singleEcapReq => exact eppEcapReq_traced.bind fun _ => .pure _
  | singleEcapRep => exact eppEcapRep_traced out
  | triggerUerepReq => exact eppUerepReq_traced.bind fun _ => .pure _
  | triggerUerepRep maxUes => exact eppUerepRep_traced out.2 maxUes out.1
  | triggerUemeasReq => exact parseRrcs_traced rrcMeasBody_traced out
  | triggerUemeasRep =>
    cases (out : Option EpUeReport) with
    | none => exact .pure _
    | some rep => exact parseRrcs_traced rrcReportBody_traced (some rep)
  | schedCellMeasReq =>
    refine .bind (.ite (.pure _) (.fetch host _)) fun value => ?_
    cases (out : Option UInt32) with
    | none => exact .crash
    | some _ => exact eppCellMeasReq_traced.bind fun _ => .pure _
  | schedCellMeasRep =>
    cases (out : Option EpCellRep) with
    | none => exact .pure _
    | some rep => exact eppCellMeasRep_traced (some rep)
  | triggerCellMeasReq => exact eppCellMeasReq_traced.bind fun _ => .pure _
  | triggerCellMeasRep =>
    cases (out : Option EpCellRep) with
    | none => exact .pure _
    | some rep => exact eppCellMeasRep_traced (some rep)
  | singleRanSetupReq => exact eppRanEuq_traced.bind fun _ => .pure _
  | singleRanSetupRep => exact eppRanEup_traced out
  | singleRanSliceReq => exact parseSliceId_traced out
  | singleRanSliceRem => exact parseSliceId_traced out
  | singleRanSliceRep => exact parseSlice_traced out.1 out.2
  | singleRanSliceAdd => exact parseSlice_traced out.1 out.2
  | singleRanSliceSet => exact parseSlice_traced out.1 out.2

end PublicParser

/-- Whatever the bytes and the size, a parser that is given its outputs comes to an end, changes
no byte of the memory in which the message lies, looks no more than 46 bytes past what it takes for
the message, enters a token handler at most once for every four bytes of it, and would do the same
in every memory that has these bytes. -/
theorem PublicParser.parse_local (host : ByteOrder) (b : Nat) (size : UInt32) (m : Mem)
    (p : PublicParser) (out : p.Out) (given : Full out) :
    ∃ r t, (p.parse host b size out).run m = some (r, t) ∧ t.stores = [] ∧
      t.ReadsIn b (b + p.reach size + 46) ∧ 4 * t.calls.length ≤ p.reach size ∧
      ∀ m' : Mem, (∀ a, b ≤ a → a < b + p.reach size + 46 → m' a = m a) →
        (p.parse host b size out).run m' = some (r, t) := by
  obtain ⟨r, t, hrun, bounded⟩ := PublicParser.examines host b size m p out given
  refine ⟨r, t, hrun, bounded.stores, bounded.reads, bounded.handled, fun m' same => ?_⟩
  refine p.parse_traced host b size out m m' r t hrun fun a ha => ?_
  obtain ⟨low, high⟩ := bounded.reads a ha
  exact same a low high

def farCaps : Mem :=
  Mem.ofBytes (List.replicate 29 0 ++ [0, 22] ++ List.replicate 22 0 ++ [5, 3, 0, 0])

theorem PublicParser.parse_local_farCaps :
    ∃ r t, (singleEcapRep.parse .little 0 31 (some EpEnbDet.zero : Option EpEnbDet)).run farCaps =
      some (r, t) ∧ 76 ∈ t.loads ∧
      (singleEcapRep.parse .little 0 31 (some EpEnbDet.zero : Option EpEnbDet)).run
        (Function.update farCaps 77 1) = some (r, t) := by
  obtain ⟨r, t, hrun, -, -, -, nearby⟩ := PublicParser.parse_local .little 0 31 farCaps
    .singleEcapRep (some EpEnbDet.zero : Option EpEnbDet) rfl
  have seen : ((singleEcapRep.parse .little 0 31 (some EpEnbDet.zero : Option EpEnbDet)).run
      farCaps).map (fun r => decide (76 ∈ r.2.loads)) = some true := by
    decide +kernel
  rw [hrun] at seen
  refine ⟨r, t, hrun, of_decide_eq_true (Option.some.inj seen), nearby _ fun a _ high => ?_⟩
  have bound : 0 + singleEcapRep.reach 31 + 46 = 77 := rfl
  exact Function.update_of_ne (by omega) _ _

end Emproto
