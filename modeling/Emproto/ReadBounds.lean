import Emproto.NullOutputs
import Emproto.ReadSafety

/-! How far a parser looks and how many tokens it handles, whatever the bytes and the size. A
token costs four bytes of the area at least, so a loop over an area ends, and the fields that a
handler fetches lie at a fixed distance from a header inside the area. -/

namespace Emproto

/-- Accesses that change no byte, fetch bytes of `[lo, hi)` only, and enter at most one token
handler for every four bytes of an area of `area` bytes. -/
structure Trace.Bounded (t : Trace) (lo hi area : Nat) : Prop where
  stores : t.stores = []
  reads : t.ReadsIn lo hi
  handled : 4 * t.calls.length ≤ area

namespace Trace.Bounded
variable {s t : Trace} {lo hi area : Nat}

theorem nil : Bounded [] lo hi area := ⟨rfl, Trace.readsIn_nil lo hi, Nat.zero_le area⟩

theorem mono {k : Nat} (h : t.Bounded lo hi k) (le : k ≤ area) : t.Bounded lo hi area :=
  ⟨h.stores, h.reads, h.handled.trans le⟩

theorem append {j k : Nat} (hs : s.Bounded lo hi j) (ht : t.Bounded lo hi k)
    (sum : j + k ≤ area) : (s ++ t).Bounded lo hi area where
  stores := by rw [Trace.stores_append, hs.stores, ht.stores, List.append_nil]
  reads := (Trace.readsIn_append s t lo hi).mpr ⟨hs.reads, ht.reads⟩
  handled := by
    have left := hs.handled
    have right := ht.handled
    rw [Trace.calls_append, List.length_append]
    omega

theorem load {p n : Nat} (low : lo ≤ p) (high : p + n ≤ hi) :
    (Code.loadTrace p n).Bounded lo hi 0 where
  stores := Code.stores_loadTrace p n
  reads := (Code.readsIn_loadTrace p n).mpr (.inr ⟨low, high⟩)
  handled := by rw [Code.calls_loadTrace, List.length_nil]

theorem ite {p : Prop} [Decidable p] (h : p → t.Bounded lo hi area) :
    Bounded (if p then t else []) lo hi area := by
  split
  · exact h ‹_›
  · exact nil

theorem enter (a n : Nat) (h : t.Bounded lo hi area) :
    Bounded (.enter a n :: t) lo hi area where
  stores := h.stores
  reads := (Trace.readsIn_cons t rfl lo hi).mpr h.reads
  handled := h.handled

theorem of_handles {c : Nat} (h : t.Handles c) (reads : t.ReadsIn lo hi) :
    t.Bounded lo hi 4 where
  stores := h.stores
  reads := reads
  handled := by rw [h.calls, List.length_singleton]

theorem loop {σ : Type} {w : Walker} {step : Nat → σ → σ} {tr : Nat → σ → Trace}
    (header : ∀ c, c + 4 ≤ w.next c) (far : w.fin + 3 ≤ hi)
    (each : ∀ c s, lo ≤ c → w.ok (w.next c) = true → (tr c s).Bounded lo hi 4) {c : Nat}
    (low : lo ≤ c) (s : σ) : (loopTrace w step tr c s).Bounded lo hi (w.fin - c) := by
  induction left : w.fin - c using Nat.strong_induction_on generalizing c s with
  | _ left' ih =>
    subst left
    have ahead := header c
    rw [loopTrace_eq]
    by_cases taken : w.ok (w.next c) = true
    · have inside := w.bounded _ taken
      have length : (Code.loadTrace (c + 2) 2).Bounded lo hi 0 := load (by omega) (by omega)
      have rest := ih (w.fin - w.next c) (by omega) (c := w.next c) (by omega) (step c s) rfl
      rw [if_pos taken]
      have handled := (each c s low taken).append (length.append rest le_rfl) le_rfl
      exact length.append handled (by omega)
    · rw [if_neg taken]
      refine ite fun inside => ?_
      have within : c < w.fin := inside
      exact (load (by omega) (by omega)).mono (Nat.zero_le _)

end Trace.Bounded

def Examines {α : Type} (c : Code α) (m : Mem) (lo hi area : Nat) : Prop :=
  ∃ r t, c.run m = some (r, t) ∧ t.Bounded lo hi area

namespace Examines
variable {α β : Type} {m : Mem} {lo hi area : Nat}

theorem of_run {c : Code α} {r : α} {t : Trace} (hrun : c.run m = some (r, t))
    (h : t.Bounded lo hi area) : Examines c m lo hi area := ⟨r, t, hrun, h⟩

theorem pure (a : α) : Examines (Pure.pure a) m lo hi area := of_run rfl .nil

theorem mono {c : Code α} {k : Nat} (h : Examines c m lo hi k) (le : k ≤ area) :
    Examines c m lo hi area := by
  obtain ⟨r, t, hrun, bounded⟩ := h
  exact of_run hrun (bounded.mono le)

theorem enter (a n : Nat) : Examines (Code.note (.enter a n)) m lo hi 0 :=
  of_run rfl (.enter a n .nil)

theorem load {W : Type} [Word W] {host : ByteOrder} {p : Nat} (low : lo ≤ p)
    (high : p + Word.width W ≤ hi) : Examines (Code.load host p : Code W) m lo hi 0 :=
  of_run (Code.run_load m host p) (.load low high)

theorem bind {j k : Nat} {x : Code α} {f : α → Code β} (hx : Examines x m lo hi j)
    (hf : ∀ a, Examines (f a) m lo hi k) (sum : j + k ≤ area) :
    Examines (x >>= f) m lo hi area := by
  obtain ⟨a, t, first, ht⟩ := hx
  obtain ⟨r, u, second, hu⟩ := hf a
  have both : (x >>= f).run m = some (r, t ++ u) := by
    rw [Code.run_bind_quiet m first ht.stores, second]
    rfl
  exact of_run both (ht.append hu sum)

theorem before {x : Code α} {f : α → Code β} (hx : Examines x m lo hi 0)
    (hf : ∀ a, Examines (f a) m lo hi area) : Examines (x >>= f) m lo hi area :=
  hx.bind hf (Nat.zero_add area).le

theorem bind_pure {x : Code α} (hx : Examines x m lo hi area) (g : α → β) :
    Examines (x >>= fun a => Pure.pure (g a)) m lo hi area :=
  hx.bind (fun a => pure (g a)) (Nat.add_zero area).le

theorem fetch {W : Type} [Word W] {host : ByteOrder} {p : Nat} (low : lo ≤ p)
    (high : p + Word.width W ≤ hi) : Examines (Code.fetch host p : Code W) m lo hi 0 :=
  (load low high).before fun _ => .pure _

theorem assign {value : Code α} (h : Examines value m lo hi 0) (out : Option α) :
    Examines (Code.assign out value) m lo hi 0 := by
  cases out with
  | none => exact .pure none
  | some _ => exact h.before fun v => .pure (some v)

theorem output {W : Type} [Word W] {host : ByteOrder} {p : Nat} (out : Option W) (low : lo ≤ p)
    (high : p + Word.width W ≤ hi) :
    Examines (Code.assign out (Code.fetch host p)) m lo hi 0 := .assign (.fetch low high) out

theorem ite {c : Prop} [Decidable c] {x y : Code α} (hx : c → Examines x m lo hi area)
    (hy : ¬ c → Examines y m lo hi area) : Examines (if c then x else y) m lo hi area := by
  split
  · exact hx ‹_›
  · exact hy ‹_›

end Examines

section Fixed
variable {host : ByteOrder} {m : Mem} {lo hi p : Nat} {size : UInt32}

theorem eppEcapReq_examines : Examines (eppEcapReq p size) m lo hi 0 :=
  .before (.enter p size.toNat) fun _ => .pure _

theorem eppRanEuq_examines : Examines (eppRanEuq p size) m lo hi 0 :=
  .before (.enter p size.toNat) fun _ => .pure _

theorem eppUerepReq_examines : Examines (eppUerepReq p size) m lo hi 0 :=
  .before (.enter p size.toNat) fun _ => .ite (fun _ => .pure _) fun _ => .pure _

variable (low : lo ≤ p)
include low

theorem parseHello_examines (far : 4 ≤ size.toNat → p + 4 ≤ hi) (id : Option UInt32) :
    Examines (parseHello host p size id) m lo hi 0 := by
  refine .before (.enter p size.toNat) fun _ => .ite (fun _ => .pure _) fun long => ?_
  have room := far (Nat.le_of_not_lt long)
  exact .before (.output id low (by simp only [Word.width]; omega)) fun _ => .pure _

theorem parseSliceId_examines (far : 8 ≤ size.toNat → p + 8 ≤ hi) (id : Option UInt64) :
    Examines (parseSliceId host p size id) m lo hi 0 := by
  refine .before (.enter p size.toNat) fun _ => .ite (fun _ => .pure _) fun long => ?_
  have room := far (Nat.le_of_not_lt long)
  exact .before (.output id low (by simp only [Word.width]; omega)) fun _ => .pure _

theorem eppHoRep_examines (far : 14 ≤ size.toNat → p + 14 ≤ hi) (out : HoRepOut) :
    Examines (eppHoRep host p size out) m lo hi 0 := by
  refine .before (.enter p size.toNat) fun _ => .ite (fun _ => .pure _) fun long => ?_
  have room := far (Nat.le_of_not_lt long)
  refine .before (.output _ low (by simp only [Word.width]; omega)) fun _ => ?_
  refine .before (.output _ (by omega) (by simp only [Word.width]; omega)) fun _ => ?_
  refine .before (.output _ (by omega) (by simp only [Word.width]; omega)) fun _ => ?_
  exact .before (.output _ (by omega) (by simp only [Word.width]; omega)) fun _ => .pure _

theorem eppHoReq_examines (far : 13 ≤ size.toNat → p + 13 ≤ hi) (out : HoReqOut) :
    Examines (eppHoReq host p size out) m lo hi 0 := by
  refine .before (.enter p size.toNat) fun _ => .ite (fun _ => .pure _) fun long => ?_
  have room := far (Nat.le_of_not_lt long)
  refine .before (.output _ low (by simp only [Word.width]; omega)) fun _ => ?_
  refine .before (.output _ (by omega) (by simp only [Word.width]; omega)) fun _ => ?_
  refine .before (.output _ (by omega) (by simp only [Word.width]; omega)) fun _ => ?_
  have cause : p + 12 + Word.width UInt8 ≤ hi := by
    simp only [Word.width]
    omega
  exact .before (.assign (.load (by omega) cause) _) fun _ => .pure _

end Fixed

section Bodies
variable {host : ByteOrder} {m : Mem} {lo hi p : Nat} {size : UInt32}
variable (low : lo ≤ p) (far : p + size.toNat + 19 ≤ hi)
include low far

/-- A loop over the tokens of a body from `c` on: the header of a token that is handled lies in
the body, so there is room for 19 bytes behind it. -/
theorem loop_bounded {σ : Type} {strict : Bool} {step : Nat → σ → σ} {tr : Nat → σ → Trace}
    (each : ∀ c s, lo ≤ c → m.nextToken c ≤ hi → c + 4 + 19 ≤ hi →
      (m.walker strict (p + size.toNat)).ok (m.nextToken c) = true → (tr c s).Bounded lo hi 4)
    {c : Nat} (start : p ≤ c) (s : σ) :
    (loopTrace (m.walker strict (p + size.toNat)) step tr c s).Bounded lo hi size.toNat := by
  have lengths : p + size.toNat + 3 ≤ hi := by omega
  have handler (c : Nat) (s : σ) (after : lo ≤ c)
      (taken : (m.walker strict (p + size.toNat)).ok (m.nextToken c) = true) :
      (tr c s).Bounded lo hi 4 := by
    have inside : m.nextToken c ≤ p + size.toNat := Walker.bounded _ _ taken
    have header := m.header_le_nextToken c
    exact each c s after (by omega) (by omega) taken
  have area : p + size.toNat - c ≤ size.toNat := by omega
  exact (Trace.Bounded.loop m.header_le_nextToken lengths handler (low.trans start) s).mono area

theorem eppRanEup_examines (det : EpRanDet) :
    Examines (eppRanEup host p size (some det)) m lo hi size.toNat := by
  by_cases short : size.toNat < 12
  · exact .of_run (run_eppRanEup_short m short _) (.enter _ _ .nil)
  · have masks : (masksTrace p).Bounded lo hi 0 :=
      .append (.load low (by omega))
        (.append (.load (by omega) (by omega)) (.load (by omega) (by omega)) le_rfl) le_rfl
    refine .of_run (run_eppRanEup m (by omega) det) (.enter _ _ (masks.append
      (loop_bounded low far ?_ (Nat.le_add_right p 12) _) (Nat.zero_add _).le))
    intro c _ after next room _
    exact .of_handles (setupTrace_handles m c)
      ((setupTrace_readsIn after next).mpr fun _ => by omega)

theorem parseSlice_examines {checked : Bool} (id : Option UInt64) (det : EpRanSliceDet) :
    Examines (parseSlice host checked p size id (some det)) m lo hi size.toNat := by
  by_cases short : size.toNat < 8
  · exact .of_run (run_parseSlice_short m short _ _) (.enter _ _ .nil)
  · have value : (Code.assignTrace id p 8).Bounded lo hi 0 := .ite fun _ => .load low (by omega)
    refine .of_run (run_parseSlice m (by omega) id det) (.enter _ _ (value.append
      (loop_bounded low far ?_ (Nat.le_add_right p 8) _) (Nat.zero_add _).le))
    intro c _ after next room _
    exact .of_handles (sliceTrace_handles m c)
      ((sliceTrace_readsIn after next).mpr ⟨fun _ => by omega, fun _ => by omega⟩)

theorem eppCellMeasRep_examines (rep : EpCellRep) :
    Examines (eppCellMeasRep host (some p) size (some rep)) m lo hi size.toNat := by
  refine .of_run (run_eppCellMeasRep m p size rep) (.enter _ _ (loop_bounded low far ?_ le_rfl _))
  intro c _ after next room _
  exact .of_handles (prbTrace_handles m c) ((prbTrace_readsIn after next).mpr fun _ => by omega)

theorem eppCellMeasReq_examines :
    Examines (eppCellMeasReq host (some p) size) m lo hi size.toNat := by
  refine .of_run (run_eppCellMeasReq m p size) (.enter _ _ (loop_bounded low far ?_ le_rfl _))
  intro c _ after _ room _
  exact (Trace.Bounded.load after (by omega)).mono (Nat.zero_le 4)

theorem parseRrcs_examines {α : Type} {code : UInt16} {body : Nat → Code α} {entry : Nat → α}
    {read : Nat → Trace} (hbody : ∀ c, (body c).run m = some (entry c, read c))
    (plain : ∀ c, (read c).Plain)
    (reads : ∀ c, lo ≤ c → c + 4 + 19 ≤ hi → (read c).ReadsIn lo hi) (zero rep : CountedArray α) :
    Examines (parseRrcs host code body zero (some p) size (some rep)) m lo hi size.toNat := by
  refine .of_run (run_parseRrcs m hbody plain zero p size rep)
    (.enter _ _ (loop_bounded low far ?_ le_rfl _))
  intro c rep after next room _
  refine .of_handles (rrcTrace_handles m plain c rep) ?_
  rw [rrcTrace, readsIn_handler after next, readsIn_ite]
  exact fun _ => reads c after room

theorem eppUemeasRep_examines (rep : EpUeReport) :
    Examines (eppUemeasRep host (some p) size (some rep)) m lo hi size.toNat := by
  refine parseRrcs_examines low far (run_rrcReportBody m) rrcReportReads_plain ?_
    EpUeReport.zero rep
  intro c after room
  simp only [rrcReportReads, Trace.readsIn_append, Code.readsIn_loadTrace]
  omega

theorem eppUemeasReq_examines (meas : EpUeMeas) :
    Examines (eppUemeasReq host (some p) size (some meas)) m lo hi size.toNat := by
  refine parseRrcs_examines low far (run_rrcMeasBody m) rrcMeasReads_plain ?_
    EpUeMeas.zero meas
  intro c after room
  simp only [rrcMeasReads, Trace.readsIn_append, Code.readsIn_loadTrace]
  omega

theorem eppUerepRep_examines (nofUes maxUes : UInt32) (ues : Int → EpUeDetails) :
    Examines (eppUerepRep host (some p) size (some nofUes) maxUes (some ues)) m lo hi
      size.toNat := by
  refine .of_run (run_eppUerepRep host m p size nofUes maxUes ues)
    (.enter _ _ (loop_bounded low far ?_ le_rfl _))
  intro c s after next room _
  exact .of_handles (uerepTrace_handles m maxUes c s)
    ((uerepTrace_readsIn after next maxUes s).mpr fun _ => by omega)

theorem eppEcapRep_examines (det : EpEnbDet) :
    Examines (eppEcapRep host p size (some det)) m lo hi size.toNat := by
  refine .of_run (run_eppEcapRep m p size det) (.enter _ _ (loop_bounded low far ?_ le_rfl _))
  intro c det after next room taken
  -- this loop refuses a token that ends with the area, which makes up for the longest fields
  have before : m.nextToken c < p + size.toNat := by simpa [Mem.walker] using taken
  have header := m.header_le_nextToken c
  exact .of_handles (ecapTrace_handles m c det)
    ((ecapTrace_readsIn after next det).mpr ⟨fun _ => by omega, fun _ => by omega⟩)

end Bodies

open Outputs

namespace PublicParser

def skips : PublicParser → Nat
  | triggerUemeasReq => 24 + 3
  | triggerUemeasRep => 24 + 3
  | schedCellMeasReq => 24 + 7
  | schedCellMeasRep => 24 + 7
  | triggerCellMeasReq => 24 + 3
  | triggerCellMeasRep => 24 + 3
  | singleRanSetupReq => 24 + 3
  | singleRanSetupRep => 24 + 3
  | singleRanSliceReq => 24 + 3
  | singleRanSliceRem => 24 + 3
  | singleRanSliceRep => 24 + 3
  | singleRanSliceAdd => 24 + 3
  | singleRanSliceSet => 24 + 3
  | _ => 0

/-- The bytes that a parser takes for headers and body. They are the `size` bytes of the message,
unless these are too few for the headers: the subtraction then wraps. -/
def reach (p : PublicParser) (size : UInt32) : Nat :=
  size.toNat + if size.toNat < p.skips then 2 ^ 32 else 0

theorem reach_body {p : PublicParser} {k : Nat} (skips : p.skips = k) (small : k < 2 ^ 32)
    (size : UInt32) : (size - UInt32.ofNat k).toNat + k = p.reach size := by
  subst skips
  rw [reach]
  by_cases short : size.toNat < p.skips
  · rw [if_pos short, uint32_sub_toNat_wrap short small]
    omega
  · rw [if_neg short, uint32_sub_toNat (Nat.le_of_not_lt short)]
    omega

end PublicParser

section Messages
variable {host : ByteOrder} {m : Mem} {b hi : Nat} {size : UInt32}

theorem eppHead_examines (far : b + size.toNat ≤ hi) (out : HeadOut) :
    Examines (eppHead host (some b) size out) m b hi 0 := by
  refine .ite (fun _ => .pure _) fun long => ?_
  refine .before (.load (by omega) (by simp only [Word.width]; omega)) fun vers => ?_
  refine .ite (fun _ => .pure _) fun _ => ?_
  have type : Examines (do
      let type : UInt8 ← Code.load host b
      pure type.toUInt32) m b hi 0 :=
    .before (.load le_rfl (by simp only [Word.width]; omega)) fun _ => .pure _
  have flags : b + 16 + Word.width UInt16 ≤ hi := by
    simp only [Word.width]
    omega
  refine .before (.assign type _) fun _ => ?_
  refine .before (.output _ (by omega) (by simp only [Word.width]; omega)) fun _ => ?_
  refine .before (.output _ (by omega) (by simp only [Word.width]; omega)) fun _ => ?_
  refine .before (.output _ (by omega) (by simp only [Word.width]; omega)) fun _ => ?_
  exact .before (.assign (.load (by omega) flags) _) fun _ => .pure _

theorem eppSchedCellMeasReq_examines
    (far : b + 24 + 7 + (size - UInt32.ofNat (24 + 7)).toNat + 19 ≤ hi) (interval : UInt32) :
    Examines (eppSchedCellMeasReq host (some b) size (some interval)) m b hi
      (size - UInt32.ofNat (24 + 7)).toNat := by
  refine .before ?_ fun _ => (eppCellMeasReq_examines (by omega) far).bind_pure _
  refine .of_run (run_eppSchedInterval m b size) ?_
  rw [schedIntervalTrace]
  split
  · exact .nil
  · exact .load (by omega) (by omega)

end Messages

theorem PublicParser.examines (host : ByteOrder) (b : Nat) (size : UInt32) (m : Mem)
    (p : PublicParser) (out : p.Out) (given : Full out) :
    Examines (p.parse host b size out) m b (b + p.reach size + 46) (p.reach size) := by
  have least : size.toNat ≤ p.reach size := Nat.le_add_right size.toNat _
  have event {q : PublicParser} (skips : q.skips = 24 + 3) := reach_body skips (by decide) size
  have sched {q : PublicParser} (skips : q.skips = 24 + 7) := reach_body skips (by decide) size
  have slice {checked : Bool} {q : PublicParser} (skips : q.skips = 24 + 3)
      (out : Option UInt64 × Option EpRanSliceDet) (given : Full out) :
      Examines (eppSingleRan (fun p s out => parseSlice host checked p s out.1 out.2) (some b)
        size out) m b (b + q.reach size + 46) (q.reach size) := by
    have body := event skips
    obtain ⟨id, det⟩ := out
    obtain ⟨det, rfl⟩ := Option.isSome_iff_exists.mp given.2
    exact (parseSlice_examines (by omega) (by omega) id det).mono (by omega)
  cases p with
  | head => exact (eppHead_examines (by omega) out).mono (Nat.zero_le _)
  | singleHelloReq => exact (parseHello_examines (by omega) (by omega) out).mono (Nat.zero_le _)
  | singleHelloRep => exact (parseHello_examines (by omega) (by omega) out).mono (Nat.zero_le _)
  | schedHelloReq => exact (parseHello_examines (by omega) (by omega) out).mono (Nat.zero_le _)
  | schedHelloRep => exact (parseHello_examines (by omega) (by omega) out).mono (Nat.zero_le _)
  | singleHoReq => exact (eppHoReq_examines (by omega) (by omega) out).mono (Nat.zero_le _)
  | singleHoRep => exact (eppHoRep_examines (by omega) (by omega) out).mono (Nat.zero_le _)
  | singleEcapReq => exact (eppEcapReq_examines.mono (Nat.zero_le _)).bind_pure _
  | singleEcapRep =>
    obtain ⟨det, rfl⟩ := Option.isSome_iff_exists.mp given
    exact (eppEcapRep_examines (by omega) (by omega) det).mono least
  | triggerUerepReq => exact (eppUerepReq_examines.mono (Nat.zero_le _)).bind_pure _
  | triggerUerepRep maxUes =>
    obtain ⟨ues, nofUes⟩ := out
    obtain ⟨ues, rfl⟩ := Option.isSome_iff_exists.mp given.1
    obtain ⟨nofUes, rfl⟩ := Option.isSome_iff_exists.mp given.2
    exact (eppUerepRep_examines (by omega) (by omega) nofUes maxUes ues).mono least
  | triggerUemeasReq =>
    have body := event (q := triggerUemeasReq) rfl
    obtain ⟨meas, rfl⟩ := Option.isSome_iff_exists.mp given
    exact (eppUemeasReq_examines (by omega) (by omega) meas).mono (by omega)
  | triggerUemeasRep =>
    have body := event (q := triggerUemeasRep) rfl
    obtain ⟨rep, rfl⟩ := Option.isSome_iff_exists.mp given
    exact (eppUemeasRep_examines (by omega) (by omega) rep).mono (by omega)
  | schedCellMeasReq =>
    have body := sched (q := schedCellMeasReq) rfl
    obtain ⟨interval, rfl⟩ := Option.isSome_iff_exists.mp given
    exact (eppSchedCellMeasReq_examines (by omega) interval).mono (by omega)
  | schedCellMeasRep =>
    have body := sched (q := schedCellMeasRep) rfl
    obtain ⟨rep, rfl⟩ := Option.isSome_iff_exists.mp given
    exact (eppCellMeasRep_examines (by omega) (by omega) rep).mono (by omega)
  | triggerCellMeasReq =>
    have body := event (q := triggerCellMeasReq) rfl
    exact ((eppCellMeasReq_examines (by omega) (by omega)).mono (by omega)).bind_pure _
  | triggerCellMeasRep =>
    have body := event (q := triggerCellMeasRep) rfl
    obtain ⟨rep, rfl⟩ := Option.isSome_iff_exists.mp given
    exact (eppCellMeasRep_examines (by omega) (by omega) rep).mono (by omega)
  | singleRanSetupReq => exact (eppRanEuq_examines.mono (Nat.zero_le _)).bind_pure _
  | singleRanSetupRep =>
    have body := event (q := singleRanSetupRep) rfl
    obtain ⟨det, rfl⟩ := Option.isSome_iff_exists.mp given
    exact (eppRanEup_examines (by omega) (by omega) det).mono (by omega)
  | singleRanSliceReq =>
    have body := event (q := singleRanSliceReq) rfl
    exact (parseSliceId_examines (by omega) (by omega) out).mono (Nat.zero_le _)
  | singleRanSliceRem =>
    have body := event (q := singleRanSliceRem) rfl
    exact (parseSliceId_examines (by omega) (by omega) out).mono (Nat.zero_le _)
  | singleRanSliceRep => exact slice rfl out given
  | singleRanSliceAdd => exact slice rfl out given
  | singleRanSliceSet => exact slice rfl out given

end Emproto
