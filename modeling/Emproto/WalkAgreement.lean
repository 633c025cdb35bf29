import Emproto.RanParse
import Emproto.UeTable
import Emproto.UeMeas
import Emproto.CellMeas
import Emproto.EnbCapsRun

/-! Which tokens the nine body parsers hand to their handlers. Eight of them handle
the longest sequence of complete tokens; the capabilities parser leaves out a last
token that ends where the area ends. -/

namespace Emproto
variable {host : ByteOrder} {m : Mem}

/-- The run ends, and enters the token handler along the longest sequence of
complete tokens in the `n` bytes at `a`. -/
def HandlesLongest {α : Type} (run : Option (α × Trace)) (m : Mem) (a n : Nat) : Prop :=
  ∃ r es, run = some (r, es) ∧ (m.walker false (a + n)).Longest a es.calls

theorem handlesLongest_iff {α : Type} {run : Option (α × Trace)} {r : α} {es : Trace}
    {a n : Nat} {os : List Nat} (hrun : run = some (r, es)) (calls : es.calls = os) :
    HandlesLongest run m a n ↔ (m.walker false (a + n)).Longest a os := by
  rw [← calls]
  exact Code.exists_run_iff hrun fun _ es => (m.walker false (a + n)).Longest a es.calls

theorem body_calls {σ : Type} {w : Walker} {step : Nat → σ → σ} {tr : Nat → σ → Trace} {c : Nat}
    {s : σ} (b n : Nat) (handles : ∀ c s, (tr c s).Handles c) :
    Trace.calls (.enter b n :: loopTrace w step tr c s) = w.walk c := by
  rw [Trace.calls_cons, loopTrace_calls fun c s => (handles c s).calls]
  rfl

theorem handlesLongest_of_walk {α : Type} {run : Option (α × Trace)} {r : α} {es : Trace}
    {a n : Nat} (hrun : run = some (r, es)) (calls : es.calls = (m.walker false (a + n)).walk a) :
    HandlesLongest run m a n :=
  (handlesLongest_iff hrun calls).mpr ((m.walker false (a + n)).longest_iff.mpr rfl)

section Parsers
variable {a b : Nat} {size body : UInt32}

theorem eppRanEup_handlesLongest (start : b + 12 = a) (length : body.toNat = 12 + size.toNat)
    (det : EpRanDet) :
    HandlesLongest ((eppRanEup host b body (some det)).run m) m a size.toNat := by
  refine handlesLongest_of_walk (run_eppRanEup m (by omega) det) ?_
  rw [Trace.calls_cons, Trace.calls_append, loopTrace_calls fun c _ =>
    (setupTrace_handles m c).calls, start, show b + body.toNat = a + size.toNat by omega]
  simp [Event.call?, masksTrace]

theorem parseSlice_handlesLongest {checked : Bool} (start : b + 8 = a)
    (length : body.toNat = 8 + size.toNat) (id : Option UInt64) (det : EpRanSliceDet) :
    HandlesLongest ((parseSlice host checked b body id (some det)).run m) m a size.toNat := by
  refine handlesLongest_of_walk (run_parseSlice m (by omega) id det) ?_
  rw [Trace.calls_cons, Trace.calls_append, (Code.plain_assignTrace b 8 id).calls,
    loopTrace_calls fun c _ => (sliceTrace_handles m c).calls, start,
    show b + body.toNat = a + size.toNat by omega]
  rfl

theorem eppCellMeasRep_handlesLongest (rep : EpCellRep) :
    HandlesLongest ((eppCellMeasRep host (some a) size (some rep)).run m) m a size.toNat :=
  handlesLongest_of_walk (run_eppCellMeasRep m a size rep)
    (body_calls a _ fun c _ => prbTrace_handles m c)

theorem eppUemeasRep_handlesLongest (rep : EpUeReport) :
    HandlesLongest ((eppUemeasRep host (some a) size (some rep)).run m) m a size.toNat :=
  handlesLongest_of_walk (run_eppUemeasRep m a size rep)
    (body_calls a _ (rrcTrace_handles m rrcReportReads_plain))

theorem eppUemeasReq_handlesLongest (meas : EpUeMeas) :
    HandlesLongest ((eppUemeasReq host (some a) size (some meas)).run m) m a size.toNat :=
  handlesLongest_of_walk (run_eppUemeasReq m a size meas)
    (body_calls a _ (rrcTrace_handles m rrcMeasReads_plain))

theorem eppUerepRep_handlesLongest (nofUes maxUes : UInt32) (ues : Int → EpUeDetails) :
    HandlesLongest ((eppUerepRep host (some a) size (some nofUes) maxUes (some ues)).run m) m a
      size.toNat :=
  handlesLongest_of_walk (run_eppUerepRep host m a size nofUes maxUes ues)
    (body_calls a _ (uerepTrace_handles m maxUes))

theorem eppEcapRep_handlesLongest_iff (det : EpEnbDet) :
    HandlesLongest ((eppEcapRep host a size (some det)).run m) m a size.toNat ↔
      ∀ os, (m.walker false (a + size.toNat)).Chain a os →
        (m.walker false (a + size.toNat)).after a os = a + size.toNat → os = [] := by
  rw [handlesLongest_iff (run_eppEcapRep m a size det) (body_calls a _ (ecapTrace_handles m)),
    longest_strict_iff]

end Parsers

/-- All nine parsers, on whatever else they are given, handle the longest sequence
of complete tokens in the token area of `size` bytes at `a`. -/
structure WalkersAgree (host : ByteOrder) (m : Mem) (a : Nat) (size : UInt32) : Prop where
  ranEup : ∀ (b : Nat) (body : UInt32) (det : EpRanDet), b + 12 = a →
    body.toNat = 12 + size.toNat →
    HandlesLongest ((eppRanEup host b body (some det)).run m) m a size.toNat
  ranSup : ∀ (b : Nat) (body : UInt32) (id : Option UInt64) (det : EpRanSliceDet), b + 8 = a →
    body.toNat = 8 + size.toNat →
    HandlesLongest ((eppRanSup host b body id (some det)).run m) m a size.toNat
  ranSaq : ∀ (b : Nat) (body : UInt32) (id : Option UInt64) (det : EpRanSliceDet), b + 8 = a →
    body.toNat = 8 + size.toNat →
    HandlesLongest ((eppRanSaq host b body id (some det)).run m) m a size.toNat
  ranSsq : ∀ (b : Nat) (body : UInt32) (id : Option UInt64) (det : EpRanSliceDet), b + 8 = a →
    body.toNat = 8 + size.toNat →
    HandlesLongest ((eppRanSsq host b body id (some det)).run m) m a size.toNat
  cellMeasRep : ∀ rep : EpCellRep,
    HandlesLongest ((eppCellMeasRep host (some a) size (some rep)).run m) m a size.toNat
  uemeasRep : ∀ rep : EpUeReport,
    HandlesLongest ((eppUemeasRep host (some a) size (some rep)).run m) m a size.toNat
  uemeasReq : ∀ meas : EpUeMeas,
    HandlesLongest ((eppUemeasReq host (some a) size (some meas)).run m) m a size.toNat
  uerepRep : ∀ (nofUes maxUes : UInt32) (ues : Int → EpUeDetails),
    HandlesLongest ((eppUerepRep host (some a) size (some nofUes) maxUes (some ues)).run m) m a
      size.toNat
  ecapRep : ∀ det : EpEnbDet,
    HandlesLongest ((eppEcapRep host a size (some det)).run m) m a size.toNat

/-- The walkers agree on the areas that no non-empty sequence of tokens fills exactly. -/
theorem walkersAgree_iff (host : ByteOrder) (m : Mem) (a : Nat) (size : UInt32) :
    WalkersAgree host m a size ↔
      ∀ os, (m.walker false (a + size.toNat)).Chain a os →
        (m.walker false (a + size.toNat)).after a os = a + size.toNat → os = [] := by
  apply Iff.intro
  · intro agree
    exact (eppEcapRep_handlesLongest_iff .zero).mp (agree.ecapRep .zero)
  · intro unfilled
    exact {
      ranEup := fun _ _ det start length => eppRanEup_handlesLongest start length det
      ranSup := fun _ _ id det start length => parseSlice_handlesLongest start length id det
      ranSaq := fun _ _ id det start length => parseSlice_handlesLongest start length id det
      ranSsq := fun _ _ id det start length => parseSlice_handlesLongest start length id det
      cellMeasRep := eppCellMeasRep_handlesLongest
      uemeasRep := eppUemeasRep_handlesLongest
      uemeasReq := eppUemeasReq_handlesLongest
      uerepRep := eppUerepRep_handlesLongest
      ecapRep := fun det => (eppEcapRep_handlesLongest_iff det).mpr unfilled }

/-- One token without body fills an area of four bytes. -/
theorem emptyToken_not_walkersAgree :
    ¬ WalkersAgree .little (Mem.ofBytes [1, 0, 0, 0]) 0 4 := by
  intro agree
  obtain ⟨r, es, hrun, longest⟩ := agree.ecapRep .zero
  have run : ((eppEcapRep .little 0 4 (some .zero)).run (Mem.ofBytes [1, 0, 0, 0])).map
      (fun r => r.2.calls) = some [] := by
    decide +kernel
  rw [hrun] at run
  have calls : es.calls = [] := Option.some.inj run
  have chain : (Mem.walker (Mem.ofBytes [1, 0, 0, 0]) false (0 + (4 : UInt32).toNat)).Chain 0
      [0] := ⟨rfl, by decide +kernel, trivial⟩
  have length := longest.maximal [0] chain
  rw [calls] at length
  exact absurd length (by decide)

end Emproto
