import Emproto.RanParse
import Emproto.UeTable
import Emproto.UeMeas
import Emproto.CellMeas
import Emproto.EnbCapsRun

/-! The byte range that each public parser of a token message hands to its body
parser. Ten of them take the headers off the size in unsigned arithmetic, without a
test; two pass the size on whole. -/

namespace Emproto
variable {host : ByteOrder} {m : Mem}

def Enters {α : Type} (run : Option (α × Trace)) (addr size : Nat) : Prop :=
  ∃ r es, run = some (r, es) ∧ es.enters = [(addr, size)]

/-- A parser's run either reports that the size is below its `h` header bytes, or
hands its body parser bytes behind the headers and before the end. -/
def HandsInside {α : Type} (status : α → Int) (run : Option (α × Trace)) (b size h : Nat) : Prop :=
  ∃ r es, run = some (r, es) ∧
    ((size < h ∧ status r < 0 ∧ es.enters = []) ∨
      ∃ n, es.enters = [(b + h, n)] ∧ h + n ≤ size)

theorem Enters.handsInside_iff {α : Type} {status : α → Int} {run : Option (α × Trace)}
    {b size h n : Nat} (enters : Enters run (b + h) n) :
    HandsInside status run b size h ↔ h + n ≤ size := by
  obtain ⟨r, es, hrun, entered⟩ := enters
  refine (Code.exists_run_iff hrun _).trans ?_
  rw [entered]
  apply Iff.intro
  · intro outcome
    cases outcome with
    | inl refused => exact absurd refused.2.2 (List.cons_ne_nil _ _)
    | inr handed =>
      obtain ⟨n', same, inside⟩ := handed
      cases same
      exact inside
  · intro inside
    exact .inr ⟨n, rfl, inside⟩

theorem reduced_inside_iff {size : UInt32} {h : Nat} (small : h < 2 ^ 32) :
    h + (size - UInt32.ofNat h).toNat ≤ size.toNat ↔ h ≤ size.toNat := by
  by_cases fits : h ≤ size.toNat
  · rw [uint32_sub_toNat fits]
    omega
  · have := size.toNat_lt
    rw [uint32_sub_toNat_wrap (Nat.lt_of_not_le fits) small]
    omega

theorem Enters.reduced_iff {α : Type} {status : α → Int} {run : Option (α × Trace)}
    {b h : Nat} {size : UInt32} (small : h < 2 ^ 32)
    (enters : Enters run (b + h) (size - UInt32.ofNat h).toNat) :
    HandsInside status run b size.toNat h ↔ h ≤ size.toNat := by
  calc
    _ ↔ h + (size - UInt32.ofNat h).toNat ≤ size.toNat := enters.handsInside_iff
    _ ↔ h ≤ size.toNat := reduced_inside_iff small

theorem Enters.whole {α : Type} {status : α → Int} {run : Option (α × Trace)} {b h size : Nat}
    (pos : 0 < h) (enters : Enters run (b + h) size) : ¬ HandsInside status run b size h := by
  rw [enters.handsInside_iff]
  omega

section Bodies
variable {b : Nat} {size : UInt32}

theorem enters_body {α σ : Type} {run : Option (α × Trace)} {r : α} {n : Nat} {w : Walker}
    {step : Nat → σ → σ} {tr : Nat → σ → Trace} {c : Nat} {s : σ}
    (hrun : run = some (r, .enter b n :: loopTrace w step tr c s))
    (quiet : ∀ c s, (tr c s).enters = []) : Enters run b n := by
  refine ⟨r, _, hrun, ?_⟩
  rw [Trace.enters_cons, loopTrace_enters quiet]
  rfl

theorem eppRanEup_enters (det : EpRanDet) :
    Enters ((eppRanEup host b size (some det)).run m) b size.toNat := by
  by_cases short : size.toNat < 12
  · exact ⟨_, _, run_eppRanEup_short m short _, rfl⟩
  · refine ⟨_, _, run_eppRanEup m (by omega) det, ?_⟩
    rw [Trace.enters_cons, Trace.enters_append, loopTrace_enters fun c _ =>
      (setupTrace_handles m c).enters]
    simp [Event.enter?, masksTrace]

theorem parseSlice_enters {checked : Bool} (id : Option UInt64) (det : EpRanSliceDet) :
    Enters ((parseSlice host checked b size id (some det)).run m) b size.toNat := by
  by_cases short : size.toNat < 8
  · exact ⟨_, _, run_parseSlice_short m short _ _, rfl⟩
  · refine ⟨_, _, run_parseSlice m (by omega) id det, ?_⟩
    rw [Trace.enters_cons, Trace.enters_append, (Code.plain_assignTrace b 8 id).enters,
      loopTrace_enters fun c _ => (sliceTrace_handles m c).enters]
    rfl

theorem eppCellMeasRep_enters (rep : EpCellRep) :
    Enters ((eppCellMeasRep host (some b) size (some rep)).run m) b size.toNat :=
  enters_body (run_eppCellMeasRep m b size rep) fun c _ => (prbTrace_handles m c).enters

theorem eppCellMeasReq_enters : Enters ((eppCellMeasReq host (some b) size).run m) b size.toNat :=
  enters_body (run_eppCellMeasReq m b size) fun c _ => Code.enters_loadTrace c 2

theorem eppUemeasRep_enters (rep : EpUeReport) :
    Enters ((eppUemeasRep host (some b) size (some rep)).run m) b size.toNat :=
  enters_body (run_eppUemeasRep m b size rep) fun c s =>
    (rrcTrace_handles m rrcReportReads_plain c s).enters

theorem eppUemeasReq_enters (meas : EpUeMeas) :
    Enters ((eppUemeasReq host (some b) size (some meas)).run m) b size.toNat :=
  enters_body (run_eppUemeasReq m b size meas) fun c s =>
    (rrcTrace_handles m rrcMeasReads_plain c s).enters

theorem eppUerepRep_enters (nofUes maxUes : UInt32) (ues : Int → EpUeDetails) :
    Enters ((eppUerepRep host (some b) size (some nofUes) maxUes (some ues)).run m) b size.toNat :=
  enters_body (run_eppUerepRep host m b size nofUes maxUes ues) fun c s =>
    (uerepTrace_handles m maxUes c s).enters

theorem eppEcapRep_enters (det : EpEnbDet) :
    Enters ((eppEcapRep host b size (some det)).run m) b size.toNat :=
  enters_body (run_eppEcapRep m b size det) fun c s => (ecapTrace_handles m c s).enters

theorem eppSchedCellMeasReq_enters (interval : UInt32) :
    Enters ((eppSchedCellMeasReq host (some b) size (some interval)).run m) (b + 24 + 7)
      (size - UInt32.ofNat (24 + 7)).toNat := by
  obtain ⟨r, es, hrun, entered⟩ : Enters ((eppCellMeasReq host (some (b + 24 + 7))
      (size - UInt32.ofNat (24 + 7))).run m) (b + 24 + 7) (size - UInt32.ofNat (24 + 7)).toNat :=
    eppCellMeasReq_enters
  refine ⟨_, _, run_eppSchedCellMeasReq m hrun interval, ?_⟩
  rw [Trace.enters_append, (schedIntervalTrace_plain b size).enters, entered, List.nil_append]

theorem eppSingleRanSliceRep_handsInside_iff (id : Option UInt64) (det : EpRanSliceDet) :
    HandsInside Prod.fst ((eppSingleRanSliceRep host (some b) size id (some det)).run m) b
      size.toNat 27 ↔ 27 ≤ size.toNat :=
  (parseSlice_enters id det).reduced_iff (by decide)

theorem eppSingleEcapRep_not_handsInside (det : EpEnbDet) :
    ¬ HandsInside Prod.fst ((eppSingleEcapRep host (some b) size (some det)).run m) b
      size.toNat 27 :=
  (eppEcapRep_enters det).whole (by decide)

end Bodies

/-- Ten public parsers hand their body parser bytes inside the message exactly if
the message has room for the headers; the capabilities and the UE report parser
never do. -/
theorem bodies_handedInside_iff (host : ByteOrder) (m : Mem) (b : Nat) (size : UInt32) :
    (∀ det : EpRanDet, HandsInside Prod.fst
      ((eppSingleRanSetupRep host (some b) size (some det)).run m) b size.toNat 27 ↔
        27 ≤ size.toNat) ∧
    (∀ (id : Option UInt64) (det : EpRanSliceDet), HandsInside Prod.fst
      ((eppSingleRanSliceRep host (some b) size id (some det)).run m) b size.toNat 27 ↔
        27 ≤ size.toNat) ∧
    (∀ (id : Option UInt64) (det : EpRanSliceDet), HandsInside Prod.fst
      ((eppSingleRanSliceAdd host (some b) size id (some det)).run m) b size.toNat 27 ↔
        27 ≤ size.toNat) ∧
    (∀ (id : Option UInt64) (det : EpRanSliceDet), HandsInside Prod.fst
      ((eppSingleRanSliceSet host (some b) size id (some det)).run m) b size.toNat 27 ↔
        27 ≤ size.toNat) ∧
    (∀ rep : EpUeReport, HandsInside Prod.fst
      ((eppTriggerUemeasRep host (some b) size (some rep)).run m) b size.toNat 27 ↔
        27 ≤ size.toNat) ∧
    (∀ meas : EpUeMeas, HandsInside Prod.fst
      ((eppTriggerUemeasReq host (some b) size (some meas)).run m) b size.toNat 27 ↔
        27 ≤ size.toNat) ∧
    (∀ info : EpCellRep, HandsInside Prod.fst
      ((eppTriggerCellMeasRep host (some b) size (some info)).run m) b size.toNat 27 ↔
        27 ≤ size.toNat) ∧
    (HandsInside id ((eppTriggerCellMeasReq host (some b) size).run m) b size.toNat 27 ↔
      27 ≤ size.toNat) ∧
    (∀ info : EpCellRep, HandsInside Prod.fst
      ((eppSchedCellMeasRep host (some b) size (some info)).run m) b size.toNat 31 ↔
        31 ≤ size.toNat) ∧
    (∀ interval : UInt32, HandsInside Prod.fst
      ((eppSchedCellMeasReq host (some b) size (some interval)).run m) b size.toNat 31 ↔
        31 ≤ size.toNat) ∧
    (∀ det : EpEnbDet, ¬ HandsInside Prod.fst
      ((eppSingleEcapRep host (some b) size (some det)).run m) b size.toNat 27) ∧
    ∀ (nofUes maxUes : UInt32) (ues : Int → EpUeDetails), ¬ HandsInside Prod.fst
      ((eppTriggerUerepRep host (some b) size (some nofUes) maxUes (some ues)).run m) b
        size.toNat 27 :=
  ⟨fun det => (eppRanEup_enters det).reduced_iff (by decide),
    eppSingleRanSliceRep_handsInside_iff,
    fun id det => (parseSlice_enters id det).reduced_iff (by decide),
    fun id det => (parseSlice_enters id det).reduced_iff (by decide),
    fun rep => (eppUemeasRep_enters rep).reduced_iff (by decide),
    fun meas => (eppUemeasReq_enters meas).reduced_iff (by decide),
    fun info => (eppCellMeasRep_enters info).reduced_iff (by decide),
    eppCellMeasReq_enters.reduced_iff (by decide),
    fun info => (eppCellMeasRep_enters info).reduced_iff (by decide),
    fun interval => (eppSchedCellMeasReq_enters interval).reduced_iff (by decide),
    eppSingleEcapRep_not_handsInside,
    fun nofUes maxUes ues => (eppUerepRep_enters nofUes maxUes ues).whole (by decide)⟩

/-- A message of ten bytes is not refused, and a complete one is handed on with 27
bytes too many. -/
theorem shortMessage_not_handedInside :
    ¬ HandsInside Prod.fst ((eppSingleRanSliceRep .little (some 0) 10 (some 0)
        (some ⟨0, fun _ => 0, ⟨0, 0⟩⟩)).run fun _ => 0) 0 (10 : UInt32).toNat 27 ∧
      ¬ HandsInside Prod.fst ((eppSingleEcapRep .little (some 0) 27 (some .zero)).run fun _ => 0)
        0 (27 : UInt32).toNat 27 := by
  refine ⟨?_, eppSingleEcapRep_not_handsInside .zero⟩
  rw [eppSingleRanSliceRep_handsInside_iff]
  decide

end Emproto
