import Emproto.HeaderParse
import Emproto.UeTable
import Emproto.EnbCapsRun
import Emproto.CellMeas
import Emproto.UeMeas
import Emproto.WireRoundTrips

/-! Parsers that are given null for some of their outputs. -/

namespace Emproto

/-- Output pointers and what they point to. -/
class Outputs (α : Type) where
  /-- No pointer is null. -/
  Full : α → Prop
  /-- The values at those pointers that `out` has. -/
  keep : α → α → α
  keep_full : ∀ full values, Full full → keep full values = values

namespace Outputs

instance : Outputs Unit where
  Full _ := True
  keep _ values := values
  keep_full _ _ _ := rfl

instance {β : Type} : Outputs (Option β) where
  Full out := out.isSome
  keep out values := out.bind fun _ => values
  keep_full full values given := by
    obtain ⟨value, rfl⟩ := Option.isSome_iff_exists.mp given
    rfl

instance {α β : Type} [Outputs α] [Outputs β] : Outputs (α × β) where
  Full out := Full out.1 ∧ Full out.2
  keep out values := (keep out.1 values.1, keep out.2 values.2)
  keep_full full values given := by
    rw [keep_full _ _ given.1, keep_full _ _ given.2]

instance : Outputs HeadOut where
  Full out := Full out.type ∧ Full out.enbId ∧ Full out.cellId ∧ Full out.modId ∧ Full out.flags
  keep out values := ⟨keep out.type values.type, keep out.enbId values.enbId,
    keep out.cellId values.cellId, keep out.modId values.modId, keep out.flags values.flags⟩
  keep_full full values given := by
    obtain ⟨type, enbId, cellId, modId, flags⟩ := given
    rw [keep_full _ _ type, keep_full _ _ enbId, keep_full _ _ cellId, keep_full _ _ modId,
      keep_full _ _ flags]

instance : Outputs HoRepOut where
  Full out := Full out.originENB ∧ Full out.originPci ∧ Full out.originRnti ∧ Full out.targetRnti
  keep out values := ⟨keep out.originENB values.originENB, keep out.originPci values.originPci,
    keep out.originRnti values.originRnti, keep out.targetRnti values.targetRnti⟩
  keep_full full values given := by
    obtain ⟨originENB, originPci, originRnti, targetRnti⟩ := given
    rw [keep_full _ _ originENB, keep_full _ _ originPci, keep_full _ _ originRnti,
      keep_full _ _ targetRnti]

instance : Outputs HoReqOut where
  Full out := Full out.rnti ∧ Full out.enb ∧ Full out.pci ∧ Full out.cause
  keep out values := ⟨keep out.rnti values.rnti, keep out.enb values.enb, keep out.pci values.pci,
    keep out.cause values.cause⟩
  keep_full full values given := by
    obtain ⟨rnti, enb, pci, cause⟩ := given
    rw [keep_full _ _ rnti, keep_full _ _ enb, keep_full _ _ pci, keep_full _ _ cause]

theorem keep_some {β : Type} (out : Option β) (value : β) :
    keep out (some value) = out.map fun _ => value := by
  cases out <;> rfl

end Outputs

open Outputs

/-- A parser that was given the pointers of `out`, where all of `full` were to be had. It
ends, and either fails and leaves what it was given alone, or returns what it returns for
`full`, with the same values at the pointers that it was given. -/
def SparesNull {α : Type} [Outputs α] (parse : α → Code (Int × α)) (m : Mem) (full out : α) :
    Prop :=
  ∃ status out', (parse out).result m = some (status, out') ∧
    ((status < 0 ∧ out' = out) ∨
      ∃ full', (parse full).result m = some (status, full') ∧ out' = keep out full')

namespace SparesNull
variable {α : Type} [Outputs α] {parse : α → Code (Int × α)} {m : Mem} {full out : α}

theorem of_refused (status : Int) (error : status < 0)
    (refused : (parse out).result m = some (status, out)) : SparesNull parse m full out :=
  ⟨status, out, refused, .inl ⟨error, rfl⟩⟩

theorem of_values (status : Int) (values : α) (given : Full full)
    (run : ∀ o, (parse o).result m = some (status, keep o values)) :
    SparesNull parse m full out := by
  refine ⟨status, keep out values, run out, .inr ⟨keep full values, run full, ?_⟩⟩
  rw [keep_full full values given]

theorem of_full (status : Int) (values : α) (given : Full full)
    (run : (parse full).result m = some (status, values)) : SparesNull parse m full full :=
  ⟨status, values, run, .inr ⟨values, run, (keep_full full values given).symm⟩⟩

theorem of_crash (crash : (parse out).result m = none) : ¬ SparesNull parse m full out := by
  rintro ⟨status, out', run, -⟩
  cases crash.symm.trans run

theorem of_required {β : Type} {parse : Option β → Code (Int × Option β)} {full : Option β}
    (refused : (parse none).result m = some (-1, none))
    (run : ∀ old, ∃ r, (parse (some old)).run m = some r)
    (given : Full full) (mask : Option β) : SparesNull parse m full (keep mask full) := by
  cases mask with
  | none => exact of_refused (-1) (by decide) refused
  | some _ =>
    obtain ⟨old, rfl⟩ := Option.isSome_iff_exists.mp given
    obtain ⟨⟨⟨status, values⟩, t⟩, run⟩ := run old
    exact of_full status values rfl (Code.result_of m run)

end SparesNull

inductive PublicParser
  | head
  | singleHelloReq
  | singleHelloRep
  | schedHelloReq
  | schedHelloRep
  | singleHoReq
  | singleHoRep
  | singleEcapReq
  | singleEcapRep
  | triggerUerepReq
  | triggerUerepRep (maxUes : UInt32)
  | triggerUemeasReq
  | triggerUemeasRep
  | schedCellMeasReq
  | schedCellMeasRep
  | triggerCellMeasReq
  | triggerCellMeasRep
  | singleRanSetupReq
  | singleRanSetupRep
  | singleRanSliceReq
  | singleRanSliceRem
  | singleRanSliceRep
  | singleRanSliceAdd
  | singleRanSliceSet
deriving DecidableEq, Repr

namespace PublicParser

/-- The outputs of a parser, as the caller has them: `none` is the null pointer. -/
def Out : PublicParser → Type
  | head => HeadOut
  | singleHelloReq => Option UInt32
  | singleHelloRep => Option UInt32
  | schedHelloReq => Option UInt32
  | schedHelloRep => Option UInt32
  | singleHoReq => HoReqOut
  | singleHoRep => HoRepOut
  | singleEcapReq => Unit
  | singleEcapRep => Option EpEnbDet
  | triggerUerepReq => Unit
  | triggerUerepRep _ => Option (Int → EpUeDetails) × Option UInt32
  | triggerUemeasReq => Option EpUeMeas
  | triggerUemeasRep => Option EpUeReport
  | schedCellMeasReq => Option UInt32
  | schedCellMeasRep => Option EpCellRep
  | triggerCellMeasReq => Unit
  | triggerCellMeasRep => Option EpCellRep
  | singleRanSetupReq => Unit
  | singleRanSetupRep => Option EpRanDet
  | singleRanSliceReq => Option UInt64
  | singleRanSliceRem => Option UInt64
  | singleRanSliceRep => Option UInt64 × Option EpRanSliceDet
  | singleRanSliceAdd => Option UInt64 × Option EpRanSliceDet
  | singleRanSliceSet => Option UInt64 × Option EpRanSliceDet

instance : (p : PublicParser) → Outputs p.Out
  | head => inferInstanceAs (Outputs HeadOut)
  | singleHelloReq => inferInstanceAs (Outputs (Option UInt32))
  | singleHelloRep => inferInstanceAs (Outputs (Option UInt32))
  | schedHelloReq => inferInstanceAs (Outputs (Option UInt32))
  | schedHelloRep => inferInstanceAs (Outputs (Option UInt32))
  | singleHoReq => inferInstanceAs (Outputs HoReqOut)
  | singleHoRep => inferInstanceAs (Outputs HoRepOut)
  | singleEcapReq => inferInstanceAs (Outputs Unit)
  | singleEcapRep => inferInstanceAs (Outputs (Option EpEnbDet))
  | triggerUerepReq => inferInstanceAs (Outputs Unit)
  | triggerUerepRep _ => inferInstanceAs (Outputs (Option (Int → EpUeDetails) × Option UInt32))
  | triggerUemeasReq => inferInstanceAs (Outputs (Option EpUeMeas))
  | triggerUemeasRep => inferInstanceAs (Outputs (Option EpUeReport))
  | schedCellMeasReq => inferInstanceAs (Outputs (Option UInt32))
  | schedCellMeasRep => inferInstanceAs (Outputs (Option EpCellRep))
  | triggerCellMeasReq => inferInstanceAs (Outputs Unit)
  | triggerCellMeasRep => inferInstanceAs (Outputs (Option EpCellRep))
  | singleRanSetupReq => inferInstanceAs (Outputs Unit)
  | singleRanSetupRep => inferInstanceAs (Outputs (Option EpRanDet))
  | singleRanSliceReq => inferInstanceAs (Outputs (Option UInt64))
  | singleRanSliceRem => inferInstanceAs (Outputs (Option UInt64))
  | singleRanSliceRep => inferInstanceAs (Outputs (Option UInt64 × Option EpRanSliceDet))
  | singleRanSliceAdd => inferInstanceAs (Outputs (Option UInt64 × Option EpRanSliceDet))
  | singleRanSliceSet => inferInstanceAs (Outputs (Option UInt64 × Option EpRanSliceDet))

def silent (status : Code Int) (_ : Unit) : Code (Int × Unit) := do
  let status ← status
  pure (status, ())

def parse (host : ByteOrder) (b : Nat) (size : UInt32) :
    (p : PublicParser) → p.Out → Code (Int × p.Out)
  | head => eppHead host (some b) size
  | singleHelloReq => eppSingleHelloReq host (some b) size
  | singleHelloRep => eppSingleHelloRep host (some b) size
  | schedHelloReq => eppSchedHelloReq host (some b) size
  | schedHelloRep => eppSchedHelloRep host (some b) size
  | singleHoReq => eppSingleHoReq host (some b) size
  | singleHoRep => eppSingleHoRep host (some b) size
  | singleEcapReq => silent (eppSingleEcapReq (some b) size)
  | singleEcapRep => eppSingleEcapRep host (some b) size
  | triggerUerepReq => silent (eppTriggerUerepReq (some b) size)
  | triggerUerepRep maxUes => fun out => eppTriggerUerepRep host (some b) size out.2 maxUes out.1
  | triggerUemeasReq => eppTriggerUemeasReq host (some b) size
  | triggerUemeasRep => eppTriggerUemeasRep host (some b) size
  | schedCellMeasReq => eppSchedCellMeasReq host (some b) size
  | schedCellMeasRep => eppSchedCellMeasRep host (some b) size
  | triggerCellMeasReq => silent (eppTriggerCellMeasReq host (some b) size)
  | triggerCellMeasRep => eppTriggerCellMeasRep host (some b) size
  | singleRanSetupReq => silent (eppSingleRanSetupReq (some b) size)
  | singleRanSetupRep => eppSingleRanSetupRep host (some b) size
  | singleRanSliceReq => eppSingleRanSliceReq host (some b) size
  | singleRanSliceRem => eppSingleRanSliceRem host (some b) size
  | singleRanSliceRep => fun out => eppSingleRanSliceRep host (some b) size out.1 out.2
  | singleRanSliceAdd => fun out => eppSingleRanSliceAdd host (some b) size out.1 out.2
  | singleRanSliceSet => fun out => eppSingleRanSliceSet host (some b) size out.1 out.2

end PublicParser

def IsSliceToken (m : Mem) (c : Nat) : Prop :=
  (m.be c : UInt16) = EpTLVType.rntiReport.code ∨
    (m.be c : UInt16) = EpTLVType.ranSliceMacRes.code ∨
    (m.be c : UInt16) = EpTLVType.ranSliceMacSched.code

instance (m : Mem) : DecidablePred (IsSliceToken m) :=
  fun _ => inferInstanceAs (Decidable (_ ∨ _ ∨ _))

def HasSliceToken (m : Mem) (p : Nat) (size : UInt32) : Prop :=
  8 ≤ size.toNat ∧ ∃ c ∈ (m.walker false (p + size.toNat)).walk (p + 8), IsSliceToken m c

instance (m : Mem) (p : Nat) (size : UInt32) : Decidable (HasSliceToken m p size) :=
  inferInstanceAs (Decidable (_ ∧ _))

/-- The parsers that use a pointer without a look at it: the interval of a request always,
the record of a slice at a token for it. -/
def PublicParser.NeedsNull (m : Mem) (b : Nat) (size : UInt32) :
    (p : PublicParser) → p.Out → Prop
  | schedCellMeasReq, (interval : Option UInt32) => interval = none
  | singleRanSliceRep, (out : Option UInt64 × Option EpRanSliceDet) =>
    out.2 = none ∧ HasSliceToken m (b + 27) (size - UInt32.ofNat 27)
  | singleRanSliceAdd, (out : Option UInt64 × Option EpRanSliceDet) =>
    out.2 = none ∧ HasSliceToken m (b + 27) (size - UInt32.ofNat 27)
  | singleRanSliceSet, (out : Option UInt64 × Option EpRanSliceDet) =>
    out.2 = none ∧ HasSliceToken m (b + 27) (size - UInt32.ofNat 27)
  | _, _ => False

section Fields
variable {host : ByteOrder} {b : Nat} {size : UInt32} {m : Mem}

theorem eppHead_sparesNull {full : HeadOut} (given : Full full) (out : HeadOut) :
    SparesNull (eppHead host (some b) size) m full out := by
  by_cases short : size.toNat < 24
  · refine .of_refused (-1) (by decide) ?_
    rw [eppHead, if_pos short]
    rfl
  by_cases vers : m (b + 1) = empowerProtocolVers
  · refine .of_values epSuccess ⟨some (m b).toUInt32, some (m.be (b + 2)), some (m.be (b + 10)),
      some (m.be (b + 12)), some (m.word host (b + 16))⟩ given fun o => ?_
    rw [result_eppHead m (Nat.le_of_not_lt short) vers]
    simp only [HeadOut.assign, ← keep_some]
    rfl
  · refine .of_refused epWrongVersion (by decide) ?_
    rw [eppHead, if_neg short]
    simp [vers]

theorem eppHello_sparesNull (headers : Nat) {full : Option UInt32} (given : Full full)
    (out : Option UInt32) :
    SparesNull (eppHello headers (parseHello host) (some b) size) m full out := by
  by_cases short : size.toNat < 4
  · refine .of_refused (-1) (by decide) ?_
    rw [eppHello, parseHello, Code.result_note_bind rfl, if_pos short]
    rfl
  · refine .of_values epSuccess (some (m.be (b + headers))) given fun o => ?_
    rw [eppHello, parseHello, Code.result_note_bind rfl, if_neg short, keep_some,
      Code.result_assignFetch_bind]
    rfl

theorem parseSliceId_sparesNull {p : Nat} {full : Option UInt64} (given : Full full)
    (out : Option UInt64) : SparesNull (parseSliceId host p size) m full out := by
  by_cases short : size.toNat < 8
  · refine .of_refused (-1) (by decide) ?_
    rw [parseSliceId, Code.result_note_bind rfl, if_pos short]
    rfl
  · refine .of_values epSuccess (some (m.be p)) given fun o => ?_
    rw [parseSliceId, Code.result_note_bind rfl, if_neg short, keep_some]
    exact Code.result_assignFetch_bind m p host o _

theorem eppHoRep_sparesNull {p : Nat} {full : HoRepOut} (given : Full full) (out : HoRepOut) :
    SparesNull (eppHoRep host p size) m full out := by
  by_cases short : size.toNat < 14
  · refine .of_refused (-1) (by decide) ?_
    rw [eppHoRep, Code.result_note_bind rfl, if_pos short]
    rfl
  · refine .of_values epSuccess ⟨some (m.be p), some (m.be (p + 8)), some (m.be (p + 10)),
      some (m.be (p + 12))⟩ given fun o => ?_
    rw [eppHoRep, Code.result_note_bind rfl, if_neg short]
    simp only [Code.result_assignFetch_bind, ← keep_some]
    rfl

theorem eppHoReq_sparesNull {p : Nat} {full : HoReqOut} (given : Full full) (out : HoReqOut) :
    SparesNull (eppHoReq host p size) m full out := by
  by_cases short : size.toNat < 13
  · refine .of_refused (-1) (by decide) ?_
    rw [eppHoReq, Code.result_note_bind rfl, if_pos short]
    rfl
  · refine .of_values epSuccess ⟨some (m.be p), some (m.be (p + 2)), some (m.be (p + 10)),
      some (m (p + 12))⟩ given fun o => ?_
    rw [eppHoReq, Code.result_note_bind rfl, if_neg short]
    simp only [Code.result_assignFetch_bind, Code.result_assignLoad_bind, Mem.word_uint8,
      ← keep_some]
    rfl

theorem PublicParser.silent_sparesNull {c : Code Int} {status : Int}
    (run : c.result m = some status) : SparesNull (PublicParser.silent c) m () () := by
  refine .of_full status () trivial ?_
  rw [PublicParser.silent, Code.result_bind_pure, run]
  rfl

end Fields

section Records
variable {host : ByteOrder} {b : Nat} {size : UInt32} {m : Mem}

theorem eppEcapRep_sparesNull {p : Nat} {full : Option EpEnbDet} (given : Full full)
    (mask : Option EpEnbDet) : SparesNull (eppEcapRep host p size) m full (keep mask full) :=
  .of_required rfl (fun old => ⟨_, run_eppEcapRep m p size old⟩) given mask

theorem eppUerepRep_sparesNull (maxUes : UInt32)
    {full : Option (Int → EpUeDetails) × Option UInt32} (given : Full full)
    (mask : Option (Int → EpUeDetails) × Option UInt32) :
    SparesNull (fun out => eppUerepRep host (some b) size out.2 maxUes out.1) m full
      (keep mask full) := by
  obtain ⟨ues, hues⟩ := Option.isSome_iff_exists.mp given.1
  obtain ⟨n, hn⟩ := Option.isSome_iff_exists.mp given.2
  obtain ⟨first, second⟩ := full
  subst hues hn
  obtain ⟨mask, mask'⟩ := mask
  cases mask with
  | none => exact .of_refused (-1) (by decide) rfl
  | some _ =>
    cases mask' with
    | none => exact .of_refused (-1) (by decide) rfl
    | some _ =>
      exact .of_full _ _ ⟨rfl, rfl⟩ (Code.result_of m (run_eppUerepRep host m b size n maxUes ues))

theorem eppTriggerUemeasReq_sparesNull {full : Option EpUeMeas} (given : Full full)
    (mask : Option EpUeMeas) :
    SparesNull (eppTriggerUemeasReq host (some b) size) m full (keep mask full) := by
  refine .of_required rfl (fun old => ?_) given mask
  exact ⟨_, run_eppUemeasReq m (b + 24 + 3) _ old⟩

theorem eppTriggerUemeasRep_sparesNull {full : Option EpUeReport} (given : Full full)
    (mask : Option EpUeReport) :
    SparesNull (eppTriggerUemeasRep host (some b) size) m full (keep mask full) := by
  refine .of_required rfl (fun old => ?_) given mask
  exact ⟨_, run_eppUemeasRep m (b + 24 + 3) _ old⟩

theorem eppSchedCellMeasRep_sparesNull {full : Option EpCellRep} (given : Full full)
    (mask : Option EpCellRep) :
    SparesNull (eppSchedCellMeasRep host (some b) size) m full (keep mask full) := by
  refine .of_required rfl (fun old => ?_) given mask
  exact ⟨_, run_eppCellMeasRep m (b + 24 + 7) _ old⟩

theorem eppTriggerCellMeasRep_sparesNull {full : Option EpCellRep} (given : Full full)
    (mask : Option EpCellRep) :
    SparesNull (eppTriggerCellMeasRep host (some b) size) m full (keep mask full) := by
  refine .of_required rfl (fun old => ?_) given mask
  exact ⟨_, run_eppCellMeasRep m (b + 24 + 3) _ old⟩

theorem eppRanEup_sparesNull {p : Nat} {full : Option EpRanDet} (given : Full full)
    (mask : Option EpRanDet) : SparesNull (eppRanEup host p size) m full (keep mask full) := by
  by_cases short : size.toNat < 12
  · exact .of_refused (-1) (by decide) (Code.result_of m (run_eppRanEup_short m short _))
  obtain ⟨old, rfl⟩ := Option.isSome_iff_exists.mp given
  have run : (eppRanEup host p size (some old)).result m = some _ :=
    Code.result_of m (run_eppRanEup m (Nat.le_of_not_lt short) old)
  cases mask with
  | none =>
    refine ⟨0, none, ?_, .inr ⟨_, run, rfl⟩⟩
    unfold eppRanEup
    rw [Code.result_note_bind rfl, if_neg short]
    rfl
  | some _ => exact .of_full _ _ rfl run

theorem eppSchedCellMeasReq_sparesNull_iff {full : Option UInt32} (given : Full full)
    (mask : Option UInt32) :
    SparesNull (eppSchedCellMeasReq host (some b) size) m full (keep mask full) ↔ mask ≠ none := by
  obtain ⟨old, rfl⟩ := Option.isSome_iff_exists.mp given
  cases mask with
  | none =>
    refine iff_of_false (SparesNull.of_crash ?_) (fun h => h rfl)
    rw [eppSchedCellMeasReq, Code.result_bind m (run_eppSchedInterval m b size)
      (schedIntervalTrace_plain b size).stores]
    rfl
  | some _ =>
    have run : (eppSchedCellMeasReq host (some b) size (some old)).result m = some _ :=
      Code.result_of m (run_eppSchedCellMeasReq m (run_eppCellMeasReq m _ _) old)
    exact iff_of_true (.of_full _ _ rfl run) (Option.some_ne_none _)

end Records

section Slices
variable {host : ByteOrder} {checked : Bool} {p : Nat} {size : UInt32} {m : Mem}

theorem run_eppRanTLV_null (m : Mem) (c : Nat) :
    (eppRanTLV host c none).run m =
      if IsSliceToken m c then none else some ((0, none), .call c :: Code.loadTrace c 2) := by
  rw [eppRanTLV, Code.run_note_bind m rfl, Code.run_load_bind]
  simp only [Mem.ntoh_word, IsSliceToken]
  by_cases users : (m.be c : UInt16) = EpTLVType.rntiReport.code
  · simp [users]
  by_cases res : (m.be c : UInt16) = EpTLVType.ranSliceMacRes.code
  · simp [res]
  by_cases sched : (m.be c : UInt16) = EpTLVType.ranSliceMacSched.code
  · simp [sched]
  · simp [users, res, sched, Word.width]

theorem result_parseSlice_null (h : 8 ≤ size.toNat) (id : Option UInt64) :
    (parseSlice host checked p size id none).result m =
      if HasSliceToken m p size then none else some (0, id.map fun _ => m.be p, none) := by
  have loop : (tokenLoop host false checked (eppRanTLV host) (p + size.toNat) size.toNat (p + 8)
      none).result m = if HasSliceToken m p size then none else some (0, none) := by
    have crash (c : Nat) (used : IsSliceToken m c) : (eppRanTLV host c none).run m = none := by
      rw [run_eppRanTLV_null, if_pos used]
    have still (c : Nat) (unused : ¬ IsSliceToken m c) :
        ∃ t, (eppRanTLV host c none).run m = some ((0, none), t) ∧ t.stores = [] :=
      ⟨.call c :: Code.loadTrace c 2, by rw [run_eppRanTLV_null, if_neg unused],
        by simp [Event.store?]⟩
    rw [result_tokenLoop_still crash still (by omega)]
    simp [HasSliceToken, h]
  have value : (Code.assign id do
      let id : UInt64 ← Code.load host p
      pure (be64toh host id)).run m = some (id.map fun _ => m.be p, Code.assignTrace id p 8) :=
    Code.run_assignFetch m p host id
  rw [parseSlice, Code.result_note_bind rfl, if_neg (by omega),
    Code.result_bind m value (Code.plain_assignTrace p 8 id).stores]
  refine (Code.result_bind_pure m _ fun r : Int × Option EpRanSliceDet =>
    (r.1, id.map fun _ => m.be p, r.2)).trans ?_
  rw [loop]
  split <;> rfl

/-- A slice id that is null is no error; a record that is null is none if no token is for
it. -/
theorem parseSlice_sparesNull_iff {full : Option UInt64 × Option EpRanSliceDet}
    (given : Full full) (mask : Option UInt64 × Option EpRanSliceDet) :
    SparesNull (fun out => parseSlice host checked p size out.1 out.2) m full (keep mask full) ↔
      ¬ (mask.2 = none ∧ HasSliceToken m p size) := by
  obtain ⟨id, hid⟩ := Option.isSome_iff_exists.mp given.1
  obtain ⟨det, hdet⟩ := Option.isSome_iff_exists.mp given.2
  obtain ⟨first, second⟩ := full
  subst hid hdet
  by_cases short : size.toNat < 8
  · refine iff_of_true (.of_refused (-1) (by decide) ?_) ?_
    · exact Code.result_of m (run_parseSlice_short m short _ _)
    · rintro ⟨-, long, -⟩
      omega
  have long := Nat.le_of_not_lt short
  have run : (parseSlice host checked p size (some id) (some det)).result m = some _ :=
    Code.result_of m (run_parseSlice m long (some id) det)
  obtain ⟨mask, mask'⟩ := mask
  cases mask' with
  | none =>
    have run' : (parseSlice host checked p size (keep mask (some id)) none).result m = _ :=
      result_parseSlice_null long _
    by_cases used : HasSliceToken m p size
    · rw [if_pos used] at run'
      exact iff_of_false (SparesNull.of_crash run') (fun unused => unused ⟨rfl, used⟩)
    · rw [if_neg used] at run'
      refine iff_of_true ⟨_, _, run', .inr ⟨_, run, ?_⟩⟩ fun needs => used needs.2
      cases mask <;> rfl
  | some _ =>
    have run' :
        (parseSlice host checked p size (keep mask (some id)) (some det)).result m = some _ :=
      Code.result_of m (run_parseSlice m long _ det)
    refine iff_of_true ⟨_, _, run', .inr ⟨_, run, ?_⟩⟩ fun needs => Option.some_ne_none _ needs.1
    cases mask <;> rfl

end Slices

/-- Which parsers spare which pointers, whatever the message. -/
theorem PublicParser.sparesNull_iff (host : ByteOrder) (b : Nat) (size : UInt32) (m : Mem)
    (p : PublicParser) (full : p.Out) (given : Full full) (mask : p.Out) :
    SparesNull (p.parse host b size) m full (keep mask full) ↔ ¬ p.NeedsNull m b size mask := by
  cases p with
  | head => exact iff_of_true (eppHead_sparesNull given _) not_false
  | singleHelloReq => exact iff_of_true (eppHello_sparesNull (24 + 3) given _) not_false
  | singleHelloRep => exact iff_of_true (eppHello_sparesNull (24 + 3) given _) not_false
  | schedHelloReq => exact iff_of_true (eppHello_sparesNull (24 + 7) given _) not_false
  | schedHelloRep => exact iff_of_true (eppHello_sparesNull (24 + 7) given _) not_false
  | singleHoReq => exact iff_of_true (eppHoReq_sparesNull given _) not_false
  | singleHoRep => exact iff_of_true (eppHoRep_sparesNull given _) not_false
  | singleEcapReq => exact iff_of_true (silent_sparesNull rfl) not_false
  | singleEcapRep => exact iff_of_true (eppEcapRep_sparesNull given _) not_false
  | triggerUerepReq =>
    have run : (eppTriggerUerepReq (some b) size).result m =
        some (if size.toNat < 1 then epError else epSuccess) := by
      rw [eppTriggerUerepReq, eppUerepReq, Code.result_note_bind rfl]
      split <;> rfl
    exact iff_of_true (silent_sparesNull run) not_false
  | triggerUerepRep maxUes => exact iff_of_true (eppUerepRep_sparesNull maxUes given _) not_false
  | triggerUemeasReq => exact iff_of_true (eppTriggerUemeasReq_sparesNull given _) not_false
  | triggerUemeasRep => exact iff_of_true (eppTriggerUemeasRep_sparesNull given _) not_false
  | schedCellMeasReq => exact eppSchedCellMeasReq_sparesNull_iff given mask
  | schedCellMeasRep => exact iff_of_true (eppSchedCellMeasRep_sparesNull given _) not_false
  | triggerCellMeasReq =>
    exact iff_of_true (silent_sparesNull (Code.result_of m (run_eppCellMeasReq m _ _))) not_false
  | triggerCellMeasRep => exact iff_of_true (eppTriggerCellMeasRep_sparesNull given _) not_false
  | singleRanSetupReq => exact iff_of_true (silent_sparesNull rfl) not_false
  | singleRanSetupRep => exact iff_of_true (eppRanEup_sparesNull given _) not_false
  | singleRanSliceReq => exact iff_of_true (parseSliceId_sparesNull given _) not_false
  | singleRanSliceRem => exact iff_of_true (parseSliceId_sparesNull given _) not_false
  | singleRanSliceRep => exact parseSlice_sparesNull_iff given mask
  | singleRanSliceAdd => exact parseSlice_sparesNull_iff given mask
  | singleRanSliceSet => exact parseSlice_sparesNull_iff given mask

def sliceReply : Mem :=
  Mem.ofBytes [1, 1, 0, 0, 0, 0, 0, 0, 0, 1, 0, 2, 0, 0, 0, 3, 1, 0, 0, 0, 0, 0, 0, 49,
    0, 10, 0, 0, 0, 0, 0, 0, 0, 0, 5, 5, 1, 0, 2, 0, 0, 5, 2, 0, 4, 0, 0, 0, 20]

theorem PublicParser.sparesNull_iff_sliceReply :
    SparesNull (singleRanSliceRep.parse .little 0 49) sliceReply
      ((some 0, some ⟨0, fun _ => 0, ⟨0, 0⟩⟩) : Option UInt64 × Option EpRanSliceDet)
      ((none, some ⟨0, fun _ => 0, ⟨0, 0⟩⟩) : Option UInt64 × Option EpRanSliceDet) :=
  (PublicParser.sparesNull_iff .little 0 49 sliceReply .singleRanSliceRep
    ((some 0, some ⟨0, fun _ => 0, ⟨0, 0⟩⟩) : Option UInt64 × Option EpRanSliceDet) ⟨rfl, rfl⟩
    ((none, some ⟨0, fun _ => 0, ⟨0, 0⟩⟩) : Option UInt64 × Option EpRanSliceDet)).mpr
      fun needs => Option.some_ne_none _ needs.1

/-- A request whose interval is not asked for, and that reply's id without its record. -/
theorem sliceReply_not_sparesNull :
    ¬ SparesNull (PublicParser.schedCellMeasReq.parse .little 0 35)
        (Mem.ofBytes [2, 1, 0, 0, 0, 0, 0, 0, 0, 1, 0, 2, 0, 0, 0, 3, 0, 0, 0, 0, 0, 0, 0, 35,
          0, 6, 0, 0, 0, 1, 244, 1, 1, 0, 0])
        (some 0 : Option UInt32) (none : Option UInt32) ∧
      ¬ SparesNull (PublicParser.singleRanSliceRep.parse .little 0 49) sliceReply
        ((some 0, some ⟨0, fun _ => 0, ⟨0, 0⟩⟩) : Option UInt64 × Option EpRanSliceDet)
        ((some 0, none) : Option UInt64 × Option EpRanSliceDet) := by
  refine ⟨fun spares => ?_, fun spares => ?_⟩
  · exact eppSchedCellMeasReq_sparesNull_iff rfl none |>.mp spares rfl
  · have reached : HasSliceToken sliceReply 27 (49 - UInt32.ofNat 27) := by decide
    exact parseSlice_sparesNull_iff ⟨rfl, rfl⟩ (some 0, none) |>.mp spares ⟨rfl, reached⟩

end Emproto
