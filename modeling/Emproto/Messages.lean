import Emproto.BodyFills

/-! The public message formatters as one family: what each puts into the headers, and
that no later store touches what the headers say. -/

namespace Emproto

/-- A call of a public formatter, without the buffer and the identifiers. -/
inductive Message
  | singleHelloReq (id : UInt32)
  | singleHelloRep (id : UInt32)
  | schedHelloReq (interval id : UInt32)
  | schedHelloRep (interval id : UInt32)
  | singleEcapReq
  | singleEcapRep (det : Option EpEnbDet)
  | singleEcapRepFail
  | triggerUerepReq (op : EpOpType)
  | triggerUerepRep (nofUes maxUes : UInt32) (ues : Option (Nat → EpUeDetails))
  | triggerUerepRepFail
  | triggerUemeasReq (op : EpOpType) (meas : Option EpUeMeas)
  | triggerUemeasRep (rep : Option EpUeReport)
  | triggerUemeasRepFail
  | schedCellMeasReq (interval : UInt32)
  | schedCellMeasRep (interval : UInt32) (info : Option EpCellRep)
  | schedCellMeasFail
  | schedCellMeasNs
  | triggerCellMeasReq
  | triggerCellMeasRep (info : Option EpCellRep)
  | triggerCellMeasFail
  | triggerCellMeasNs
  | singleHoReq (rnti : UInt16) (enb : UInt64) (pci : UInt16) (cause : UInt8)
  | singleHoRep (originENB : UInt64) (originPci originRnti targetRnti : UInt16)
  | singleHoRepFail (originENB : UInt64) (originPci originRnti targetRnti : UInt16)
  | singleHoRepNs (originENB : UInt64) (originPci originRnti targetRnti : UInt16)
  | singleRanRepSuccess (type : EpActType)
  | singleRanRepFail (type : EpActType) (sliceId : UInt64)
  | singleRanRepNs (type : EpActType) (sliceId : UInt64)
  | singleRanSetupReq
  | singleRanSetupRep (det : Option EpRanDet)
  | singleRanSliceReq (sliceId : UInt64)
  | singleRanSliceRep (sliceId : UInt64) (det : Option EpRanSliceDet)
  | singleRanSliceAdd (sliceId : UInt64) (det : Option EpRanSliceDet)
  | singleRanSliceSet (sliceId : UInt64) (det : Option EpRanSliceDet)
  | singleRanSliceRem (sliceId : UInt64)

namespace Message

def format (host : ByteOrder) (buf : Option Nat) (size : UInt32) (ids : EpHdrId) :
    Message → Code Int
  | singleHelloReq id => epfSingleHelloReq host buf size ids id
  | singleHelloRep id => epfSingleHelloRep host buf size ids id
  | schedHelloReq interval id => epfSchedHelloReq host buf size ids interval id
  | schedHelloRep interval id => epfSchedHelloRep host buf size ids interval id
  | singleEcapReq => epfSingleEcapReq host buf size ids
  | singleEcapRep det => epfSingleEcapRep host buf size ids det
  | singleEcapRepFail => epfSingleEcapRepFail host buf size ids
  | triggerUerepReq op => epfTriggerUerepReq host buf size ids op
  | triggerUerepRep nofUes maxUes ues => epfTriggerUerepRep host buf size ids nofUes maxUes ues
  | triggerUerepRepFail => epfTriggerUerepRepFail host buf size ids
  | triggerUemeasReq op meas => epfTriggerUemeasReq host buf size ids op meas
  | triggerUemeasRep rep => epfTriggerUemeasRep host buf size ids rep
  | triggerUemeasRepFail => epfTriggerUemeasRepFail host buf size ids
  | schedCellMeasReq interval => epfSchedCellMeasReq host buf size ids interval
  | schedCellMeasRep interval info => epfSchedCellMeasRep host buf size ids interval info
  | schedCellMeasFail => epfSchedCellMeasFail host buf size ids
  | schedCellMeasNs => epfSchedCellMeasNs host buf size ids
  | triggerCellMeasReq => epfTriggerCellMeasReq host buf size ids
  | triggerCellMeasRep info => epfTriggerCellMeasRep host buf size ids info
  | triggerCellMeasFail => epfTriggerCellMeasFail host buf size ids
  | triggerCellMeasNs => epfTriggerCellMeasNs host buf size ids
  | singleHoReq rnti enb pci cause => epfSingleHoReq host buf size ids rnti enb pci cause
  | singleHoRep enb pci origin target => epfSingleHoRep host buf size ids enb pci origin target
  | singleHoRepFail enb pci origin target =>
    epfSingleHoRepFail host buf size ids enb pci origin target
  | singleHoRepNs enb pci origin target => epfSingleHoRepNs host buf size ids enb pci origin target
  | singleRanRepSuccess type => epfSingleRanRepSuccess host buf size type ids
  | singleRanRepFail type sliceId => epfSingleRanRepFail host buf size type ids sliceId
  | singleRanRepNs type sliceId => epfSingleRanRepNs host buf size type ids sliceId
  | singleRanSetupReq => epfSingleRanSetupReq host buf size ids
  | singleRanSetupRep det => epfSingleRanSetupRep host buf size ids det
  | singleRanSliceReq sliceId => epfSingleRanSliceReq host buf size ids sliceId
  | singleRanSliceRep sliceId det => epfSingleRanSliceRep host buf size ids sliceId det
  | singleRanSliceAdd sliceId det => epfSingleRanSliceAdd host buf size ids sliceId det
  | singleRanSliceSet sliceId det => epfSingleRanSliceSet host buf size ids sliceId det
  | singleRanSliceRem sliceId => epfSingleRanSliceRem host buf size ids sliceId

/-! What the name and the arguments of a formatter say. -/

def type : Message → EpMsgType
  | schedHelloReq _ _ => .schedule
  | schedHelloRep _ _ => .schedule
  | schedCellMeasReq _ => .schedule
  | schedCellMeasRep _ _ => .schedule
  | schedCellMeasFail => .schedule
  | schedCellMeasNs => .schedule
  | triggerUerepReq _ => .trigger
  | triggerUerepRep _ _ _ => .trigger
  | triggerUerepRepFail => .trigger
  | triggerUemeasReq _ _ => .trigger
  | triggerUemeasRep _ => .trigger
  | triggerUemeasRepFail => .trigger
  | triggerCellMeasReq => .trigger
  | triggerCellMeasRep _ => .trigger
  | triggerCellMeasFail => .trigger
  | triggerCellMeasNs => .trigger
  | _ => .single

def dir : Message → EpHdrFlagDir
  | singleHelloReq _ => .req
  | schedHelloReq _ _ => .req
  | singleEcapReq => .req
  | triggerUerepReq _ => .req
  | triggerUemeasReq _ _ => .req
  | schedCellMeasReq _ => .req
  | triggerCellMeasReq => .req
  | singleHoReq _ _ _ _ => .req
  | singleRanSetupReq => .req
  | singleRanSliceReq _ => .req
  | singleRanSliceAdd _ _ => .req
  | singleRanSliceSet _ _ => .req
  | singleRanSliceRem _ => .req
  | _ => .rep

def act : Message → EpActType
  | singleHelloReq _ => .hello
  | singleHelloRep _ => .hello
  | schedHelloReq _ _ => .hello
  | schedHelloRep _ _ => .hello
  | singleEcapReq => .ecap
  | singleEcapRep _ => .ecap
  | singleEcapRepFail => .ecap
  | triggerUerepReq _ => .ueReport
  | triggerUerepRep _ _ _ => .ueReport
  | triggerUerepRepFail => .ueReport
  | triggerUemeasReq _ _ => .ueMeasure
  | triggerUemeasRep _ => .ueMeasure
  | triggerUemeasRepFail => .ueMeasure
  | schedCellMeasReq _ => .cellMeasure
  | schedCellMeasRep _ _ => .cellMeasure
  | schedCellMeasFail => .cellMeasure
  | schedCellMeasNs => .cellMeasure
  | triggerCellMeasReq => .cellMeasure
  | triggerCellMeasRep _ => .cellMeasure
  | triggerCellMeasFail => .cellMeasure
  | triggerCellMeasNs => .cellMeasure
  | singleHoReq _ _ _ _ => .handover
  | singleHoRep _ _ _ _ => .handover
  | singleHoRepFail _ _ _ _ => .handover
  | singleHoRepNs _ _ _ _ => .handover
  | singleRanRepSuccess type => type
  | singleRanRepFail type _ => type
  | singleRanRepNs type _ => type
  | singleRanSetupReq => .ranSetup
  | singleRanSetupRep _ => .ranSetup
  | singleRanSliceReq _ => .ranSlice
  | singleRanSliceRep _ _ => .ranSlice
  | singleRanSliceAdd _ _ => .ranSlice
  | singleRanSliceSet _ _ => .ranSlice
  | singleRanSliceRem _ => .ranSlice

def op : Message → EpOpType
  | singleHelloRep _ => .success
  | schedHelloRep _ _ => .success
  | singleEcapRepFail => .fail
  | triggerUerepReq op => op
  | triggerUerepRep _ _ _ => .success
  | triggerUerepRepFail => .fail
  | triggerUemeasReq op _ => op
  | triggerUemeasRep _ => .success
  | triggerUemeasRepFail => .fail
  | schedCellMeasRep _ _ => .success
  | schedCellMeasFail => .fail
  | schedCellMeasNs => .notSupported
  | triggerCellMeasRep _ => .success
  | triggerCellMeasFail => .fail
  | triggerCellMeasNs => .notSupported
  | singleHoRep _ _ _ _ => .success
  | singleHoRepFail _ _ _ _ => .fail
  | singleHoRepNs _ _ _ _ => .notSupported
  | singleRanRepSuccess _ => .success
  | singleRanRepFail _ _ => .fail
  | singleRanRepNs _ _ => .notSupported
  | singleRanSliceAdd _ _ => .add
  | singleRanSliceSet _ _ => .set
  | singleRanSliceRem _ => .rem
  | _ => .unspecified

def interval : Message → UInt32
  | schedHelloReq interval _ => interval
  | schedHelloRep interval _ => interval
  | schedCellMeasReq interval => interval
  | schedCellMeasRep interval _ => interval
  | _ => 0

/-- The formatters that look at their arguments before the buffer. -/
def refused : Message → Bool
  | triggerUerepRep nofUes _ ues => 0 < nofUes && ues.isNone
  | triggerUemeasRep rep => rep.isNone
  | schedCellMeasRep _ info => info.isNone
  | triggerCellMeasRep info => info.isNone
  | singleRanSetupRep det => det.isNone
  | singleRanSliceRep _ det => det.isNone
  | singleRanSliceAdd _ det => det.isNone
  | _ => false

def eventBytes (host : ByteOrder) (msg : Message) : List UInt8 :=
  match msg.type with
  | .schedule => scheduleBytes host msg.act.code msg.op.code msg.interval
  | _ => Emproto.eventBytes host msg.act.code msg.op.code

def event (host : ByteOrder) (msg : Message) : Nat → UInt32 → Code Int :=
  match msg.type with
  | .schedule => epfSchedule host msg.act msg.op.code msg.interval
  | _ => eventHeader host msg.act.code msg.op.code

def body (host : ByteOrder) (size : UInt32) : Message → Nat → UInt32 → Code Int
  | singleHelloReq id => epfHelloReq host id
  | singleHelloRep id => epfHelloRep host id
  | schedHelloReq _ id => epfHelloReq host id
  | schedHelloRep _ id => epfHelloRep host id
  | singleEcapReq => epfEcapReq
  | singleEcapRep det => epfEcapRep host det
  | singleEcapRepFail => epfEcapRep host none
  | triggerUerepReq _ => epfUerepReq host
  | triggerUerepRep nofUes maxUes ues => epfUerepRep host nofUes maxUes ues
  | triggerUerepRepFail => epfUerepRep host 0 0 none
  | triggerUemeasReq _ meas => epfUemeasReq host meas
  | triggerUemeasRep (some rep) => epfUemeasRep host rep
  | schedCellMeasReq _ => epfCellMeasReq host
  | schedCellMeasRep _ (some info) => epfCellMeasRep host info
  | triggerCellMeasReq => epfCellMeasReq host
  | triggerCellMeasRep (some info) => epfCellMeasRep host info
  | singleHoReq rnti enb pci cause => epfHoReq host rnti enb pci cause
  | singleHoRep enb pci origin target => epfHoRep host enb pci origin target
  | singleHoRepFail enb pci origin target => epfHoRep host enb pci origin target
  | singleHoRepNs enb pci origin target => epfHoRep host enb pci origin target
  | singleRanRepFail _ sliceId => fun p _ =>
    if 24 + 3 + 8 > size.toNat then pure (-1)
    else do
      Code.store host p (htobe64 host sliceId)
      pure 8
  | singleRanSetupReq => epfRanEuq
  | singleRanSetupRep (some det) => epfRanEup host det
  | singleRanSliceReq sliceId => epfRanSuq host sliceId
  | singleRanSliceRep sliceId det => epfRanSup host sliceId det
  | singleRanSliceAdd sliceId det => epfRanSaq host sliceId det
  | singleRanSliceSet sliceId det => epfRanSsq host sliceId det
  | singleRanSliceRem sliceId => epfRanSrq host sliceId
  | _ => fun _ _ => pure 0

/-- The bodies that look for details that are not there. -/
def nullBody : Message → Bool
  | singleEcapRep none => true
  | singleEcapRepFail => true
  | triggerUemeasReq _ none => true
  | _ => false

def whole : Message → Bool
  | triggerUemeasReq _ _ => false
  | _ => true

section Format
variable {host : ByteOrder} {b : Nat} {size : UInt32} {ids : EpHdrId}

/-- All but one of the formatters are the common composition. -/
theorem format_eq (msg : Message) (common : ∀ interval id, msg ≠ schedHelloRep interval id) :
    msg.format host (some b) size ids =
      if msg.refused then pure (-1)
      else formatMessage host (some b) size msg.type ids msg.dir (msg.event host)
        (msg.body host size) := by
  cases msg with
  | schedHelloRep interval id => exact absurd rfl (common interval id)
  | triggerUemeasRep rep => cases rep <;> rfl
  | schedCellMeasRep interval info => cases info <;> rfl
  | triggerCellMeasRep info => cases info <;> rfl
  | singleRanSetupRep det => cases det <;> rfl
  | singleRanSliceRep sliceId det => cases det <;> rfl
  | singleRanSliceAdd sliceId det => cases det <;> rfl
  | _ => rfl

theorem body_null (msg : Message) (null : msg.nullBody = true) (p : Nat) (s : UInt32) (m : Mem) :
    (msg.body host size p s).run m = none := by
  cases msg with
  | singleEcapRep det =>
    cases det with
    | none => rfl
    | some det => cases null
  | singleEcapRepFail => rfl
  | triggerUemeasReq op meas =>
    cases meas with
    | none => rfl
    | some meas => cases null
  | _ => cases null

theorem body_fills (msg : Message) (sound : msg.nullBody = false) (given : msg.refused = false)
    (p : Nat) (s : UInt32) : FillsBody msg.whole (msg.body host size p s) p := by
  have empty : FillsBody true (pure 0 : Code Int) p := pure_fills (by decide) le_rfl
  cases msg with
  | singleHelloReq id => exact formatHello_fills id
  | singleHelloRep id => exact formatHello_fills id
  | schedHelloReq interval id => exact formatHello_fills id
  | schedHelloRep interval id => exact formatHello_fills id
  | singleEcapRep det =>
    cases det with
    | none => cases sound
    | some det => exact epfEcapRep_fills det
  | singleEcapRepFail => cases sound
  | triggerUerepReq op => exact epfUerepReq_fills
  | triggerUerepRep nofUes maxUes ues =>
    cases ues with
    | none =>
      have none : nofUes = 0 := by
        simpa [refused, UInt32.pos_iff_ne_zero] using given
      exact epfUerepRep_fills_none none maxUes Option.none
    | some us => exact epfUerepRep_fills nofUes maxUes us
  | triggerUerepRepFail => exact epfUerepRep_fills_none rfl 0 none
  | triggerUemeasReq op meas =>
    cases meas with
    | none => cases sound
    | some meas => exact epfUemeasReq_fills meas
  | triggerUemeasRep rep =>
    cases rep with
    | none => cases given
    | some rep => exact epfUemeasRep_fills rep
  | schedCellMeasReq interval => exact epfCellMeasReq_fills
  | schedCellMeasRep interval info =>
    cases info with
    | none => cases given
    | some info => exact epfCellMeasRep_fills s info
  | triggerCellMeasReq => exact epfCellMeasReq_fills
  | triggerCellMeasRep info =>
    cases info with
    | none => cases given
    | some info => exact epfCellMeasRep_fills s info
  | singleHoReq rnti enb pci cause => exact epfHoReq_fills rnti enb pci cause
  | singleHoRep enb pci origin target => exact epfHoRep_fills enb pci origin target
  | singleHoRepFail enb pci origin target => exact epfHoRep_fills enb pci origin target
  | singleHoRepNs enb pci origin target => exact epfHoRep_fills enb pci origin target
  | singleRanRepFail type sliceId =>
    exact guarded_fills (.store_bind (.pure (by decide) le_rfl))
  | singleRanSetupRep det =>
    cases det with
    | none => cases given
    | some det => exact epfRanEup_fills det
  | singleRanSliceReq sliceId => exact formatSliceId_fills sliceId
  | singleRanSliceRep sliceId det => exact epfRanSup_fills sliceId det
  | singleRanSliceAdd sliceId det => exact formatSlice_fills sliceId det
  | singleRanSliceSet sliceId det => exact formatSlice_fills sliceId det
  | singleRanSliceRem sliceId => exact formatSliceId_fills sliceId
  | _ => exact empty

theorem eventBytes_bounds (host : ByteOrder) (msg : Message) :
    3 ≤ (msg.eventBytes host).length ∧ (msg.eventBytes host).length ≤ 7 := by
  unfold eventBytes
  split <;> simp

theorem event_outcome (msg : Message) (p : Nat) (s : UInt32) :
    Emits (msg.event host p s) (msg.eventBytes host).length (chunk p (msg.eventBytes host)) ∨
      Emits (msg.event host p s) (-1) [] := by
  unfold event eventBytes
  cases msg.type with
  | schedule =>
    by_cases short : s.toNat < 24 + 7
    · exact .inr (epfSchedule_short short)
    · left
      rw [scheduleBytes_length]
      exact epfSchedule_emits (Nat.le_of_not_lt short)
  | _ =>
    by_cases short : s.toNat < 3
    · exact .inr (eventHeader_short short)
    · left
      rw [eventBytes_length]
      exact eventHeader_emits (Nat.le_of_not_lt short)

end Format

end Message

/-- The stores of a formatted message of `n` bytes at `b`: they leave the two headers
and the length `n` behind, and if `whole` only the sequence number is left out. -/
structure Frames (b : Nat) (head event : List UInt8) (whole : Bool) (n : Int)
    (ws : List (Nat × UInt8)) : Prop where
  long : 24 + event.length ≤ n
  head : ∀ m : Mem, (m.patch ws).Holds b head
  event : ∀ m : Mem, (m.patch ws).Holds (b + 24) event
  length : ∀ m : Mem, (m.patch ws).Holds (b + 22) (Word.bytes .big (UInt16.ofInt n))
  covers : whole = true → ∀ i : Nat, i < n → i < 18 ∨ 22 ≤ i → ∃ w ∈ ws, w.1 = b + i

theorem frames_of_stores {b : Nat} {head event : List UInt8} {whole : Bool} {n : Int}
    {vs : List (Nat × UInt8)} (long : 24 + event.length ≤ n) (hhead : head.length = 18)
    (body : Stores vs (b + (24 + event.length)) (b + if whole then n.toNat else 0)) :
    Frames b head event whole n (chunk b head ++ (chunk (b + 24) event ++
      (vs ++ chunk (b + 22) (Word.bytes .big (UInt16.ofInt n))))) := by
  have inHead : ∀ w ∈ chunk b head, w.1 < b + 18 := fun w hw => hhead ▸ (chunk_bounds hw).2
  have inEvent : ∀ w ∈ chunk (b + 24) event, b + 24 ≤ w.1 ∧ w.1 < b + (24 + event.length) :=
    fun w hw => by simpa [Nat.add_assoc] using chunk_bounds hw
  have inLength : ∀ w ∈ chunk (b + 22) (Word.bytes .big (UInt16.ofInt n)),
      b + 22 ≤ w.1 ∧ w.1 < b + 24 := fun w hw => by simpa [Word.width] using chunk_bounds hw
  constructor
  · exact long
  · intro m
    rw [Mem.patch_append, Mem.patch_append, Mem.patch_append]
    refine (((m.holds_patch_chunk b head).patch fun w hw => .inr ?_).patch
      fun w hw => .inr ?_).patch fun w hw => .inr ?_
    · have := inEvent w hw
      omega
    · have := body.behind w hw
      omega
    · have := inLength w hw
      omega
  · intro m
    rw [Mem.patch_append, Mem.patch_append, Mem.patch_append]
    refine ((Mem.holds_patch_chunk _ (b + 24) event).patch fun w hw => .inr ?_).patch
      fun w hw => .inl ?_
    · have := body.behind w hw
      omega
    · exact (inLength w hw).2
  · intro m
    rw [Mem.patch_append, Mem.patch_append, Mem.patch_append]
    exact Mem.holds_patch_chunk _ (b + 22) _
  · intro hwhole i hi apart
    subst hwhole
    simp only [if_true] at body
    have stored : ∀ ws ∈ [chunk b head, chunk (b + 24) event, vs,
        chunk (b + 22) (Word.bytes .big (UInt16.ofInt n))], (∃ w ∈ ws, w.1 = b + i) →
        ∃ w ∈ chunk b head ++ (chunk (b + 24) event ++
          (vs ++ chunk (b + 22) (Word.bytes .big (UInt16.ofInt n)))), w.1 = b + i := by
      rintro ws hws ⟨w, hw, he⟩
      refine ⟨w, ?_, he⟩
      simp only [List.mem_cons, List.not_mem_nil, or_false] at hws
      simp only [List.mem_append]
      rcases hws with rfl | rfl | rfl | rfl <;> simp [hw]
    by_cases inHead : i < 18
    · exact stored _ (by simp) ((Stores.chunk b head).covers (b + i) (by omega) (by omega))
    by_cases inLength : i < 24
    · refine stored (chunk (b + 22) (Word.bytes .big (UInt16.ofInt n))) (by simp)
        ((Stores.chunk (b + 22) _).covers (b + i) (by omega) ?_)
      simp only [Word.bytes_length, Word.width]
      omega
    by_cases inEvent : i < 24 + event.length
    · exact stored _ (by simp) ((Stores.chunk (b + 24) event).covers (b + i) (by omega) (by omega))
    · exact stored vs (by simp) (body.covers (b + i) (by omega) (by omega))

/-- A call of a formatter that ends, with an `int` which if it is not negative is the
length of a framed message. -/
def Returns (c : Code Int) (b : Nat) (head event : List UInt8) (whole : Bool) : Prop :=
  ∃ n ws, Emits c n ws ∧ IsInt32 n ∧ (0 ≤ n → Frames b head event whole n ws)

theorem Returns.of_neg {c : Code Int} {b : Nat} {head event : List UInt8} {whole : Bool} {n : Int}
    {ws : List (Nat × UInt8)} (emits : Emits c n ws) (int : IsInt32 n) (neg : n < 0) :
    Returns c b head event whole :=
  ⟨n, ws, emits, int, fun h => absurd neg (by omega)⟩

section Outcome
variable {host : ByteOrder} {b : Nat} {size : UInt32} {ids : EpHdrId}

theorem formatMessage_framed {type : EpMsgType} {dir : EpHdrFlagDir}
    {event body : Nat → UInt32 → Code Int} {ev : List UInt8} {whole : Bool} (hev : ev.length ≤ 7)
    (hevent : ∀ p s, Emits (event p s) ev.length (chunk p ev) ∨ Emits (event p s) (-1) [])
    (hbody : FillsBody whole (body (b + (24 + ev.length)) (size - UInt32.ofNat (24 + ev.length)))
      (b + (24 + ev.length))) :
    Returns (formatMessage host (some b) size type ids dir event body) b
      (headBytes host type.code ids dir.flag) ev whole := by
  by_cases short : size.toNat < 24
  · exact .of_neg (formatMessage_short short) (by decide) (by decide)
  have room := Nat.le_of_not_lt short
  rcases hevent (b + 24) (size - UInt32.ofNat 24) with hevent | refused
  · obtain ⟨r, vs, emits, int, stores⟩ := hbody
    by_cases neg : r < 0
    · exact .of_neg (formatMessage_body_fails ev.length room hevent (by omega) emits neg) int neg
    obtain ⟨n, rfl⟩ : ∃ n : Nat, r = n := ⟨r.toNat, by omega⟩
    refine ⟨_, _, formatMessage_sum ev.length n room hevent (by omega) emits,
      isInt32_toInt32 _, fun success => ?_⟩
    have eq := toInt32_of_nonneg (x := ((24 + ev.length + n : Nat) : Int)) (by omega)
      (by have := int.2; omega) success
    rw [eq]
    refine frames_of_stores (by omega) (headBytes_length ..) (stores.shrink le_rfl ?_ (.inl rfl))
    split
    · show b + (24 + ev.length + n) ≤ b + (24 + ev.length) + n
      omega
    · show b + 0 ≤ b + (24 + ev.length) + 0
      omega
  · exact .of_neg (formatMessage_event_fails room refused (by decide)) (by decide) (by decide)

theorem schedHelloRep_framed (interval id : UInt32) :
    Returns (epfSchedHelloRep host (some b) size ids interval id) b
      (headBytes host EpMsgType.schedule.code ids EpHdrFlagDir.rep.flag)
      ((Message.schedHelloRep interval id).eventBytes host) true := by
  by_cases short : size.toNat < 55
  · obtain ⟨ws, emits, -⟩ := epfSchedHelloRep_short host b ids interval id short
    exact .of_neg emits (by decide) (by decide)
  refine ⟨_, _, epfSchedHelloRep_emits host b ids interval id (Nat.le_of_not_lt short),
    by decide, fun _ => ?_⟩
  refine frames_of_stores (by simp [Message.eventBytes, Message.type]) (headBytes_length ..) ?_
  rw [Message.eventBytes, Message.type, scheduleBytes_length]
  exact (Stores.chunk (b + 31) _).shrink le_rfl (by simp) (.inl rfl)

namespace Message
variable (msg : Message)

/-- The scheduled hello reply is the one message that `formatMessage` does not make. -/
theorem common_or : (∀ interval id, msg ≠ schedHelloRep interval id) ∨
    ∃ interval id, msg = schedHelloRep interval id := by
  by_cases common : ∀ interval id, msg ≠ schedHelloRep interval id
  · exact .inl common
  · simp only [not_forall, not_not] at common
    exact .inr common

theorem sound_of_not_crashes {size : UInt32}
    (safe : ¬ (msg.nullBody = true ∧ 27 ≤ size.toNat)) :
    msg.nullBody = false ∨ size.toNat < 27 := by
  rw [not_and_or, Bool.not_eq_true] at safe
  exact safe.imp_right Nat.lt_of_not_le

theorem nullBody_format (null : msg.nullBody = true) (host : ByteOrder) (b : Nat) (size : UInt32)
    (ids : EpHdrId) :
    msg.format host (some b) size ids = formatMessage host (some b) size msg.type ids msg.dir
      (eventHeader host msg.act.code msg.op.code) (msg.body host size) := by
  cases msg with
  | singleEcapRep det => rfl
  | singleEcapRepFail => rfl
  | triggerUemeasReq op meas => rfl
  | _ => cases null

/-- Details that are missing are dereferenced as soon as both headers fit. -/
theorem crashes (null : msg.nullBody = true) (host : ByteOrder) (b : Nat) {size : UInt32}
    (room : 27 ≤ size.toNat) (ids : EpHdrId) (m : Mem) :
    (msg.format host (some b) size ids).run m = none := by
  have event : Emits (eventHeader host msg.act.code msg.op.code (b + 24)
      (size - UInt32.ofNat 24)) (3 : Nat)
      (chunk (b + 24) (Emproto.eventBytes host msg.act.code msg.op.code)) :=
    eventHeader_behind (by omega)
  rw [msg.nullBody_format null]
  exact formatMessage_none 3 (by omega) event (by decide) (msg.body_null null _ _) m

theorem returns (sound : msg.nullBody = false ∨ size.toNat < 27) (host : ByteOrder) (b : Nat)
    (ids : EpHdrId) :
    Returns (msg.format host (some b) size ids) b (headBytes host msg.type.code ids msg.dir.flag)
      (msg.eventBytes host) msg.whole := by
  by_cases null : msg.nullBody = true
  · obtain ⟨ws, emits, -⟩ : ∃ ws, Emits (msg.format host (some b) size ids) (-1) ws ∧
        ∀ w ∈ ws, b ≤ w.1 ∧ w.1 < b + size.toNat := by
      rw [msg.nullBody_format null]
      exact formatMessage_headers_fail (sound.resolve_left (by simp [null]))
    exact .of_neg emits (by decide) (by decide)
  rw [Bool.not_eq_true] at null
  rcases msg.common_or with common | ⟨interval, id, rfl⟩
  · rw [format_eq msg common]
    by_cases given : msg.refused = true
    · rw [if_pos given]
      exact .of_neg (.pure _) (by decide) (by decide)
    · rw [if_neg given]
      rw [Bool.not_eq_true] at given
      exact formatMessage_framed (msg.eventBytes_bounds host).2 msg.event_outcome
        (msg.body_fills null given _ _)
  · exact schedHelloRep_framed interval id

theorem formats (host : ByteOrder) (b : Nat) (size : UInt32) (ids : EpHdrId) :
    (∀ m, (msg.format host (some b) size ids).run m = none) ∨
      Returns (msg.format host (some b) size ids) b
        (headBytes host msg.type.code ids msg.dir.flag) (msg.eventBytes host) msg.whole := by
  by_cases sound : msg.nullBody = false ∨ size.toNat < 27
  · exact .inr (msg.returns sound host b ids)
  · rw [not_or, Bool.not_eq_false] at sound
    exact .inl (msg.crashes sound.1 host b (Nat.le_of_not_lt sound.2) ids)

end Message

end Outcome

end Emproto
