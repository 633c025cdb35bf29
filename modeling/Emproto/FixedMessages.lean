import Emproto.Messages
import Emproto.RanSlice

/-! Messages of a fixed length: the scheduled ones, and the negative or bare replies of
the other classes. -/

namespace Emproto

namespace Message

def bodyLength : Message → Nat
  | schedHelloReq _ _ => 4
  | schedHelloRep _ _ => 4
  | schedCellMeasReq _ => 4
  | schedCellMeasRep _ (some info) => if info.prb.dlPrbs ≠ 0 ∨ info.prb.ulPrbs ≠ 0 then 14 else 0
  | singleHoRepFail _ _ _ _ => 14
  | singleHoRepNs _ _ _ _ => 14
  | singleRanRepFail _ _ => 8
  | _ => 0

def wireLength (msg : Message) : Nat :=
  match msg.type with
  | .schedule => 24 + 7 + msg.bodyLength
  | _ => 24 + 3 + msg.bodyLength

/-- The replies that report a failure, a missing feature or bare success. -/
def negative : Message → Bool
  | singleEcapRepFail => true
  | singleHoRepFail _ _ _ _ => true
  | singleHoRepNs _ _ _ _ => true
  | triggerUerepRepFail => true
  | triggerUemeasRepFail => true
  | triggerCellMeasFail => true
  | triggerCellMeasNs => true
  | singleRanRepSuccess _ => true
  | singleRanRepFail _ _ => true
  | singleRanRepNs _ _ => true
  | _ => false

end Message

/-! Scheduled messages. -/

section Sched
variable {host : ByteOrder} {b : Nat} {size : UInt32} {ids : EpHdrId} {m : Mem}

theorem epfCellMeasReq_emits {p : Nat} {s : UInt32} (room : 4 ≤ s.toNat) :
    Emits (epfCellMeasReq host p s) 4
      (chunk p (Word.bytes .big EpTLVType.cellPrbReq.code ++ Word.bytes .big (0 : UInt16))) := by
  rw [epfCellMeasReq, if_neg (by omega)]
  exact Emits.of_eq (Emits.store.bind <| Emits.store.bind <| .pure _)
    (by simp [chunk_append, Word.width])

def prbReportBytes (prb : EpCellPrbInfo) : List UInt8 :=
  Word.bytes .big EpTLVType.cellPrbReport.code ++ (Word.bytes .big (10 : UInt16) ++
    ([prb.dlPrbs] ++ (Word.bytes .big prb.dlPrbsUsed ++ ([prb.ulPrbs] ++
      Word.bytes .big prb.ulPrbsUsed))))

theorem epfCellMeasRep_emits {p : Nat} (s : UInt32) {rep : EpCellRep}
    (some : rep.prb.dlPrbs ≠ 0 ∨ rep.prb.ulPrbs ≠ 0) :
    Emits (epfCellMeasRep host rep p s) 14 (chunk p (prbReportBytes rep.prb)) := by
  rw [epfCellMeasRep, if_pos some]
  refine Emits.of_eq (Emits.store.bind <| Emits.store.bind <| Emits.store.bind <|
    Emits.store.bind <| Emits.store.bind <| Emits.store.bind <| .pure _) ?_
  simp [prbReportBytes, chunk, chunk_append, Word.width, bytes_uint8, Nat.add_assoc]

theorem Message.sched_body (msg : Message) (host : ByteOrder) (size : UInt32)
    (sched : msg.type = .schedule) (given : msg.refused = false) (p : Nat) {s : UInt32}
    (room : 24 ≤ s.toNat) :
    ∃ bs : List UInt8, bs.length = msg.bodyLength ∧ bs.length ≤ 14 ∧
      Emits (msg.body host size p s) bs.length (chunk p bs) := by
  cases msg with
  | schedHelloReq interval id =>
    exact ⟨Word.bytes .big id, rfl, Nat.le_of_ble_eq_true rfl, formatHello_emits (by omega)⟩
  | schedHelloRep interval id =>
    exact ⟨Word.bytes .big id, rfl, Nat.le_of_ble_eq_true rfl, formatHello_emits (by omega)⟩
  | schedCellMeasReq interval =>
    exact ⟨Word.bytes .big EpTLVType.cellPrbReq.code ++ Word.bytes .big (0 : UInt16), rfl,
      by decide, epfCellMeasReq_emits (by omega)⟩
  | schedCellMeasRep interval info =>
    cases info with
    | none => cases given
    | some info =>
      by_cases some : info.prb.dlPrbs ≠ 0 ∨ info.prb.ulPrbs ≠ 0
      · exact ⟨prbReportBytes info.prb, (if_pos some).symm, Nat.le_of_ble_eq_true rfl,
          epfCellMeasRep_emits s some⟩
      · refine ⟨[], (if_neg some).symm, by decide, ?_⟩
        simp only [body, epfCellMeasRep, some, if_false]
        exact .pure _
  | schedCellMeasFail => exact ⟨[], rfl, by decide, .pure _⟩
  | schedCellMeasNs => exact ⟨[], rfl, by decide, .pure _⟩
  | _ => cases sched

theorem Message.sched_event (msg : Message) (sched : msg.type = .schedule) :
    msg.event host = epfSchedule host msg.act msg.op.code msg.interval := by
  rw [Message.event, sched]

theorem Message.sched_length (msg : Message) (sched : msg.type = .schedule) :
    msg.wireLength = 31 + msg.bodyLength := by
  rw [wireLength, sched]

theorem exactFit_refused {c : Code Int} {size length : Nat}
    (h : ∃ ws, Emits c (-1) ws ∧ ∀ w ∈ ws, b ≤ w.1 ∧ w.1 < b + size) :
    ExactFit (c.run m) b size length ↔ size < length := by
  obtain ⟨ws, emits, within⟩ := h
  apply Iff.intro
  · intro fit
    have := (emits.of_exactFit fit).1
    omega
  · intro short
    exact emits.exactFit (by omega) (.inr (by decide)) within

section
variable {type : EpMsgType} {dir : EpHdrFlagDir} {act : EpActType} {op interval : UInt32}
  {body : Nat → UInt32 → Code Int}

theorem formatMessage_sched_refused (short : size.toNat < 55) :
    ∃ ws, Emits (formatMessage host (some b) size type ids dir
        (epfSchedule host act op interval) body) (-1) ws ∧
      ∀ w ∈ ws, b ≤ w.1 ∧ w.1 < b + size.toNat := by
  by_cases head : size.toNat < 24
  · exact ⟨[], formatMessage_short head, by simp⟩
  have space : (size - UInt32.ofNat 24).toNat = size.toNat - 24 := uint32_sub_toNat (by omega)
  refine ⟨_, formatMessage_event_fails (by omega) (epfSchedule_short (by omega)) (by decide),
    fun w hw => ?_⟩
  rw [List.append_nil] at hw
  have := headChunk_bounds hw
  omega

theorem formatMessage_sched_exactFit {bs : List UInt8} (room : 55 ≤ size.toNat)
    (small : bs.length ≤ 14)
    (hbody : Emits (body (b + 31) (size - UInt32.ofNat 31)) bs.length (chunk (b + 31) bs)) :
    ExactFit ((formatMessage host (some b) size type ids dir
      (epfSchedule host act op interval) body).run m) b size.toNat (31 + bs.length) := by
  have space : (size - UInt32.ofNat 24).toNat = size.toNat - 24 := uint32_sub_toNat (by omega)
  refine (formatMessage_emits 7 bs.length (by omega) (epfSchedule_emits (by omega)) hbody
    (by omega)).exactFit (by omega) (.inl rfl) fun w hw => ?_
  rcases messageStores_bounds hw with front | hw
  · rw [scheduleBytes_length] at front
    omega
  · have := chunk_bounds hw
    omega

end

/-- A scheduled formatter is exact below the length of its message, and from 55 bytes on,
unless it lacks its argument or is the hello reply. -/
theorem Message.sched_exactFit_iff (msg : Message) (sched : msg.type = .schedule)
    (host : ByteOrder) (b : Nat) (size : UInt32) (ids : EpHdrId) (m : Mem) :
    ExactFit ((msg.format host (some b) size ids).run m) b size.toNat msg.wireLength ↔
      size.toNat < msg.wireLength ∨
        (55 ≤ size.toNat ∧ msg.refused = false ∧
          ∀ interval id, msg ≠ schedHelloRep interval id) := by
  rcases msg.common_or with common | ⟨interval, id, rfl⟩
  · rw [format_eq msg common]
    by_cases given : msg.refused = true
    · rw [if_pos given, exactFit_refused ⟨[], .pure _, by simp⟩]
      simp [given]
    rw [Bool.not_eq_true] at given
    rw [if_neg (by simp [given]), msg.sched_event sched]
    by_cases short : size.toNat < 55
    · rw [exactFit_refused (formatMessage_sched_refused short)]
      omega
    · have room := Nat.le_of_not_lt short
      have space : (size - UInt32.ofNat 31).toNat = size.toNat - 31 := uint32_sub_toNat (by omega)
      have long : 24 ≤ (size - UInt32.ofNat 31).toNat := by omega
      obtain ⟨bs, length, small, hbody⟩ := msg.sched_body host size sched given (b + 31) long
      rw [msg.sched_length sched, ← length]
      exact iff_of_true (formatMessage_sched_exactFit room small hbody)
        (.inr ⟨room, given, common⟩)
  · have common : ¬ ∀ interval' id', schedHelloRep interval id ≠ schedHelloRep interval' id' :=
      fun other => other interval id rfl
    by_cases short : size.toNat < 55
    · rw [format, exactFit_refused (epfSchedHelloRep_short host b ids interval id short)]
      simp only [common, and_false, or_false]
    · have emits := epfSchedHelloRep_emits host b ids interval id (Nat.le_of_not_lt short)
      have length : (schedHelloRep interval id).wireLength = 35 := rfl
      refine iff_of_false (fun fit => ?_) (by simp only [common, and_false, or_false]; omega)
      have := (emits.of_exactFit fit).2
      omega

theorem Message.sched_exactFit_iff_hello :
    (Message.schedHelloReq 500 5).type = .schedule ∧
      (ExactFit (((Message.schedHelloReq 500 5).format .little (some 0) 64 ⟨1, 2, 3⟩).run
          (Mem.ofBytes [])) 0 (64 : UInt32).toNat (Message.schedHelloReq 500 5).wireLength ↔
        (64 : UInt32).toNat < (Message.schedHelloReq 500 5).wireLength ∨
          (55 ≤ (64 : UInt32).toNat ∧ (Message.schedHelloReq 500 5).refused = false ∧
            ∀ interval id, Message.schedHelloReq 500 5 ≠ Message.schedHelloRep interval id)) :=
  ⟨rfl, Message.sched_exactFit_iff (Message.schedHelloReq 500 5) rfl .little 0 64 ⟨1, 2, 3⟩ _⟩

/-- A hello request is refused a buffer of exactly its length. -/
theorem Message.sched_not_exactFit :
    ¬ ExactFit (((Message.schedHelloReq 500 5).format .little (some 0) 35 ⟨1, 2, 3⟩).run
      (Mem.ofBytes [])) 0 35 (Message.schedHelloReq 500 5).wireLength := by
  intro fit
  have refused := (exactFit_refused (formatMessage_sched_refused (by decide))).mp fit
  exact absurd refused (by decide)

end Sched

/-! Negative replies. -/

/-- A formatter's run for a message of `length` bytes that dereferences no null pointer
and returns `length` exactly if there is room, else a negative value. -/
def Answers (run : Option (Int × Trace)) (size length : Nat) : Prop :=
  ∃ ret es, run = some (ret, es) ∧ (ret = length ↔ length ≤ size) ∧ (ret = length ∨ ret < 0)

theorem Emits.answers {c : Code Int} {ret : Int} {ws : List (Nat × UInt8)} {size length : Nat}
    {m : Mem} (h : Emits c ret ws) (exact : ret = length ↔ length ≤ size)
    (sign : ret = length ∨ ret < 0) : Answers (c.run m) size length := by
  obtain ⟨es, hrun, -⟩ := h m
  exact ⟨ret, es, hrun, exact, sign⟩

theorem not_answers {size length : Nat} : ¬ Answers none size length := by
  rintro ⟨ret, es, ⟨⟩, -⟩

theorem answers_refused {c : Code Int} {b size length : Nat} {m : Mem}
    (h : ∃ ws, Emits c (-1) ws ∧ ∀ w ∈ ws, b ≤ w.1 ∧ w.1 < b + size) (short : size < length) :
    Answers (c.run m) size length := by
  obtain ⟨ws, emits, -⟩ := h
  exact emits.answers (by omega) (.inr (by decide))

section Negative
variable {host : ByteOrder} {b : Nat} {size : UInt32} {ids : EpHdrId} {m : Mem}
  {type : EpMsgType} {dir : EpHdrFlagDir} {action op : UInt32} {body : Nat → UInt32 → Code Int}

theorem formatMessage_answers (k : Nat) (small : k < 64)
    (room : 27 + k ≤ size.toNat →
      ∃ ws, Emits (body (b + 27) (size - UInt32.ofNat 27)) k ws)
    (short : 27 ≤ size.toNat → size.toNat < 27 + k →
      Emits (body (b + 27) (size - UInt32.ofNat 27)) (-1) []) :
    Answers ((formatMessage host (some b) size type ids dir
      (eventHeader host action op) body).run m)
      size.toNat (27 + k) := by
  by_cases headers : size.toNat < 27
  · exact answers_refused (formatMessage_headers_fail headers) (by omega)
  have headers := Nat.le_of_not_lt headers
  by_cases fits : 27 + k ≤ size.toNat
  · obtain ⟨ws, hbody⟩ := room fits
    obtain ⟨vs, emits⟩ : ∃ vs, Emits (formatMessage host (some b) size type ids dir
        (eventHeader host action op) body) ((27 + k : Nat) : Int) vs :=
      formatMessage_returns k headers hbody (by omega)
    exact emits.answers (by omega) (.inl rfl)
  · have cut := Nat.lt_of_not_le fits
    exact answers_refused (formatMessage_body_refused headers (short headers cut) (by decide)) cut

theorem formatMessage_answers_empty (empty : ∀ p s, Emits (body p s) 0 []) :
    Answers ((formatMessage host (some b) size type ids dir
      (eventHeader host action op) body).run m)
      size.toNat 27 :=
  formatMessage_answers 0 (by decide) (fun _ => ⟨[], empty _ _⟩) fun _ _ => by omega

theorem epfHoRep_answers {enb : UInt64} {pci origin target : UInt16} :
    Answers ((formatMessage host (some b) size type ids dir (eventHeader host action op)
      (epfHoRep host enb pci origin target)).run m) size.toNat 41 := by
  refine formatMessage_answers 14 (by decide) (fun room => ?_) fun headers short => ?_
  · rw [epfHoRep, if_neg (by rw [uint32_sub_toNat (by omega)]; omega)]
    exact ⟨_, Emits.store.bind <| Emits.store.bind <| Emits.store.bind <| Emits.store.bind <|
      .pure _⟩
  · rw [epfHoRep, if_pos (by rw [uint32_sub_toNat headers]; omega)]
    exact .pure _

theorem epfSingleEcapRepFail_answers_iff :
    Answers ((epfSingleEcapRepFail host (some b) size ids).run m) size.toNat 27 ↔
      size.toNat < 27 := by
  by_cases headers : size.toNat < 27
  · exact iff_of_true (answers_refused (formatMessage_headers_fail headers) headers) headers
  · have event : Emits (epfSingle host .ecap EpOpType.fail.code (b + 24)
        (size - UInt32.ofNat 24)) (3 : Nat)
        (chunk (b + 24) (eventBytes host EpActType.ecap.code EpOpType.fail.code)) :=
      eventHeader_behind (by omega)
    have crash : (epfSingleEcapRepFail host (some b) size ids).run m = none :=
      formatMessage_none 3 (by omega) event (by decide) (fun _ => rfl) m
    refine iff_of_false (fun answers => ?_) headers
    rw [crash] at answers
    exact not_answers answers

/-- Every negative reply can be sent, but for the one about capabilities, which only
refuses small buffers safely. -/
theorem Message.negative_answers_iff (msg : Message) (neg : msg.negative = true)
    (host : ByteOrder) (b : Nat) (size : UInt32) (ids : EpHdrId) (m : Mem) :
    Answers ((msg.format host (some b) size ids).run m) size.toNat msg.wireLength ↔
      msg ≠ singleEcapRepFail ∨ size.toNat < 27 := by
  have empty (p : Nat) (s : UInt32) : Emits (pure 0 : Code Int) 0 [] := .pure 0
  cases msg with
  | singleEcapRepFail =>
    refine epfSingleEcapRepFail_answers_iff.trans ?_
    simp
  | singleHoRepFail enb pci origin target =>
    exact iff_of_true epfHoRep_answers (.inl (by simp))
  | singleHoRepNs enb pci origin target =>
    exact iff_of_true epfHoRep_answers (.inl (by simp))
  | triggerUerepRepFail =>
    exact iff_of_true (formatMessage_answers_empty fun p s => .pure 0) (.inl (by simp))
  | triggerUemeasRepFail =>
    exact iff_of_true (formatMessage_answers_empty fun p s => .pure 0) (.inl (by simp))
  | triggerCellMeasFail =>
    exact iff_of_true (formatMessage_answers_empty fun p s => .pure 0) (.inl (by simp))
  | triggerCellMeasNs =>
    exact iff_of_true (formatMessage_answers_empty fun p s => .pure 0) (.inl (by simp))
  | singleRanRepSuccess type =>
    exact iff_of_true (formatMessage_answers_empty fun p s => .pure 0) (.inl (by simp))
  | singleRanRepFail type sliceId =>
    refine iff_of_true (formatMessage_answers 8 (by decide) (fun room => ?_)
      fun headers short => ?_) (.inl (by simp))
    · rw [if_neg (by omega)]
      exact ⟨_, Emits.store.bind (.pure _)⟩
    · rw [if_pos (by omega)]
      exact .pure _
  | singleRanRepNs type sliceId =>
    exact iff_of_true (formatMessage_answers_empty fun p s => .pure 0) (.inl (by simp))
  | _ => cases neg

theorem Message.negative_answers_iff_handover :
    (Message.singleHoRepFail 1 2 3 4).negative = true ∧
      (Answers (((Message.singleHoRepFail 1 2 3 4).format .little (some 0) 41 ⟨1, 2, 3⟩).run
          (Mem.ofBytes [])) (41 : UInt32).toNat (Message.singleHoRepFail 1 2 3 4).wireLength ↔
        Message.singleHoRepFail 1 2 3 4 ≠ Message.singleEcapRepFail ∨ (41 : UInt32).toNat < 27) :=
  ⟨rfl, Message.negative_answers_iff (Message.singleHoRepFail 1 2 3 4) rfl .little 0 41 ⟨1, 2, 3⟩ _⟩

/-- In a large buffer the failure reply about capabilities dereferences null. -/
theorem Message.ecapRepFail_not_answers :
    ¬ Answers ((Message.singleEcapRepFail.format .little (some 0) 1500 ⟨1, 2, 3⟩).run
      (Mem.ofBytes [])) 1500 Message.singleEcapRepFail.wireLength := by
  intro answers
  exact absurd (epfSingleEcapRepFail_answers_iff.mp answers) (by decide)

end Negative

end Emproto
