import Emproto.Messages
import Emproto.HeaderRegisters

/-! Dispatch of received messages: on the bytes of a formatted message the accessors of
the headers return what the formatter stands for. -/

namespace Emproto

theorem EpMsgType.code_byte (type : EpMsgType) : type.code.toUInt8.toUInt32 = type.code := by
  cases type <;> rfl

theorem EpActType.code_short (act : EpActType) : act.code.toUInt16.toUInt32 = act.code := by
  cases act <;> rfl

theorem EpOpType.code_byte (op : EpOpType) : op.code.toUInt8.toUInt32 = op.code := by
  cases op <;> rfl

def EpHdrFlagDir.value : EpHdrFlagDir → Int
  | req => 0
  | rep => 1

theorem EpHdrFlagDir.flag_value (dir : EpHdrFlagDir) :
    ((dir.flag &&& epHdrFlagDir).toNat : Int) = dir.value := by
  cases dir <;> rfl

def eppActType (host : ByteOrder) : EpMsgType → Nat → UInt32 → Code UInt32
  | .schedule => eppScheduleType host
  | .trigger => eppTriggerType host
  | _ => eppSingleType host

/-- The accessors of the `size` bytes at `b` tell the formatter and the identifiers. -/
structure Dispatches (host : ByteOrder) (b : Nat) (size : UInt32) (ids : EpHdrId) (msg : Message)
    (m : Mem) : Prop where
  head : ∀ out, (eppHead host (some b) size out).result m =
    some (epSuccess, out.assign msg.type.code ids msg.dir.flag)
  type : (eppMsgType host (some b) size).result m = some msg.type.code
  dir : (eppDir host (some b) size).result m = some msg.dir.value
  act : (eppActType host msg.type b size).result m = some msg.act.code
  singleOp : msg.type = .single → (eppSingleOp host b size).result m = some msg.op.code
  triggerOp : msg.type = .trigger → (eppTriggerOp host b size).result m = some msg.op.code
  interval : msg.type = .schedule → (eppSchedInterval host b size).result m = some msg.interval

section
variable {host : ByteOrder} {b : Nat} {ids : EpHdrId} {msg : Message} {m : Mem}

structure EventFields (m : Mem) (b : Nat) (msg : Message) : Prop where
  act : (m.be (b + 24) : UInt16) = msg.act.code.toUInt16
  op : m (b + 26) = msg.op.code.toUInt8
  interval : msg.type = .schedule → m.be (b + 27) = msg.interval

theorem Mem.Holds.event {type op : UInt32} {p : Nat}
    (held : m.Holds p (eventBytes host type op)) :
    (m.be p : UInt16) = type.toUInt16 ∧ m (p + 2) = op.toUInt8 := by
  simp only [eventBytes, Mem.holds_append, Word.bytes_length, Word.width] at held
  exact ⟨Mem.word_of_holds held.1, held.2.byte⟩

theorem eventFields (held : m.Holds (b + 24) (msg.eventBytes host)) : EventFields m b msg := by
  by_cases schedule : msg.type = .schedule
  · simp only [Message.eventBytes, schedule, scheduleBytes, Mem.holds_append,
      eventBytes_length] at held
    obtain ⟨event, interval⟩ := held
    exact ⟨event.event.1, event.event.2, fun _ => Mem.word_of_holds interval⟩
  · have event : m.Holds (b + 24) (eventBytes host msg.act.code msg.op.code) := by
      unfold Message.eventBytes at held
      split at held
      · exact absurd ‹msg.type = .schedule› schedule
      · exact held
    exact ⟨event.event.1, event.event.2, fun h => absurd h schedule⟩

theorem Message.eventBytes_schedule (host : ByteOrder) (schedule : msg.type = .schedule) :
    (msg.eventBytes host).length = 7 := by
  simp [Message.eventBytes, schedule]

theorem dispatches_of_holds {size : UInt32}
    (room : 24 + (msg.eventBytes host).length ≤ size.toNat)
    (head : m.Holds b (headBytes host msg.type.code ids msg.dir.flag))
    (event : m.Holds (b + 24) (msg.eventBytes host)) : Dispatches host b size ids msg m := by
  have three := (msg.eventBytes_bounds host).1
  have fields := headFields head
  have flags : m.word host (b + 16) = msg.dir.flag := Mem.word_of_holds fields.flags
  have event := eventFields event
  have action {header : Nat} (enough : 24 + header ≤ size.toNat) :
      (eventType host header b size).result m = some msg.act.code := by
    rw [result_eventType m enough, event.act, msg.act.code_short]
  have operation {error : UInt32} : (eventOp host error b size).result m = some msg.op.code := by
    rw [result_eventOp m (by omega), event.op, msg.op.code_byte]
  constructor
  · intro out
    rw [result_eppHead m (by omega) fields.vers, fields.type, fields.enbId, fields.cellId,
      fields.modId, flags, msg.type.code_byte]
  · rw [result_eppMsgType m (by omega), fields.type, msg.type.code_byte]
  · rw [result_eppDir m (by omega), flags, msg.dir.flag_value]
  · cases type : msg.type with
    | schedule =>
      have := Message.eventBytes_schedule host type
      exact action (by omega)
    | _ => exact action (by omega)
  · exact fun _ => operation
  · exact fun _ => operation
  · intro schedule
    have := Message.eventBytes_schedule host schedule
    rw [result_eppSchedInterval m (by omega), event.interval schedule]

/-- Wherever the bytes of a formatted message arrive, they dispatch to its formatter. -/
theorem Message.dispatches (host : ByteOrder) (b : Nat) (size : UInt32) (ids : EpHdrId)
    (msg : Message) (m : Mem) (n : Int) (t : Trace)
    (hrun : (msg.format host (some b) size ids).run m = some (n, t)) (success : 0 ≤ n)
    (b' : Nat) (m' : Mem) (received : (m.patch t.stores).Received b m' b' n.toNat) :
    Dispatches host b' (UInt32.ofNat n.toNat) ids msg m' := by
  rcases msg.formats host b size ids with
    crash | ⟨n', ws, emits, int, frames⟩
  · cases (crash m).symm.trans hrun
  obtain ⟨t', hrun', rfl⟩ := emits m
  cases hrun.symm.trans hrun'
  have frames := frames success
  have long := frames.long
  have bounds := (msg.eventBytes_bounds host).1
  have length : (UInt32.ofNat n.toNat).toNat = n.toNat :=
    uint32_toNat_ofNat (by have := int.2; omega)
  refine dispatches_of_holds (by omega) ?_ ?_
  · refine (frames.head m).transport fun i hi => received i ?_
    rw [headBytes_length] at hi
    omega
  · exact (frames.event m).received received (by omega)

theorem Message.dispatches_schedule :
    ∃ t, ((Message.schedHelloReq 500 5).format .little (some 8) 64 ⟨9, 2, 3⟩).run (Mem.ofBytes []) =
        some (35, t) ∧
      Dispatches .little 8 35 ⟨9, 2, 3⟩ (Message.schedHelloReq 500 5)
        ((Mem.ofBytes []).patch t.stores) :=
  ⟨_, rfl, Message.dispatches .little 8 64 ⟨9, 2, 3⟩ (Message.schedHelloReq 500 5) _ 35 _ rfl
    (by decide) 8 _ fun _ _ => rfl⟩

end

end Emproto
