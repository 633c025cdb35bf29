import Emproto.Delivery

/-! Frames that are known byte by byte from the answers of the accessors and the parser, so that
decoding and formatting again gives the same bytes. -/

namespace Emproto

/-- The messages whose parser hands out every byte of the body. -/
def Message.HandsOut : Message → Prop
  | singleHelloReq _ => True
  | singleHelloRep _ => True
  | singleHoReq _ _ _ _ => True
  | singleHoRep _ _ _ _ => True
  | singleHoRepFail _ _ _ _ => True
  | singleHoRepNs _ _ _ _ => True
  | singleRanSliceReq _ => True
  | singleRanSliceRem _ => True
  | _ => False

/-- The messages of which the accessors and the parser leave no byte open. There is no accessor
for the operation of a schedule message. -/
structure Message.Told (msg : Message) (bs : List UInt8) : Prop where
  type : msg.type = .single ∨ msg.type = .trigger
  body : bs = [] ∨ msg.HandsOut

theorem Mem.Holds.of_word {W : Type} [Word W] {m : Mem} {order : ByteOrder} {p : Nat} {w : W}
    (value : m.word order p = w) : m.Holds p (Word.bytes order w) := by
  subst value
  rw [Holds, Word.bytes_length, Mem.word, Word.bytes_ofBytes _ _ (m.slice_length p _)]

section Headers
variable {host : ByteOrder} {b : Nat} {size : UInt32} {ids : EpHdrId} {msg : Message} {m : Mem}

theorem vers_of_success {out out' : HeadOut} (long : 24 ≤ size.toNat)
    (success : (eppHead host (some b) size out).result m = some (epSuccess, out')) :
    m (b + 1) = empowerProtocolVers := by
  by_contra other
  rw [eppHead, if_neg (by omega)] at success
  simp only [Code.result_load_bind, Mem.word_uint8, if_pos other, Code.result_pure] at success
  have status : epWrongVersion = epSuccess := congrArg Prod.fst (Option.some.inj success)
  exact absurd status (by decide)

theorem head_of_dispatches (long : 24 ≤ size.toNat) (told : Dispatches host b size ids msg m) :
    m.Holds b (headBytes host msg.type.code ids msg.dir.flag) := by
  have head := told.head ⟨some 0, some 0, some 0, some 0, some 0⟩
  have vers := vers_of_success long head
  rw [result_eppHead m long vers] at head
  simp only [HeadOut.assign, Option.map_some, Option.some.injEq, Prod.mk.injEq, HeadOut.mk.injEq,
    true_and] at head
  obtain ⟨type, enbId, cellId, modId, flags⟩ := head
  have type : m b = msg.type.code.toUInt8 := by rw [← type, UInt8.toUInt8_toUInt32]
  simp only [headBytes, Mem.holds_append, Word.bytes_length, Word.width, Nat.add_assoc,
    Nat.reduceAdd]
  refine ⟨.of_word ?_, .of_word ?_, .of_word enbId, .of_word cellId, .of_word modId,
    .of_word flags⟩
  · rw [Mem.word_uint8, type]
  · rw [Mem.word_uint8, vers]

theorem event_of_dispatches (long : 27 ≤ size.toNat)
    (type : msg.type = .single ∨ msg.type = .trigger) (told : Dispatches host b size ids msg m) :
    m.Holds (b + 24) (msg.eventBytes host) := by
  have act := told.act
  have operation {error : UInt32} (op : (eventOp host error b size).result m = some msg.op.code) :
      m (b + 26) = msg.op.code.toUInt8 := by
    rw [result_eventOp m long] at op
    rw [← Option.some.inj op, UInt8.toUInt8_toUInt32]
  have action (act : (eventType host 3 b size).result m = some msg.act.code) :
      m.be (b + 24) = msg.act.code.toUInt16 := by
    rw [result_eventType m long] at act
    rw [← Option.some.inj act, UInt16.toUInt16_toUInt32]
  have event (act : m.be (b + 24) = msg.act.code.toUInt16)
      (op : m (b + 26) = msg.op.code.toUInt8) :
      m.Holds (b + 24) (eventBytes host msg.act.code msg.op.code) := by
    rw [eventBytes, Mem.holds_append, Word.bytes_length]
    exact ⟨.of_word act, .of_word ((m.word_uint8 host (b + 26)).trans op)⟩
  cases type with
  | inl single =>
    rw [single] at act
    simp only [Message.eventBytes, single]
    exact event (action act) (operation (told.singleOp single))
  | inr trigger =>
    rw [trigger] at act
    simp only [Message.eventBytes, trigger]
    exact event (action act) (operation (told.triggerOp trigger))

end Headers

section Bodies
variable {host : ByteOrder} {b p : Nat} {size : UInt32} {m : Mem}

theorem hello_of_result {id : UInt32} (long : 4 ≤ size.toNat)
    (found : ∀ old, Finds (eppHello 27 (parseHello host) (some b) size (some old)) m (some id)) :
    m.Holds (b + 27) (Word.bytes .big id) := by
  have value := (HelloMsg.result_eppHello long).symm.trans (found 0)
  simp only [Option.some.injEq, Prod.mk.injEq, true_and] at value
  exact .of_word value

theorem sliceId_of_result {id : UInt64} (long : 8 ≤ size.toNat)
    (found : ∀ out, Finds (parseSliceId host p size out) m (out.map fun _ => id)) :
    m.Holds p (Word.bytes .big id) := by
  have value := (result_parseSliceId (m.holds_be p) long (some 0)).symm.trans (found (some 0))
  simp only [Option.some.injEq, Prod.mk.injEq, Option.map_some, true_and] at value
  exact .of_word value

theorem hoReq_of_result {rnti pci : UInt16} {enb : UInt64} {cause : UInt8}
    (long : 13 ≤ size.toNat)
    (found : ∀ out, Finds (eppHoReq host p size out) m (out.assign rnti enb pci cause)) :
    m.Holds p (hoReqBytes rnti enb pci cause) := by
  have held : m.Holds p (hoReqBytes (m.be p) (m.be (p + 2)) (m.be (p + 10)) (m.be (p + 12))) := by
    simp only [hoReqBytes, Mem.holds_append, Word.bytes_length, Word.width, Nat.add_assoc,
      Nat.reduceAdd]
    exact ⟨.of_word rfl, .of_word rfl, .of_word rfl, .of_word rfl⟩
  have values := (result_eppHoReq held long ⟨some 0, some 0, some 0, some 0⟩).symm.trans (found _)
  simp only [HoReqOut.assign, Option.map_some, Option.some.injEq, Prod.mk.injEq,
    HoReqOut.mk.injEq, true_and] at values
  obtain ⟨rfl, rfl, rfl, rfl⟩ := values
  exact held

theorem hoRep_of_result {enb : UInt64} {pci origin target : UInt16} (long : 14 ≤ size.toNat)
    (found : ∀ out, Finds (eppHoRep host p size out) m (out.assign enb pci origin target)) :
    m.Holds p (hoRepBytes enb pci origin target) := by
  have held : m.Holds p (hoRepBytes (m.be p) (m.be (p + 8)) (m.be (p + 10)) (m.be (p + 12))) := by
    simp only [hoRepBytes, Mem.holds_append, Word.bytes_length, Word.width, Nat.add_assoc,
      Nat.reduceAdd]
    exact ⟨.of_word rfl, .of_word rfl, .of_word rfl, .of_word rfl⟩
  have values := (result_eppHoRep held long ⟨some 0, some 0, some 0, some 0⟩).symm.trans (found _)
  simp only [HoRepOut.assign, Option.map_some, Option.some.injEq, Prod.mk.injEq,
    HoRepOut.mk.injEq, true_and] at values
  obtain ⟨rfl, rfl, rfl, rfl⟩ := values
  exact held

theorem body_of_delivers {before : Mem} {q : Nat} {msg : Message} {bs : List UInt8}
    (payload : msg.payload before q = some bs) (hands : bs = [] ∨ msg.HandsOut)
    (length : size.toNat = 27 + bs.length) (delivers : msg.Delivers before q host m b size) :
    m.Holds (b + 27) bs := by
  rcases hands with rfl | hands
  · rfl
  have behind := size_behind length
  have long : 27 ≤ size.toNat := by omega
  cases msg with
  | singleHelloReq id | singleHelloRep id =>
    cases payload
    exact hello_of_result (by simp [length, Word.width]) delivers
  | singleHoReq rnti enb pci cause =>
    cases payload
    exact hoReq_of_result (by omega) delivers
  | singleHoRep enb pci origin target | singleHoRepFail enb pci origin target
  | singleHoRepNs enb pci origin target =>
    cases payload
    exact hoRep_of_result (by omega) delivers
  | singleRanSliceReq sliceId | singleRanSliceRem sliceId =>
    cases payload
    exact sliceId_of_result behind.ge delivers
  | _ => exact absurd hands id

end Bodies

/-! Frames. -/

theorem uint16_ofInt_natCast (n : Nat) : UInt16.ofInt n = UInt16.ofNat n := by
  apply UInt16.toNat_inj.mp
  rw [UInt16.ofInt, UInt16.toNat_ofNat', UInt16.toNat_ofNat']
  omega

namespace Sending
variable {s : Sending} {bs : List UInt8} {seq : UInt32} {m : Mem} {b : Nat}

def bytes (s : Sending) (seq : UInt32) (bs : List UInt8) : List UInt8 :=
  headBytes s.host s.msg.type.code s.ids s.msg.dir.flag ++ (Word.bytes .big seq ++
    (Word.bytes .big (UInt16.ofInt (s.msg.counted bs)) ++ (s.msg.eventBytes s.host ++ bs)))

theorem holds_bytes : m.Holds b (s.bytes seq bs) ↔
    m.Holds b (headBytes s.host s.msg.type.code s.ids s.msg.dir.flag) ∧
      m.Holds (b + 18) (Word.bytes .big seq) ∧
      m.Holds (b + 22) (Word.bytes .big (UInt16.ofInt (s.msg.counted bs))) ∧
      m.Holds (b + 24) (s.msg.eventBytes s.host) ∧ m.Holds (b + s.msg.headers) bs := by
  simp only [bytes, Mem.holds_append, headBytes_length, Word.bytes_length, Word.width,
    Nat.add_assoc, Nat.reduceAdd, s.msg.headers_eq]

theorem bytes_length (common : ∀ interval id, s.msg ≠ .schedHelloRep interval id) :
    (s.bytes seq bs).length = s.msg.counted bs := by
  have headers := s.msg.headers_eq s.host
  simp only [bytes, List.length_append, headBytes_length, Word.bytes_length, Word.width,
    Message.counted_eq common]
  omega

theorem liesAt_of_bytes (numbered : s.seq = some seq) (held : m.Holds b (s.bytes seq bs)) :
    s.LiesAt bs m b := by
  obtain ⟨head, sequence, length, event, body⟩ := holds_bytes.mp held
  refine ⟨head, fun seq' hs => ?_, length, event, fun _ => body⟩
  cases numbered.symm.trans hs
  exact sequence

theorem Sound.frame_eq (sound : s.Sound bs) (numbered : s.seq = some seq)
    (common : ∀ interval id, s.msg ≠ .schedHelloRep interval id) : s.frame = s.bytes seq bs := by
  obtain ⟨t, -, wire, lies⟩ := sound.sent
  have held : (s.before.patch t.stores).Holds s.b (s.bytes seq bs) :=
    holds_bytes.mpr ⟨lies.head, lies.seq seq numbered, lies.length, lies.event, lies.body common⟩
  rw [frame, wire, Option.getD_some, ← bytes_length common]
  exact held

end Sending

theorem Message.Told.common {msg : Message} {bs : List UInt8} (told : msg.Told bs) :
    ∀ interval id, msg ≠ .schedHelloRep interval id := by
  rintro interval id rfl
  rcases told.type with type | type <;> cases type

theorem Message.Told.headers {msg : Message} {bs : List UInt8} (told : msg.Told bs) :
    msg.headers = 27 := by
  rcases told.type with type | type <;> simp only [Message.headers, type]

/-- There is one frame for each answer: a message of which the accessors and the parser leave
no byte open arrives with its length where the very bytes that are sent for it lie, and nowhere
else. A reply is told by its flags between hosts of one byte order only. -/
theorem frame_unique_iff {s : Sending} {bs : List UInt8} (sound : s.Sound bs)
    (told : s.msg.Told bs) {seq : UInt32} (numbered : s.seq = some seq) {host : ByteOrder}
    (order : s.host = host ∨ s.msg.dir = .req) (m : Mem) (b : Nat) :
    (s.Arrives host m b (UInt32.ofNat s.frame.length) ∧
        (eppMsgLength host (some b) (UInt32.ofNat s.frame.length)).result m =
          some (UInt16.ofNat s.frame.length)) ↔
      m.Holds b s.frame := by
  have short := sound.short
  have headers := told.headers
  have counted := Message.counted_eq told.common bs
  have size : (UInt32.ofNat (s.msg.counted bs)).toNat = s.msg.counted bs :=
    uint32_toNat_ofNat (by omega)
  rw [sound.framed.2, sound.frame_eq numbered told.common, result_eppMsgLength m (by omega)]
  apply Iff.intro
  · rintro ⟨arrives, length⟩
    have dispatches := arrives.dispatches order
    have head := head_of_dispatches (by omega) dispatches
    have event := event_of_dispatches (by omega) told.type dispatches
    have sequence := arrives.seq seq numbered
    rw [result_eppSeq m (by omega)] at sequence
    refine Sending.holds_bytes.mpr ⟨?_, .of_word (Option.some.inj sequence), .of_word ?_, ?_, ?_⟩
    · rcases order with rfl | request
      · exact head
      · rw [request, headBytes_front] at head ⊢
        rwa [reqFlag_bytes s.host host]
    · rw [uint16_ofInt_natCast]
      exact Option.some.inj length
    · rw [Message.eventBytes_host, ← Message.eventBytes_host host]
      exact event
    · rw [headers]
      exact body_of_delivers sound.payload told.body (by omega) arrives.delivers
  · intro held
    have lies := Sending.liesAt_of_bytes numbered held
    have length : m.be (b + 22) = UInt16.ofInt (s.msg.counted bs) := Mem.word_of_holds lies.length
    refine ⟨lies.arrives sound host, ?_⟩
    rw [length, uint16_ofInt_natCast]

def numberedHello : Sending :=
  ⟨.big, fun _ => 0xff, 8, 64, ⟨9, 2, 3⟩, .singleHelloReq 5, some 7⟩

theorem frame_unique_iff_hello :
    numberedHello.Arrives .little
      (Mem.ofBytes [1, 1, 0, 0, 0, 0, 0, 0, 0, 9, 0, 2, 0, 0, 0, 3, 0, 0, 0, 0, 0, 7, 0, 31,
        0, 1, 0, 0, 0, 0, 5]) 0 (UInt32.ofNat numberedHello.frame.length) := by
  have told : numberedHello.msg.Told (Word.bytes .big (5 : UInt32)) := ⟨.inl rfl, .inr trivial⟩
  refine ((frame_unique_iff ⟨rfl, by decide, by decide⟩ told rfl (.inr rfl) _ 0).mpr ?_).1
  rw [Mem.Holds]
  decide +kernel

end Emproto
