import Emproto.TokenLoops
import Emproto.Hello
import Emproto.Handover
import Emproto.RanParse

/-! Messages of a few fields, from formatter to parser: hello, handover, slice ids and
the RAN setup. The receiver is given the bytes of the message and their number, and
nothing is known about the bytes behind them. -/

namespace Emproto

/-- What `format` leaves at `b` is parsed into `value` wherever it is received, and
whatever follows it there. -/
def RoundTrips {α : Type} (format : Code Int) (b : Nat) (m : Mem)
    (parse : Nat → UInt32 → Code (Int × α)) (value : α) : Prop :=
  ∃ (n : Nat) (es : Trace), format.run m = some ((n : Int), es) ∧
    ∀ (m' : Mem) (b' : Nat), (m.patch es.stores).Received b m' b' n →
      (parse b' (UInt32.ofNat n)).result m' = some (epSuccess, value)

section Framing
variable {host : ByteOrder} {b k n : Nat} {size : UInt32} {type : EpMsgType} {id : EpHdrId}
  {dir : EpHdrFlagDir} {event body : Nat → UInt32 → Code Int} {ev : List UInt8}
  {ws : List (Nat × UInt8)}

theorem formatMessage_behind (hk : ev.length = k) (h : 24 ≤ size.toNat)
    (hevent : Emits (event (b + 24) (size - UInt32.ofNat 24)) k (chunk (b + 24) ev))
    (hbody : Emits (body (b + (24 + k)) (size - UInt32.ofNat (24 + k))) n ws)
    (bound : 24 + k + n < 2147483648) :
    ∃ vs, Emits (formatMessage host (some b) size type id dir event body)
        ((24 + k + n : Nat) : Int) vs ∧
      ∀ (m : Mem) (a : Nat), b + (24 + k) ≤ a → m.patch vs a = m.patch ws a := by
  refine ⟨_, formatMessage_emits k n h hevent hbody bound, fun m a behind => ?_⟩
  rw [Mem.patch_append, Mem.patch_append, Mem.patch_append, Mem.patch_frame]
  · refine Mem.patch_congr ws ?_
    rw [Mem.patch_frame, Mem.patch_frame]
    · intro w hw
      have := headChunk_bounds hw
      omega
    · intro w hw
      have := chunk_bounds hw
      omega
  · intro w hw
    have := wordChunk_bounds hw
    simp only [Word.width] at this
    omega

theorem formatMessage_arrives {bs : List UInt8} (n : Nat) (hk : ev.length = k) (hn : bs.length = n)
    (h : 24 ≤ size.toNat)
    (hevent : Emits (event (b + 24) (size - UInt32.ofNat 24)) k (chunk (b + 24) ev))
    (hbody : Emits (body (b + (24 + k)) (size - UInt32.ofNat (24 + k))) n
      (chunk (b + (24 + k)) bs))
    (bound : 24 + k + n < 2147483648) (m : Mem) :
    ∃ es, (formatMessage host (some b) size type id dir event body).run m =
        some (((24 + k + n : Nat) : Int), es) ∧
      ∀ (m' : Mem) (b' : Nat), (m.patch es.stores).Received b m' b' (24 + k + n) →
        m'.Holds (b' + 24) ev ∧ m'.Holds (b' + (24 + k)) bs := by
  have emits : Emits (formatMessage host (some b) size type id dir event body)
      ((24 + k + n : Nat) : Int) _ := formatMessage_emits k n h hevent hbody bound
  obtain ⟨es, hrun, stores⟩ := emits m
  refine ⟨es, hrun, fun m' b' received => ?_⟩
  rw [stores, Mem.patch_append, Mem.patch_append, Mem.patch_append] at received
  have inLength : ∀ w ∈ chunk (b + 22) (Word.bytes .big (UInt16.ofInt ((24 + k + n : Nat) : Int))),
      w.1 < b + 24 := fun w hw => (wordChunk_bounds hw).2
  refine ⟨Mem.Holds.received (k := 24) ?_ received (by omega),
    Mem.Holds.received (k := 24 + k) ?_ received (by omega)⟩
  · refine ((Mem.holds_patch_chunk _ (b + 24) ev).patch fun w hw => .inr ?_).patch
      fun w hw => .inl (inLength w hw)
    have := chunk_bounds hw
    omega
  · refine (Mem.holds_patch_chunk _ (b + (24 + k)) bs).patch fun w hw => .inl ?_
    have := inLength w hw
    omega

/-- A body of given bytes behind headers of `24 + k`, and a parser that finds it there. -/
theorem formatMessage_roundTrips {α : Type} {parse : Nat → UInt32 → Code (Int × α)} {value : α}
    {bs : List UInt8} (n : Nat) (hk : ev.length = k) (hn : bs.length = n) (h : 24 ≤ size.toNat)
    (hevent : Emits (event (b + 24) (size - UInt32.ofNat 24)) k (chunk (b + 24) ev))
    (hbody : Emits (body (b + (24 + k)) (size - UInt32.ofNat (24 + k))) n
      (chunk (b + (24 + k)) bs))
    (bound : 24 + k + n < 2147483648)
    (parsed : ∀ (m' : Mem) (b' : Nat), m'.Holds (b' + (24 + k)) bs →
      (parse b' (UInt32.ofNat (24 + k + n))).result m' = some (epSuccess, value)) (m : Mem) :
    RoundTrips (formatMessage host (some b) size type id dir event body) b m parse value := by
  obtain ⟨es, hrun, arrived⟩ : ∃ es, (formatMessage host (some b) size type id dir event body).run
      m = some (((24 + k + n : Nat) : Int), es) ∧ _ :=
    formatMessage_arrives n hk hn h hevent hbody bound m
  exact ⟨_, es, hrun, fun m' b' received => parsed m' b' (arrived m' b' received).2⟩

theorem singleMessage_roundTrips {α : Type} {parse : Nat → UInt32 → Code (Int × α)} {value : α}
    {bs : List UInt8} {action op : UInt32} (n : Nat) (hn : bs.length = n) (h : 27 ≤ size.toNat)
    (hbody : Emits (body (b + 27) (size - UInt32.ofNat 27)) n (chunk (b + 27) bs))
    (bound : 27 + n < 2147483648)
    (parsed : ∀ (m' : Mem) (b' : Nat), m'.Holds (b' + 27) bs →
      (parse b' (UInt32.ofNat (27 + n))).result m' = some (epSuccess, value)) (m : Mem) :
    RoundTrips (formatMessage host (some b) size type id dir (eventHeader host action op) body) b m
      parse value :=
  formatMessage_roundTrips n (eventBytes_length action op) hn (by omega) (eventHeader_behind h)
    hbody bound parsed m

theorem Code.result_note_bind {α : Type} {e : Event} (quiet : e.store? = none)
    (f : Unit → Code α) (m : Mem) : (Code.note e >>= f).result m = (f ()).result m :=
  Code.result_bind m (Code.run_note m e) (by simp [quiet]) f

end Framing

/-! Handover. -/

section Handover
variable {host : ByteOrder} {p : Nat} {size : UInt32} {m : Mem}

def hoRepBytes (originENB : UInt64) (originPci originRnti targetRnti : UInt16) : List UInt8 :=
  Word.bytes .big originENB ++ (Word.bytes .big originPci ++ (Word.bytes .big originRnti ++
    Word.bytes .big targetRnti))

def hoReqBytes (rnti : UInt16) (enb : UInt64) (pci : UInt16) (cause : UInt8) : List UInt8 :=
  Word.bytes .big rnti ++ (Word.bytes .big enb ++ (Word.bytes .big pci ++
    Word.bytes .big cause))

def HoRepOut.assign (out : HoRepOut) (originENB : UInt64)
    (originPci originRnti targetRnti : UInt16) : HoRepOut where
  originENB := out.originENB.map fun _ => originENB
  originPci := out.originPci.map fun _ => originPci
  originRnti := out.originRnti.map fun _ => originRnti
  targetRnti := out.targetRnti.map fun _ => targetRnti

def HoReqOut.assign (out : HoReqOut) (rnti : UInt16) (enb : UInt64) (pci : UInt16)
    (cause : UInt8) : HoReqOut where
  rnti := out.rnti.map fun _ => rnti
  enb := out.enb.map fun _ => enb
  pci := out.pci.map fun _ => pci
  cause := out.cause.map fun _ => cause

variable {enb : UInt64} {pci origin target rnti : UInt16} {cause : UInt8}

theorem epfHoRep_emits (h : 14 ≤ size.toNat) :
    Emits (epfHoRep host enb pci origin target p size) 14
      (chunk p (hoRepBytes enb pci origin target)) := by
  rw [epfHoRep, if_neg (by omega)]
  refine Emits.of_eq (Emits.store.bind <| Emits.store.bind <| Emits.store.bind <|
    Emits.store.bind <| .pure _) ?_
  simp [hoRepBytes, chunk_append, Word.width, Nat.add_assoc]

theorem epfHoReq_emits (h : 13 ≤ size.toNat) :
    Emits (epfHoReq host rnti enb pci cause p size) 13
      (chunk p (hoReqBytes rnti enb pci cause)) := by
  rw [epfHoReq, if_neg (by omega)]
  refine Emits.of_eq (Emits.store.bind <| Emits.store.bind <| Emits.store.bind <|
    Emits.store.bind <| .pure _) ?_
  simp [hoReqBytes, chunk_append, Word.width, bytes_uint8, Nat.add_assoc]

theorem result_eppHoRep (held : m.Holds p (hoRepBytes enb pci origin target))
    (h : 14 ≤ size.toNat) (out : HoRepOut) :
    (eppHoRep host p size out).result m =
      some (epSuccess, out.assign enb pci origin target) := by
  simp only [hoRepBytes, Mem.holds_append, Word.bytes_length, Word.width, Nat.add_assoc,
    Nat.reduceAdd] at held
  obtain ⟨first, second, third, fourth⟩ := held
  have first : m.be p = enb := Mem.word_of_holds first
  have second : m.be (p + 8) = pci := Mem.word_of_holds second
  have third : m.be (p + 10) = origin := Mem.word_of_holds third
  have fourth : m.be (p + 12) = target := Mem.word_of_holds fourth
  rw [eppHoRep, Code.result_note_bind rfl, if_neg (by omega)]
  simp [first, second, third, fourth, HoRepOut.assign]

theorem result_eppHoReq (held : m.Holds p (hoReqBytes rnti enb pci cause))
    (h : 13 ≤ size.toNat) (out : HoReqOut) :
    (eppHoReq host p size out).result m = some (epSuccess, out.assign rnti enb pci cause) := by
  simp only [hoReqBytes, Mem.holds_append, Word.bytes_length, Word.width, Nat.add_assoc,
    Nat.reduceAdd] at held
  obtain ⟨first, second, third, fourth⟩ := held
  have first : m.be p = rnti := Mem.word_of_holds first
  have second : m.be (p + 2) = enb := Mem.word_of_holds second
  have third : m.be (p + 10) = pci := Mem.word_of_holds third
  have fourth : m.word .big (p + 12) = cause := Mem.word_of_holds fourth
  rw [Mem.word_uint8] at fourth
  rw [eppHoReq, Code.result_note_bind rfl, if_neg (by omega)]
  simp [first, second, third, fourth, HoReqOut.assign]

end Handover

/-! Slice ids. -/

section SliceId
variable {host : ByteOrder} {p : Nat} {size : UInt32} {m : Mem} {id : UInt64}

theorem formatSliceId_emits (h : 8 ≤ size.toNat) :
    Emits (formatSliceId host id p size) 8 (chunk p (Word.bytes .big id)) := by
  rw [formatSliceId, if_neg (by omega)]
  exact Emits.of_eq (Emits.store.bind <| .pure _) (by simp)

theorem result_parseSliceId (held : m.Holds p (Word.bytes .big id)) (h : 8 ≤ size.toNat)
    (out : Option UInt64) :
    (parseSliceId host p size out).result m = some (epSuccess, out.map fun _ => id) := by
  have value : m.be p = id := Mem.word_of_holds held
  rw [parseSliceId, Code.result_note_bind rfl, if_neg (by omega)]
  change (Code.assign out (Code.fetch host p) >>= _).result m = _
  rw [Code.result_assignFetch_bind, value]
  rfl

end SliceId

/-- Handover messages and the messages that name a slice survive the wire. -/
theorem handover_roundTrips (host host' : ByteOrder) (b : Nat) (size : UInt32) (ids : EpHdrId)
    (m : Mem) :
    (∀ rnti enb pci cause, 27 + 13 ≤ size.toNat → ∀ out : HoReqOut,
      RoundTrips (epfSingleHoReq host (some b) size ids rnti enb pci cause) b m
        (fun b' n => eppSingleHoReq host' (some b') n out) (out.assign rnti enb pci cause)) ∧
    (∀ format ∈ [epfSingleHoRep, epfSingleHoRepFail, epfSingleHoRepNs],
      ∀ enb pci origin target, 27 + 14 ≤ size.toNat → ∀ out : HoRepOut,
        RoundTrips (format host (some b) size ids enb pci origin target) b m
          (fun b' n => eppSingleHoRep host' (some b') n out)
          (out.assign enb pci origin target)) ∧
    (∀ message ∈ [(epfSingleRanSliceReq, eppSingleRanSliceReq),
        (epfSingleRanSliceRem, eppSingleRanSliceRem)],
      ∀ id, 27 + 8 ≤ size.toNat → ∀ out : Option UInt64,
        RoundTrips (message.1 host (some b) size ids id) b m
          (fun b' n => message.2 host' (some b') n out) (out.map fun _ => id)) := by
  have space (h : 27 ≤ size.toNat) : (size - UInt32.ofNat 27).toNat = size.toNat - 27 :=
    uint32_sub_toNat h
  refine ⟨fun rnti enb pci cause room out => ?_, fun format hformat enb pci origin target room out
    => ?_, fun message hmessage id room out => ?_⟩
  · exact singleMessage_roundTrips 13 rfl (by omega) (epfHoReq_emits (by rw [space] <;> omega))
      (by decide) (fun m' b' held => result_eppHoReq held (by decide) out) m
  · have reply (op : EpOpType) : RoundTrips (formatHoRep op host (some b) size ids enb pci origin
        target) b m (fun b' n => eppSingleHoRep host' (some b') n out)
        (out.assign enb pci origin target) :=
      singleMessage_roundTrips 14 rfl (by omega) (epfHoRep_emits (by rw [space] <;> omega))
        (by decide) (fun m' b' held => result_eppHoRep held (by decide) out) m
    simp only [List.mem_cons, List.not_mem_nil, or_false] at hformat
    rcases hformat with rfl | rfl | rfl
    · exact reply .success
    · exact reply .fail
    · exact reply .notSupported
  · have named (op : EpOpType) : RoundTrips (formatMessage host (some b) size .single ids .req
        (epfSingle host .ranSlice op.code) (formatSliceId host id)) b m
        (fun b' n => eppSingleRan (parseSliceId host') (some b') n out) (out.map fun _ => id) :=
      singleMessage_roundTrips 8 rfl (by omega) (formatSliceId_emits (by rw [space] <;> omega))
        (by decide) (fun m' b' held => result_parseSliceId held (by decide) out) m
    simp only [List.mem_cons, List.not_mem_nil, or_false] at hmessage
    rcases hmessage with rfl | rfl
    · exact named .unspecified
    · exact named .rem

theorem handover_roundTrips_request :
    RoundTrips (epfSingleHoReq .little (some 0) 41 ⟨1, 2, 3⟩ 70 7 4 2) 0 (Mem.ofBytes [])
        (fun b' n => eppSingleHoReq .big (some b') n ⟨some 0, some 0, some 0, some 0⟩)
        ⟨some 70, some 7, some 4, some 2⟩ ∧
      RoundTrips (epfSingleHoRepFail .little (some 0) 41 ⟨1, 2, 3⟩ 7 4 70 71) 0 (Mem.ofBytes [])
        (fun b' n => eppSingleHoRep .big (some b') n ⟨some 0, some 0, some 0, some 0⟩)
        ⟨some 7, some 4, some 70, some 71⟩ ∧
      RoundTrips (epfSingleRanSliceRem .little (some 0) 41 ⟨1, 2, 3⟩ 9) 0 (Mem.ofBytes [])
        (fun b' n => eppSingleRanSliceRem .big (some b') n (some 0)) (some 9) := by
  have trips := handover_roundTrips .little .big 0 41 ⟨1, 2, 3⟩ (Mem.ofBytes [])
  exact ⟨trips.1 70 7 4 2 (by decide) ⟨some 0, some 0, some 0, some 0⟩,
    trips.2.1 epfSingleHoRepFail (by simp) 7 4 70 71 (by decide) ⟨some 0, some 0, some 0, some 0⟩,
    trips.2.2 (epfSingleRanSliceRem, eppSingleRanSliceRem) (by simp) 9 (by decide) (some 0)⟩

/-! Hello. -/

inductive HelloMsg
  | singleReq
  | singleRep
  | schedReq
  | schedRep
deriving DecidableEq, Repr

namespace HelloMsg

def format (k : HelloMsg) (host : ByteOrder) (buf : Option Nat) (size : UInt32) (ids : EpHdrId)
    (interval id : UInt32) : Code Int :=
  match k with
  | singleReq => epfSingleHelloReq host buf size ids id
  | singleRep => epfSingleHelloRep host buf size ids id
  | schedReq => epfSchedHelloReq host buf size ids interval id
  | schedRep => epfSchedHelloRep host buf size ids interval id

def parse (k : HelloMsg) (host : ByteOrder) :
    Option Nat → UInt32 → Option UInt32 → Code (Int × Option UInt32) :=
  match k with
  | singleReq => eppSingleHelloReq host
  | singleRep => eppSingleHelloRep host
  | schedReq => eppSchedHelloReq host
  | schedRep => eppSchedHelloRep host

def room : HelloMsg → Nat
  | singleReq => 31
  | singleRep => 31
  | schedReq => 55
  | schedRep => 55

section
variable {host : ByteOrder} {m : Mem} {b headers : Nat} {size id old : UInt32}

theorem result_eppHello (h : 4 ≤ size.toNat) :
    (eppHello headers (parseHello host) (some b) size (some old)).result m =
      some (epSuccess, some (m.be (b + headers))) := by
  rw [eppHello, parseHello, Code.result_note_bind rfl, if_neg (by omega)]
  simp

theorem result_eppHello_held (held : m.Holds (b + headers) (Word.bytes .big id))
    (h : 4 ≤ size.toNat) :
    (eppHello headers (parseHello host) (some b) size (some old)).result m =
      some (epSuccess, some id) := by
  have value : m.be (b + headers) = id := Mem.word_of_holds held
  rw [result_eppHello h, value]

end

theorem roundTrips (k : HelloMsg) (counted : k ≠ schedRep) (host host' : ByteOrder) (b : Nat)
    (size : UInt32) (ids : EpHdrId) (interval id : UInt32) (room : k.room ≤ size.toNat)
    (old : UInt32) (m : Mem) :
    RoundTrips (k.format host (some b) size ids interval id) b m
      (fun b' n => k.parse host' (some b') n (some old)) (some id) := by
  have space (h : 31 ≤ size.toNat) : 4 ≤ (size - UInt32.ofNat 27).toNat := by
    rw [uint32_sub_toNat (by omega)]
    omega
  cases k with
  | singleReq =>
    exact singleMessage_roundTrips 4 rfl (Nat.le_trans (by decide) room)
      (formatHello_emits (space room)) (by decide)
      (fun m' b' held => result_eppHello_held held (by decide)) m
  | singleRep =>
    exact singleMessage_roundTrips 4 rfl (Nat.le_trans (by decide) room)
      (formatHello_emits (space room)) (by decide)
      (fun m' b' held => result_eppHello_held held (by decide)) m
  | schedReq =>
    have room : 55 ≤ size.toNat := room
    have main : (size - UInt32.ofNat 24).toNat = size.toNat - 24 := uint32_sub_toNat (by omega)
    have headers : (size - UInt32.ofNat (24 + 7)).toNat = size.toNat - 31 :=
      uint32_sub_toNat (by omega)
    exact formatMessage_roundTrips 4 (scheduleBytes_length _ _ interval) rfl (by omega)
      (epfSchedule_emits (by omega)) (formatHello_emits (by omega)) (by decide)
      (fun m' b' held => result_eppHello_held held (by decide)) m
  | schedRep => exact absurd rfl counted

/-- Three of the four hello messages deliver the id. The scheduled reply does not count
its body, and the id that is parsed is what the receiver has behind the message. -/
theorem restored_iff (k : HelloMsg) (host host' : ByteOrder) (b : Nat) (size : UInt32)
    (ids : EpHdrId) (interval id : UInt32) (room : k.room ≤ size.toNat) (m : Mem) :
    ∃ (n : Nat) (es : Trace),
      (k.format host (some b) size ids interval id).run m = some ((n : Int), es) ∧
      ∀ (m' : Mem) (b' : Nat), (m.patch es.stores).Received b m' b' n → ∀ old : UInt32,
        ((k.parse host' (some b') (UInt32.ofNat n) (some old)).result m' =
            some (epSuccess, some id) ↔
          (k = schedRep → m'.be (b' + 31) = id)) := by
  by_cases counted : k = schedRep
  · subst counted
    obtain ⟨es, hrun, stores⟩ := epfSchedHelloRep_emits host b ids interval id room m
    refine ⟨31, es, hrun, fun m' b' received old => ?_⟩
    have parsed : (schedRep.parse host' (some b') (UInt32.ofNat 31) (some old)).result m' =
        some (epSuccess, some (m'.be (b' + 31))) := result_eppHello (by decide)
    rw [parsed]
    simp
  · obtain ⟨n, es, hrun, parsed⟩ := k.roundTrips counted host host' b size ids interval id room 0 m
    refine ⟨n, es, hrun, fun m' b' received old => ?_⟩
    obtain ⟨n', es', hrun', parsed'⟩ :=
      k.roundTrips counted host host' b size ids interval id room old m
    cases hrun.symm.trans hrun'
    exact iff_of_true (parsed' m' b' received) fun h => absurd h counted

theorem restored_iff_schedReq :
    ∃ (n : Nat) (es : Trace),
      (schedReq.format .little (some 0) 64 ⟨1, 2, 3⟩ 500 5).run (Mem.ofBytes []) =
        some ((n : Int), es) ∧
      ∀ (m' : Mem) (b' : Nat), ((Mem.ofBytes []).patch es.stores).Received 0 m' b' n →
        ∀ old : UInt32, (schedReq.parse .big (some b') (UInt32.ofNat n) (some old)).result m' =
          some (epSuccess, some 5) := by
  obtain ⟨n, es, hrun, restored⟩ := restored_iff schedReq .little .big 0 64 ⟨1, 2, 3⟩ 500 5
    (by decide) (Mem.ofBytes [])
  exact ⟨n, es, hrun, fun m' b' received old => (restored m' b' received old).mpr nofun⟩

/-- A receiver with zeros behind the scheduled reply does not get the id 5. -/
theorem schedRep_not_restored :
    ∃ (n : Nat) (es : Trace),
      (schedRep.format .little (some 0) 64 ⟨1, 2, 3⟩ 500 5).run (Mem.ofBytes []) =
        some ((n : Int), es) ∧
      ∃ m' : Mem, ((Mem.ofBytes []).patch es.stores).Received 0 m' 0 n ∧
        (schedRep.parse .little (some 0) (UInt32.ofNat n) (some 0)).result m' ≠
          some (epSuccess, some 5) := by
  obtain ⟨es, hrun, -⟩ := epfSchedHelloRep_emits .little 0 ⟨1, 2, 3⟩ 500 5
    (show 55 ≤ (64 : UInt32).toNat by decide) (Mem.ofBytes [])
  let m' : Mem := fun a => if a < 31 then (Mem.ofBytes []).patch es.stores a else 0
  refine ⟨31, es, hrun, m', fun i hi => ?_, ?_⟩
  · rw [Nat.zero_add]
    exact if_pos hi
  · have parsed : (schedRep.parse .little (some 0) (UInt32.ofNat 31) (some 0)).result m' =
        some (epSuccess, some (m'.be (0 + 31))) := result_eppHello (by decide)
    have zero : (m'.be (0 + 31) : UInt32) = 0 := rfl
    rw [parsed, zero]
    decide

end HelloMsg

/-! RAN setup. -/

section Setup
variable {host : ByteOrder} {m : Mem} {p c : Nat} {size : UInt32}

def setupBytes (det : EpRanDet) : List UInt8 :=
  Word.bytes .big det.l1Mask ++ (Word.bytes .big det.l2Mask ++ Word.bytes .big det.l3Mask)

theorem macSched_short (sliceSched : UInt32) :
    (Word.bytes .big sliceSched).length < 65536 := by simp [Word.width]

def macSchedToken (sliceSched : UInt32) : Token where
  type := EpTLVType.ranMacSched.code
  body := Word.bytes .big sliceSched
  short := macSched_short sliceSched

def macSchedTokens (sliceSched : UInt32) : List Token :=
  if sliceSched ≠ epRanSchedInvalid then [macSchedToken sliceSched] else []

@[simp] theorem setupBytes_length (det : EpRanDet) : (setupBytes det).length = 12 := by
  simp [setupBytes, Word.width]

@[simp] theorem encode_macSchedTokens_length (sliceSched : UInt32) :
    (encode (macSchedTokens sliceSched)).length =
      if sliceSched ≠ epRanSchedInvalid then 8 else 0 := by
  unfold macSchedTokens
  split
  · simp [Token.bytes, macSchedToken, Word.width]
  · rfl

theorem epfRanEup_emits {det : EpRanDet}
    (fits : 12 + (encode (macSchedTokens det.sliceSched)).length ≤ size.toNat) :
    Emits (epfRanEup host det p size)
      ((12 + (encode (macSchedTokens det.sliceSched)).length : Nat) : Int)
      (chunk p (setupBytes det ++ encode (macSchedTokens det.sliceSched))) := by
  rw [encode_macSchedTokens_length] at fits ⊢
  rw [epfRanEup, if_neg (by omega), macSchedTokens]
  by_cases valid : det.sliceSched ≠ epRanSchedInvalid
  · rw [if_pos valid] at fits
    rw [if_pos valid, if_pos valid, if_pos valid, if_neg (by omega)]
    refine Emits.of_eq (Emits.store.bind <| Emits.store.bind <| Emits.store.bind <|
      .wordToken rfl (.pure _)) ?_
    simp [setupBytes, chunk_append, Token.bytes, macSchedToken, Word.width, Nat.add_assoc]
  · rw [if_neg valid, if_neg valid, if_neg valid]
    refine Emits.of_eq (Emits.store.bind <| Emits.store.bind <| Emits.store.bind <| .pure _) ?_
    simp [setupBytes, chunk_append, Word.width, Nat.add_assoc]

theorem epfRanEup_cut {det : EpRanDet} (masks : 12 ≤ size.toNat)
    (short : size.toNat < 12 + (encode (macSchedTokens det.sliceSched)).length) :
    Emits (epfRanEup host det p size) (-1) (chunk p (setupBytes det)) := by
  have valid : det.sliceSched ≠ epRanSchedInvalid := by
    intro invalid
    rw [encode_macSchedTokens_length, if_neg (fun h => h invalid)] at short
    omega
  rw [encode_macSchedTokens_length, if_pos valid] at short
  rw [epfRanEup, if_neg (by omega), if_pos valid, if_pos (by omega)]
  refine Emits.of_eq (Emits.store.bind <| Emits.store.bind <| Emits.store.bind <| .pure _) ?_
  simp [setupBytes, chunk_append, Word.width, Nat.add_assoc]

theorem setupStep_macSchedToken {sliceSched : UInt32}
    (h : m.Holds c (macSchedToken sliceSched).bytes) (det : EpRanDet) :
    setupStep m c det = { det with sliceSched := sliceSched } := by
  obtain ⟨type, -, body⟩ := Token.holds_bytes.mp h
  have value : m.be (c + 4) = sliceSched := Mem.word_of_holds body
  rw [setupStep, type, value]
  rfl

theorem runSteps_macSchedTokens {sliceSched : UInt32}
    (h : m.Holds c (encode (macSchedTokens sliceSched))) (det : EpRanDet) :
    runSteps (setupStep m) (starts c (macSchedTokens sliceSched)) det =
      { det with
        sliceSched := if sliceSched ≠ epRanSchedInvalid then sliceSched else det.sliceSched } := by
  unfold macSchedTokens at h ⊢
  by_cases valid : sliceSched ≠ epRanSchedInvalid
  · rw [if_pos valid] at h ⊢
    rw [encode_cons, encode_nil, List.append_nil] at h
    rw [starts, starts, runSteps_cons, runSteps_nil, setupStep_macSchedToken h, if_pos valid]
  · rw [if_neg valid, if_neg valid]
    rfl

theorem result_eppRanEup_kept {src : EpRanDet}
    (held : m.Holds p (setupBytes src ++ encode (macSchedTokens src.sliceSched)))
    (hsize : size.toNat = 12 + (encode (macSchedTokens src.sliceSched)).length) (det : EpRanDet) :
    (eppRanEup host p size (some det)).result m =
      some (epSuccess, some { src with
        pci := det.pci
        maxSlices := det.maxSlices
        sliceSched :=
          if src.sliceSched ≠ epRanSchedInvalid then src.sliceSched else det.sliceSched }) := by
  obtain ⟨masks, tokens⟩ := Mem.holds_append.mp held
  rw [setupBytes_length] at tokens
  simp only [setupBytes, Mem.holds_append, Word.bytes_length, Word.width, Nat.add_assoc,
    Nat.reduceAdd] at masks
  obtain ⟨first, second, third⟩ := masks
  have first : m.be p = src.l1Mask := Mem.word_of_holds first
  have second : m.be (p + 4) = src.l2Mask := Mem.word_of_holds second
  have third : m.be (p + 8) = src.l3Mask := Mem.word_of_holds third
  have walked : (m.walker false (p + size.toNat)).walk (p + 12) =
      starts (p + 12) (macSchedTokens src.sliceSched) := walk_encode_all tokens (by omega)
  rw [Code.result_of m (run_eppRanEup m (by omega) det), walked,
    runSteps_macSchedTokens tokens, setupMasks, first, second, third]

theorem result_eppRanEup {src det : EpRanDet}
    (held : m.Holds p (setupBytes src ++ encode (macSchedTokens src.sliceSched)))
    (hsize : size.toNat = 12 + (encode (macSchedTokens src.sliceSched)).length)
    (fresh : det.sliceSched = epRanSchedInvalid) :
    (eppRanEup host p size (some det)).result m =
      some (epSuccess, some { src with pci := det.pci, maxSlices := det.maxSlices }) := by
  have sched : (if src.sliceSched ≠ epRanSchedInvalid then src.sliceSched else det.sliceSched) =
      src.sliceSched := by
    by_cases valid : src.sliceSched ≠ epRanSchedInvalid
    · exact if_pos valid
    · rw [if_neg valid, fresh, not_not.mp valid]
  rw [result_eppRanEup_kept held hsize, sched]

end Setup

/-- A setup reply delivers the masks and the scheduler, also the invalid one; the other
fields of the receiver stay. -/
theorem ranSetup_roundTrips (host host' : ByteOrder) (b : Nat) (size : UInt32) (ids : EpHdrId)
    (det old : EpRanDet) (fresh : old.sliceSched = epRanSchedInvalid)
    (room : 27 + (12 + if det.sliceSched ≠ epRanSchedInvalid then 8 else 0) ≤ size.toNat)
    (m : Mem) :
    RoundTrips (epfSingleRanSetupRep host (some b) size ids (some det)) b m
      (fun b' n => eppSingleRanSetupRep host' (some b') n (some old))
      (some { det with pci := old.pci, maxSlices := old.maxSlices }) := by
  have length := encode_macSchedTokens_length det.sliceSched
  have small : (encode (macSchedTokens det.sliceSched)).length ≤ 8 := by
    rw [length]
    split <;> omega
  rw [← length] at room
  have space : (size - UInt32.ofNat 27).toNat = size.toNat - 27 := uint32_sub_toNat (by omega)
  refine singleMessage_roundTrips (12 + (encode (macSchedTokens det.sliceSched)).length)
    (by simp) (by omega) (epfRanEup_emits (by omega)) (by omega) (fun m' b' held => ?_) m
  refine result_eppRanEup held ?_ fresh
  rw [uint32_sub_toNat (by rw [uint32_toNat_ofNat (by omega)]; omega),
    uint32_toNat_ofNat (by omega)]
  omega

theorem ranSetup_roundTrips_scheduler :
    RoundTrips (epfSingleRanSetupRep .little (some 0) 47 ⟨1, 2, 3⟩ (some ⟨3, 1, 1, 0, 9, 4⟩)) 0
      (Mem.ofBytes []) (fun b' n => eppSingleRanSetupRep .big (some b') n (some ⟨5, 6, 7, 8, 0, 2⟩))
      (some ⟨5, 1, 1, 0, 9, 2⟩) :=
  ranSetup_roundTrips .little .big 0 47 ⟨1, 2, 3⟩ ⟨3, 1, 1, 0, 9, 4⟩ ⟨5, 6, 7, 8, 0, 2⟩ rfl
    (by decide) (Mem.ofBytes [])

end Emproto
