import Emproto.BufferCode

/-! The master header (`ephdr.c`) and the single, schedule and trigger event
headers (`epsingle.c`, `epsched.c`, `eptrig.c`), with the composition that the
public formatters share. Logging is compiled out of the release build and is
not modelled.

Packed layouts, as byte offsets:
`ep_hdr` is `type 0, vers 1, enb_id 2, cell_id 10, mod_id 12, flags 16, seq 18,
length 22` in 24 bytes; `ep_s_hdr` and `ep_t_hdr` are `type 0, op 2` in 3 bytes;
`ep_c_hdr` is `type 0, op 2, interval 3` in 7 bytes. -/

namespace Emproto

abbrev epSuccess : Int := 0
abbrev epError : Int := -1

def empowerProtocolVers : UInt8 := 1

inductive EpMsgType
  | invalid
  | single
  | schedule
  | trigger
  | extended
deriving DecidableEq, Repr

def EpMsgType.code : EpMsgType → UInt32
  | invalid => 0
  | single => 1
  | schedule => 2
  | trigger => 3
  | extended => 0xff

inductive EpActType
  | invalid
  | hello
  | ecap
  | ccap
  | ueReport
  | ueMeasure
  | cellMeasure
  | handover
  | ranSetup
  | ranSlice
deriving DecidableEq, Repr

def EpActType.code : EpActType → UInt32
  | invalid => 0
  | hello => 1
  | ecap => 2
  | ccap => 3
  | ueReport => 4
  | ueMeasure => 5
  | cellMeasure => 6
  | handover => 7
  | ranSetup => 9
  | ranSlice => 10

inductive EpOpType
  | unspecified
  | success
  | fail
  | notSupported
  | add
  | rem
  | set
  | unset
  | start
  | stop
deriving DecidableEq, Repr

def EpOpType.code : EpOpType → UInt32
  | unspecified => 0
  | success => 1
  | fail => 2
  | notSupported => 3
  | add => 4
  | rem => 5
  | set => 6
  | unset => 7
  | start => 8
  | stop => 9

inductive EpHdrFlagDir
  | req
  | rep
deriving DecidableEq, Repr

def EpHdrFlagDir.flag : EpHdrFlagDir → UInt16
  | req => 0
  | rep => 1

structure EpHdrId where
  enbId : UInt64
  cellId : UInt16
  modId : UInt32
deriving DecidableEq, Repr

def epfHead (host : ByteOrder) (buf : Option Nat) (size : UInt32) (type : UInt32)
    (id : EpHdrId) (flags : UInt16) : Code Int :=
  match buf with
  | none => pure (-1)
  | some h =>
    if size.toNat < 24 then pure (-1)
    else do
      Code.store host h type.toUInt8
      Code.store host (h + 1) empowerProtocolVers
      Code.store host (h + 2) (htobe64 host id.enbId)
      Code.store host (h + 10) (htons host id.cellId)
      Code.store host (h + 12) (htonl host id.modId)
      Code.store host (h + 16) flags
      pure 24

def epfMsgLength (host : ByteOrder) (buf : Option Nat) (size : UInt32) (len : UInt16) :
    Code Int :=
  match buf with
  | none => pure epError
  | some h =>
    if size.toNat < 24 then pure epError
    else do
      Code.store host (h + 22) (htons host len)
      pure epSuccess

/-- The common text of `epf_single` and `epf_trigger`. -/
def eventHeader (host : ByteOrder) (type op : UInt32) (buf : Nat) (size : UInt32) : Code Int :=
  if size.toNat < 3 then pure (-1)
  else do
    Code.store host buf (htons host type.toUInt16)
    Code.store host (buf + 2) op.toUInt8
    pure 3

def epfSingle (host : ByteOrder) (type : EpActType) (op : UInt32) : Nat → UInt32 → Code Int :=
  eventHeader host type.code op

def epfTrigger (host : ByteOrder) (type : EpActType) (op : UInt32) : Nat → UInt32 → Code Int :=
  eventHeader host type.code op

/-- The size compared with counts the main header, which lies before `buf`, too. -/
def epfSchedule (host : ByteOrder) (type : EpActType) (op interval : UInt32) (buf : Nat)
    (size : UInt32) : Code Int :=
  if size.toNat < 24 + 7 then pure (-1)
  else do
    Code.store host buf (htons host type.code.toUInt16)
    Code.store host (buf + 2) op.toUInt8
    Code.store host (buf + 3) (htonl host interval)
    pure 7

def eppSchedInterval (host : ByteOrder) (buf : Nat) (size : UInt32) : Code UInt32 :=
  if size.toNat < 24 + 7 then pure 0
  else do
    let interval : UInt32 ← Code.load host (buf + 24 + 3)
    pure (ntohl host interval)

/-- One stage of a public formatter: format a part behind the `ret` bytes done,
give up with its result if that is negative, else go on with the sum. -/
def part (buf : Nat) (size : UInt32) (ret : Int) (format : Nat → UInt32 → Code Int)
    (rest : Int → Code Int) : Code Int := do
  let ms ← format (buf + ret.toNat) (size - UInt32.ofInt ret)
  if ms < 0 then pure ms else rest (toInt32 (ret + ms))

/-- The public formatters: main header, event header, body, message length. -/
def formatMessage (host : ByteOrder) (buf : Option Nat) (size : UInt32) (type : EpMsgType)
    (id : EpHdrId) (dir : EpHdrFlagDir) (event body : Nat → UInt32 → Code Int) : Code Int :=
  match buf with
  | none => pure (-1)
  | some b =>
    part b size 0 (fun p s => epfHead host (some p) s type.code id dir.flag) fun ret =>
    part b size ret event fun ret =>
    part b size ret body fun ret => do
      let _ ← epfMsgLength host (some b) size (UInt16.ofInt ret)
      pure ret

section Interval
variable {host : ByteOrder} (m : Mem) (b : Nat) (size : UInt32)

def schedInterval : UInt32 := if size.toNat < 24 + 7 then 0 else m.be (b + 24 + 3)

def schedIntervalTrace : Trace :=
  if size.toNat < 24 + 7 then [] else Code.loadTrace (b + 24 + 3) 4

theorem run_eppSchedInterval :
    (eppSchedInterval host b size).run m =
      some (schedInterval m b size, schedIntervalTrace b size) := by
  rw [eppSchedInterval, schedInterval, schedIntervalTrace]
  by_cases short : size.toNat < 24 + 7
  · rw [if_pos short, if_pos short, if_pos short]
    rfl
  · rw [if_neg short, if_neg short, if_neg short]
    exact Code.run_fetch m (b + 24 + 3) host

theorem schedIntervalTrace_plain : (schedIntervalTrace b size).Plain := by
  unfold schedIntervalTrace
  split <;> simp

end Interval

section Frames
variable {host : ByteOrder} {b : Nat} {size : UInt32}

def headBytes (host : ByteOrder) (type : UInt32) (id : EpHdrId) (flags : UInt16) : List UInt8 :=
  Word.bytes host type.toUInt8 ++ (Word.bytes host empowerProtocolVers ++
    (Word.bytes .big id.enbId ++ (Word.bytes .big id.cellId ++
      (Word.bytes .big id.modId ++ Word.bytes host flags))))

def eventBytes (host : ByteOrder) (type op : UInt32) : List UInt8 :=
  Word.bytes .big type.toUInt16 ++ Word.bytes host op.toUInt8

def scheduleBytes (host : ByteOrder) (type op interval : UInt32) : List UInt8 :=
  eventBytes host type op ++ Word.bytes .big interval

@[simp] theorem headBytes_length (type : UInt32) (id : EpHdrId) (flags : UInt16) :
    (headBytes host type id flags).length = 18 := by
  simp [headBytes, Word.width]

@[simp] theorem eventBytes_length (type op : UInt32) :
    (eventBytes host type op).length = 3 := by
  simp [eventBytes, Word.width]

@[simp] theorem scheduleBytes_length (type op interval : UInt32) :
    (scheduleBytes host type op interval).length = 7 := by
  simp [scheduleBytes, Word.width]

variable {type op : UInt32} {id : EpHdrId} {flags : UInt16}

theorem epfHead_emits (h : 24 ≤ size.toNat) :
    Emits (epfHead host (some b) size type id flags) 24
      (chunk b (headBytes host type id flags)) := by
  rw [epfHead, if_neg (by omega)]
  refine Emits.of_eq (Emits.store.bind <| Emits.store.bind <| Emits.store.bind <|
    Emits.store.bind <| Emits.store.bind <| Emits.store.bind <| .pure _) ?_
  simp [headBytes, chunk_append, Word.width, Nat.add_assoc]

theorem epfHead_short (h : size.toNat < 24) :
    Emits (epfHead host (some b) size type id flags) (-1) [] := by
  rw [epfHead, if_pos h]
  exact .pure _

theorem epfMsgLength_emits {len : UInt16} (h : 24 ≤ size.toNat) :
    Emits (epfMsgLength host (some b) size len) 0 (chunk (b + 22) (Word.bytes .big len)) := by
  rw [epfMsgLength, if_neg (by omega)]
  refine Emits.of_eq (Emits.store.bind <| .pure _) ?_
  simp

theorem eventHeader_emits (h : 3 ≤ size.toNat) :
    Emits (eventHeader host type op b size) 3 (chunk b (eventBytes host type op)) := by
  rw [eventHeader, if_neg (by omega)]
  refine Emits.of_eq (Emits.store.bind <| Emits.store.bind <| .pure _) ?_
  simp [eventBytes, chunk_append, Word.width]

theorem eventHeader_behind (h : 27 ≤ size.toNat) :
    Emits (eventHeader host type op (b + 24) (size - UInt32.ofNat 24)) (3 : Nat)
      (chunk (b + 24) (eventBytes host type op)) :=
  eventHeader_emits (by rw [uint32_sub_toNat (by omega)]; omega)

theorem headChunk_bounds {w : Nat × UInt8} (h : w ∈ chunk b (headBytes host type id flags)) :
    b ≤ w.1 ∧ w.1 < b + 18 := by
  have bounds := chunk_bounds h
  rwa [headBytes_length] at bounds

theorem eventHeader_short (h : size.toNat < 3) :
    Emits (eventHeader host type op b size) (-1) [] := by
  rw [eventHeader, if_pos h]
  exact .pure _

theorem epfSchedule_emits {act : EpActType} {interval : UInt32} (h : 24 + 7 ≤ size.toNat) :
    Emits (epfSchedule host act op interval b size) 7
      (chunk b (scheduleBytes host act.code op interval)) := by
  rw [epfSchedule, if_neg (by omega)]
  refine Emits.of_eq (Emits.store.bind <| Emits.store.bind <| Emits.store.bind <| .pure _) ?_
  simp [scheduleBytes, eventBytes, chunk_append, Word.width, Nat.add_assoc]

theorem epfSchedule_short {act : EpActType} {interval : UInt32} (h : size.toNat < 24 + 7) :
    Emits (epfSchedule host act op interval b size) (-1) [] := by
  rw [epfSchedule, if_pos h]
  exact .pure _

end Frames

section Parts
variable {b : Nat} {size : UInt32} {format : Nat → UInt32 → Code Int} {rest : Int → Code Int}
  {vs ws : List (Nat × UInt8)}

theorem part_sum (ret ms : Nat) {r : Int}
    (hformat : Emits (format (b + ret) (size - UInt32.ofNat ret)) ms vs)
    (hrest : Emits (rest (toInt32 ((ret + ms : Nat) : Int))) r ws) :
    Emits (part b size ret format rest) r (vs ++ ws) := by
  rw [Nat.cast_add] at hrest
  rw [part, Int.toNat_natCast, uint32_ofInt_natCast]
  refine hformat.bind ?_
  rwa [if_neg (by omega)]

theorem part_emits (ret ms : Nat) {r : Int}
    (hformat : Emits (format (b + ret) (size - UInt32.ofNat ret)) ms vs)
    (bound : ret + ms < 2147483648) (hrest : Emits (rest ((ret + ms : Nat) : Int)) r ws) :
    Emits (part b size ret format rest) r (vs ++ ws) := by
  refine part_sum ret ms hformat ?_
  rwa [toInt32_of_lt (by omega) (by omega)]

theorem part_none (ret : Nat)
    (hformat : ∀ m, (format (b + ret) (size - UInt32.ofNat ret)).run m = none) (m : Mem) :
    (part b size ret format rest).run m = none := by
  rw [part, Int.toNat_natCast, uint32_ofInt_natCast, Code.run_bind, hformat]
  rfl

theorem part_rest_none (ret ms : Nat)
    (hformat : Emits (format (b + ret) (size - UInt32.ofNat ret)) ms vs)
    (bound : ret + ms < 2147483648) (hrest : ∀ m, (rest ((ret + ms : Nat) : Int)).run m = none) :
    ∀ m, (part b size ret format rest).run m = none := by
  have sum : toInt32 ((ret : Int) + ms) = ((ret + ms : Nat) : Int) := by
    rw [toInt32_of_lt (by omega) (by omega), Nat.cast_add]
  rw [part, Int.toNat_natCast, uint32_ofInt_natCast]
  refine hformat.bind_none ?_
  rwa [if_neg (by omega), sum]

theorem part_fails (ret : Nat) {ms : Int}
    (hformat : Emits (format (b + ret) (size - UInt32.ofNat ret)) ms vs) (neg : ms < 0) :
    Emits (part b size ret format rest) ms vs := by
  rw [part, Int.toNat_natCast, uint32_ofInt_natCast]
  have stopped : Emits (if ms < 0 then pure ms else rest (toInt32 (ret + ms))) ms [] := by
    rw [if_pos neg]
    exact .pure _
  exact Emits.of_eq (hformat.bind stopped) (List.append_nil _)

end Parts

section Messages
variable {host : ByteOrder} {b : Nat} {size : UInt32} {type : EpMsgType} {id : EpHdrId}
  {dir : EpHdrFlagDir} {event body : Nat → UInt32 → Code Int} {vs ws : List (Nat × UInt8)}

theorem head_part_short (h : size.toNat < 24) {rest : Int → Code Int} :
    Emits (part b size 0 (fun p s => epfHead host (some p) s type.code id dir.flag) rest)
      (-1) [] := by
  refine part_fails 0 ?_ (by decide)
  simpa using epfHead_short h

theorem formatMessage_short (h : size.toNat < 24) :
    Emits (formatMessage host (some b) size type id dir event body) (-1) [] := by
  rw [formatMessage]
  exact head_part_short h

theorem head_part (h : 24 ≤ size.toNat) {rest : Int → Code Int} {r : Int}
    (hrest : Emits (rest ((24 : Nat) : Int)) r ws) :
    Emits (part b size 0 (fun p s => epfHead host (some p) s type.code id dir.flag) rest) r
      (chunk b (headBytes host type.code id dir.flag) ++ ws) :=
  part_emits 0 24 (by simpa using epfHead_emits h) (by decide) hrest

/-- Both headers and the body fit: the result is the sum of the lengths as an `int`,
which the header receives reduced to 16 bits. -/
theorem formatMessage_sum (k n : Nat) (h : 24 ≤ size.toNat)
    (hevent : Emits (event (b + 24) (size - UInt32.ofNat 24)) k vs) (hk : 24 + k < 2147483648)
    (hbody : Emits (body (b + (24 + k)) (size - UInt32.ofNat (24 + k))) n ws) :
    Emits (formatMessage host (some b) size type id dir event body)
      (toInt32 ((24 + k + n : Nat) : Int))
      (chunk b (headBytes host type.code id dir.flag) ++ (vs ++ (ws ++
        chunk (b + 22)
          (Word.bytes .big (UInt16.ofInt (toInt32 ((24 + k + n : Nat) : Int))))))) := by
  rw [formatMessage]
  refine head_part h ?_
  refine part_emits 24 k hevent hk ?_
  refine part_sum (24 + k) n hbody ?_
  exact Emits.of_eq ((epfMsgLength_emits h).bind (.pure _)) (List.append_nil _)

theorem formatMessage_emits (k n : Nat) (h : 24 ≤ size.toNat)
    (hevent : Emits (event (b + 24) (size - UInt32.ofNat 24)) k vs)
    (hbody : Emits (body (b + (24 + k)) (size - UInt32.ofNat (24 + k))) n ws)
    (bound : 24 + k + n < 2147483648) :
    Emits (formatMessage host (some b) size type id dir event body) ((24 + k + n : Nat) : Int)
      (chunk b (headBytes host type.code id dir.flag) ++ (vs ++ (ws ++
        chunk (b + 22) (Word.bytes .big (UInt16.ofInt ((24 + k + n : Nat) : Int)))))) := by
  have sum : toInt32 ((24 + k + n : Nat) : Int) = ((24 + k + n : Nat) : Int) :=
    toInt32_of_lt (by omega) (by omega)
  rw [← sum]
  exact formatMessage_sum k n h hevent (by omega) hbody

theorem formatMessage_none (k : Nat) (h : 24 ≤ size.toNat)
    (hevent : Emits (event (b + 24) (size - UInt32.ofNat 24)) k vs) (hk : 24 + k < 2147483648)
    (hbody : ∀ m, (body (b + (24 + k)) (size - UInt32.ofNat (24 + k))).run m = none) (m : Mem) :
    (formatMessage host (some b) size type id dir event body).run m = none := by
  have head : Emits (epfHead host (some (b + 0)) (size - UInt32.ofNat 0) type.code id dir.flag)
      (24 : Nat) (chunk b (headBytes host type.code id dir.flag)) := by
    simpa using epfHead_emits h
  rw [formatMessage]
  refine part_rest_none 0 24 head (by decide) (part_rest_none 24 k hevent hk ?_) m
  exact part_none (24 + k) hbody

theorem formatMessage_event_fails {ms : Int} (h : 24 ≤ size.toNat)
    (hevent : Emits (event (b + 24) (size - UInt32.ofNat 24)) ms vs) (neg : ms < 0) :
    Emits (formatMessage host (some b) size type id dir event body) ms
      (chunk b (headBytes host type.code id dir.flag) ++ vs) := by
  rw [formatMessage]
  refine head_part h ?_
  exact part_fails 24 hevent neg

theorem formatMessage_body_fails (k : Nat) {ms : Int} (h : 24 ≤ size.toNat)
    (hevent : Emits (event (b + 24) (size - UInt32.ofNat 24)) k vs) (hk : 24 + k < 2147483648)
    (hbody : Emits (body (b + (24 + k)) (size - UInt32.ofNat (24 + k))) ms ws) (neg : ms < 0) :
    Emits (formatMessage host (some b) size type id dir event body) ms
      (chunk b (headBytes host type.code id dir.flag) ++ (vs ++ ws)) := by
  rw [formatMessage]
  refine head_part h ?_
  refine part_emits 24 k hevent hk ?_
  exact part_fails (24 + k) hbody neg

theorem formatMessage_returns {action op : UInt32} (n : Nat) (h : 27 ≤ size.toNat)
    (hbody : Emits (body (b + 27) (size - UInt32.ofNat 27)) n ws) (bound : 27 + n < 2147483648) :
    ∃ vs, Emits (formatMessage host (some b) size type id dir (eventHeader host action op) body)
        ((27 + n : Nat) : Int) vs :=
  ⟨_, formatMessage_emits 3 n (by omega) (eventHeader_behind h) hbody bound⟩

theorem messageStores_bounds {flags len : UInt16} {ty : UInt32} {ev : List UInt8} {w : Nat × UInt8}
    (hw : w ∈ chunk b (headBytes host ty id flags) ++ (chunk (b + 24) ev ++ (ws ++
      chunk (b + 22) (Word.bytes .big len)))) :
    (b ≤ w.1 ∧ w.1 < b + (24 + ev.length)) ∨ w ∈ ws := by
  simp only [List.mem_append] at hw
  rcases hw with hw | hw | hw | hw
  · have := headChunk_bounds hw
    exact .inl (by omega)
  · have := chunk_bounds hw
    exact .inl (by omega)
  · exact .inr hw
  · have := wordChunk_bounds hw
    simp only [Word.width] at this
    exact .inl (by omega)

theorem formatMessage_body {action op : UInt32} {n : Nat} {bs : List UInt8} (h : 27 ≤ size.toNat)
    (hbody : Emits (body (b + 27) (size - UInt32.ofNat 27)) n ws) (lays : Lays ws (b + 27) bs)
    (hn : bs.length = n) (bound : 27 + n < 2147483648) :
    ∃ vs, Emits (formatMessage host (some b) size type id dir (eventHeader host action op) body)
        ((27 + n : Nat) : Int) vs ∧
      (∀ m : Mem, (m.patch vs).Holds (b + 27) bs) ∧ ∀ w ∈ vs, b ≤ w.1 ∧ w.1 < b + (27 + n) := by
  refine ⟨_, formatMessage_emits 3 n (by omega) (eventHeader_behind h) hbody bound, fun m => ?_,
    fun w hw => ?_⟩
  · rw [Mem.patch_append, Mem.patch_append, Mem.patch_append]
    refine (lays.holds _).patch fun w hw => ?_
    have := wordChunk_bounds hw
    simp only [Word.width] at this
    omega
  · rcases messageStores_bounds hw with front | hw
    · rw [eventBytes_length] at front
      omega
    · have := lays.within w hw
      omega

theorem formatMessage_headers_fail {action op : UInt32} (h : size.toNat < 27) :
    ∃ vs, Emits (formatMessage host (some b) size type id dir (eventHeader host action op) body)
        (-1) vs ∧ ∀ w ∈ vs, b ≤ w.1 ∧ w.1 < b + size.toNat := by
  by_cases head : size.toNat < 24
  · exact ⟨[], formatMessage_short head, by simp⟩
  · have event : Emits (eventHeader host action op (b + 24) (size - UInt32.ofNat 24)) (-1) [] :=
      eventHeader_short (by rw [uint32_sub_toNat (by omega)]; omega)
    refine ⟨_, formatMessage_event_fails (by omega) event (by decide), fun w hw => ?_⟩
    rw [List.append_nil] at hw
    have := headChunk_bounds hw
    omega

theorem formatMessage_body_refused {action op : UInt32} {ms : Int} (h : 27 ≤ size.toNat)
    (hbody : Emits (body (b + 27) (size - UInt32.ofNat 27)) ms []) (neg : ms < 0) :
    ∃ vs, Emits (formatMessage host (some b) size type id dir (eventHeader host action op) body)
        ms vs ∧ ∀ w ∈ vs, b ≤ w.1 ∧ w.1 < b + size.toNat := by
  refine ⟨_, formatMessage_body_fails 3 (by omega) (eventHeader_behind h) (by omega) hbody neg,
    fun w hw => ?_⟩
  rw [List.append_nil, List.mem_append] at hw
  rcases hw with hw | hw
  · have := headChunk_bounds hw
    omega
  · have := chunk_bounds hw
    rw [eventBytes_length] at this
    omega

end Messages

end Emproto
