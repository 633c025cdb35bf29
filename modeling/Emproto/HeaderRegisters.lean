import Emproto.HeaderParse

/-! The fields of the master header as independent registers: any run of the setters
leaves in each field what the last call for it put there. The fields keep the byte
order of the network, the flags that of the host. -/

namespace Emproto

/-! Registers that a sequence of writes overwrites one by one. -/

section Fold
variable {σ β α : Type} {step : σ → β → σ} {writes : β → Option α} {register : σ → Option α}

theorem foldl_register (overwrites : ∀ s x, register (step s x) = (writes x).or (register s))
    (xs : List β) (s : σ) :
    register (xs.foldl step s) = (xs.filterMap writes).getLast?.or (register s) := by
  induction xs generalizing s with
  | nil => rfl
  | cons x xs ih =>
    rw [List.foldl_cons, ih, overwrites, List.filterMap_cons]
    cases hx : writes x with
    | none => rfl
    | some a =>
      rw [List.getLast?_cons, Option.some_or]
      cases (xs.filterMap writes).getLast? <;> rfl

end Fold

structure HeadCall where
  type : UInt8
  ids : EpHdrId
  flags : UInt16
deriving DecidableEq, Repr

/-- A call of one of the setters of the header. -/
inductive HdrCall
  | head (h : HeadCall)
  | seq (value : UInt32)
  | length (value : UInt16)
deriving DecidableEq, Repr

namespace HdrCall

def run (host : ByteOrder) (buf : Option Nat) (size : UInt32) : HdrCall → Code Int
  | head h => epfHead host buf size h.type.toUInt32 h.ids h.flags
  | seq value => epfSeq host buf size value
  | length value => epfMsgLength host buf size value

def head? : HdrCall → Option HeadCall
  | head h => some h
  | _ => none

def seq? : HdrCall → Option UInt32
  | seq value => some value
  | _ => none

def length? : HdrCall → Option UInt16
  | length value => some value
  | _ => none

end HdrCall

def runCalls (host : ByteOrder) (buf : Option Nat) (size : UInt32) : List HdrCall → Code Unit
  | [] => pure ()
  | c :: cs => do
    let _ ← c.run host buf size
    runCalls host buf size cs

def lastHead (calls : List HdrCall) : Option HeadCall := (calls.filterMap HdrCall.head?).getLast?

def lastSeq (calls : List HdrCall) : Option UInt32 := (calls.filterMap HdrCall.seq?).getLast?

def lastLength (calls : List HdrCall) : Option UInt16 :=
  (calls.filterMap HdrCall.length?).getLast?

/-! The abstract header. -/

/-- What has been written so far to each of the three groups of fields. -/
structure HdrRegisters where
  head : Option HeadCall
  seq : Option UInt32
  length : Option UInt16

namespace HdrRegisters

def empty : HdrRegisters := ⟨none, none, none⟩

def write (r : HdrRegisters) : HdrCall → HdrRegisters
  | .head h => { r with head := some h }
  | .seq value => { r with seq := some value }
  | .length value => { r with length := some value }

variable (r : HdrRegisters) (calls : List HdrCall)

theorem head_write (c : HdrCall) : (r.write c).head = c.head?.or r.head := by
  cases c <;> rfl

theorem seq_write (c : HdrCall) : (r.write c).seq = c.seq?.or r.seq := by
  cases c <;> rfl

theorem length_write (c : HdrCall) : (r.write c).length = c.length?.or r.length := by
  cases c <;> rfl

theorem head_run : (calls.foldl write empty).head = lastHead calls := by
  rw [foldl_register head_write]
  exact Option.or_none

theorem seq_run : (calls.foldl write empty).seq = lastSeq calls := by
  rw [foldl_register seq_write]
  exact Option.or_none

theorem length_run : (calls.foldl write empty).length = lastLength calls := by
  rw [foldl_register length_write]
  exact Option.or_none

end HdrRegisters

/-- The header at `b` in `m` shows the registers, over the memory `m₀` before. -/
structure Shows (host : ByteOrder) (b : Nat) (r : HdrRegisters) (m₀ m : Mem) : Prop where
  head : ∀ h ∈ r.head, m.Holds b (headBytes host h.type.toUInt32 h.ids h.flags)
  seq : m.Holds (b + 18) (Word.bytes .big (r.seq.getD (m₀.be (b + 18))))
  length : m.Holds (b + 22) (Word.bytes .big (r.length.getD (m₀.be (b + 22))))
  outside : ∀ a, a < b ∨ b + 24 ≤ a → m a = m₀ a

section Steps
variable {host : ByteOrder} {b : Nat} {size : UInt32} {r : HdrRegisters} {m₀ m : Mem}

theorem Shows.empty (host : ByteOrder) (b : Nat) (m : Mem) : Shows host b .empty m m where
  head h hh := absurd hh (Option.not_mem_none h)
  seq := m.holds_be (b + 18)
  length := m.holds_be (b + 22)
  outside _ _ := rfl

namespace HdrCall

def stores (host : ByteOrder) (b : Nat) : HdrCall → List (Nat × UInt8)
  | head h => chunk b (headBytes host h.type.toUInt32 h.ids h.flags)
  | seq value => chunk (b + 18) (Word.bytes .big value)
  | length value => chunk (b + 22) (Word.bytes .big value)

theorem emits (c : HdrCall) (host : ByteOrder) (b : Nat) (h : 24 ≤ size.toNat) :
    ∃ ret, Emits (c.run host (some b) size) ret (c.stores host b) := by
  cases c with
  | head values => exact ⟨24, epfHead_emits h⟩
  | seq value => exact ⟨0, epfSeq_emits h⟩
  | length value => exact ⟨0, epfMsgLength_emits h⟩

def first : HdrCall → Nat
  | head _ => 0
  | seq _ => 18
  | length _ => 22

def past : HdrCall → Nat
  | head _ => 18
  | seq _ => 22
  | length _ => 24

theorem stores_bounds {c : HdrCall} {w : Nat × UInt8} (hw : w ∈ c.stores host b) :
    b + c.first ≤ w.1 ∧ w.1 < b + c.past := by
  cases c with
  | head values => exact headChunk_bounds hw
  | seq value => exact wordChunk_bounds hw
  | length value => exact wordChunk_bounds hw

theorem past_le (c : HdrCall) : c.past ≤ 24 := by
  cases c <;> simp [past]

theorem holds_apart (c : HdrCall) {p : Nat} {bs : List UInt8} (held : m.Holds p bs)
    (apart : p + bs.length ≤ b + c.first ∨ b + c.past ≤ p) :
    (m.patch (c.stores host b)).Holds p bs := by
  refine held.patch fun w hw => ?_
  have := stores_bounds hw
  omega

theorem outside_patch (c : HdrCall) {a : Nat} (ha : a < b ∨ b + 24 ≤ a) :
    m.patch (c.stores host b) a = m a := by
  refine m.patch_frame fun w hw => ?_
  have := stores_bounds hw
  have := c.past_le
  omega

theorem shows_write (c : HdrCall) (shows : Shows host b r m₀ m) :
    Shows host b (r.write c) m₀ (m.patch (c.stores host b)) := by
  have outside : ∀ a, a < b ∨ b + 24 ≤ a → m.patch (c.stores host b) a = m₀ a :=
    fun a ha => (c.outside_patch ha).trans (shows.outside a ha)
  cases c with
  | head values =>
    refine ⟨?_, ?_, ?_, outside⟩
    · rintro h ⟨⟩
      exact m.holds_patch_chunk b _
    · exact (head values).holds_apart shows.seq (.inr (by simp [past]))
    · exact (head values).holds_apart shows.length (.inr (by simp [past]))
  | seq value =>
    refine ⟨fun h hh => ?_, m.holds_patch_chunk (b + 18) _, ?_, outside⟩
    · refine (seq value).holds_apart (shows.head h hh) (.inl ?_)
      rw [headBytes_length]
      exact le_rfl
    · exact (seq value).holds_apart shows.length (.inr le_rfl)
  | length value =>
    refine ⟨fun h hh => ?_, ?_, m.holds_patch_chunk (b + 22) _, outside⟩
    · refine (length value).holds_apart (shows.head h hh) (.inl ?_)
      rw [headBytes_length]
      simp [first]
    · exact (length value).holds_apart shows.seq (.inl le_rfl)

end HdrCall

theorem runCalls_shows (h : 24 ≤ size.toNat) (calls : List HdrCall)
    (shows : Shows host b r m₀ m) :
    ∃ t, (runCalls host (some b) size calls).run m = some ((), t) ∧
      Shows host b (calls.foldl HdrRegisters.write r) m₀ (m.patch t.stores) := by
  induction calls generalizing r m with
  | nil => exact ⟨[], rfl, shows⟩
  | cons c cs ih =>
    obtain ⟨ret, emits⟩ := c.emits host b h
    obtain ⟨t, hrun, ht⟩ := emits m
    have step : Shows host b (r.write c) m₀ (m.patch t.stores) := ht ▸ c.shows_write shows
    obtain ⟨u, hrest, shown⟩ := ih step
    refine ⟨t ++ u, ?_, ?_⟩
    · rw [runCalls, Code.run_bind_of m hrun, hrest]
      rfl
    · rw [Trace.stores_append, Mem.patch_append]
      exact shown

end Steps

/-! What the accessors see. -/

structure HeadFields (host : ByteOrder) (m : Mem) (b : Nat) (h : HeadCall) : Prop where
  type : m b = h.type
  vers : m (b + 1) = empowerProtocolVers
  enbId : m.be (b + 2) = h.ids.enbId
  cellId : m.be (b + 10) = h.ids.cellId
  modId : m.be (b + 12) = h.ids.modId
  flags : m.Holds (b + 16) (Word.bytes host h.flags)

theorem Mem.Holds.byte {m : Mem} {p : Nat} {host : ByteOrder} {v : UInt8}
    (h : m.Holds p (Word.bytes host v)) : m p = v := by
  rw [← m.word_uint8 host p]
  exact Mem.word_of_holds h

theorem headFields {host : ByteOrder} {m : Mem} {b : Nat} {type : UInt32} {ids : EpHdrId}
    {flags : UInt16} (held : m.Holds b (headBytes host type ids flags)) :
    HeadFields host m b ⟨type.toUInt8, ids, flags⟩ := by
  simp only [headBytes, Mem.holds_append, Word.bytes_length, Word.width, Nat.add_assoc] at held
  obtain ⟨type, vers, enbId, cellId, modId, flags⟩ := held
  exact ⟨type.byte, vers.byte, Mem.word_of_holds enbId, Mem.word_of_holds cellId,
    Mem.word_of_holds modId, flags⟩

/-- What the accessors return from a buffer `m` after the calls, where it was `m₀` before. -/
structure HeaderReads (host : ByteOrder) (b : Nat) (size : UInt32) (calls : List HdrCall)
    (h : HeadCall) (m₀ m : Mem) : Prop where
  head : ∀ out, (eppHead host (some b) size out).result m =
    some (epSuccess, out.assign h.type.toUInt32 h.ids h.flags)
  type : (eppMsgType host (some b) size).result m = some h.type.toUInt32
  dir : (eppDir host (some b) size).result m = some ((h.flags &&& epHdrFlagDir).toNat : Int)
  seq : (eppSeq host (some b) size).result m =
    (lastSeq calls).or ((eppSeq host (some b) size).result m₀)
  length : (eppMsgLength host (some b) size).result m =
    (lastLength calls).or ((eppMsgLength host (some b) size).result m₀)
  beyond : ∀ a, b + 24 ≤ a → m a = m₀ a

section Reads
variable {host : ByteOrder} {b : Nat} {size : UInt32} {m₀ m : Mem}

theorem Shows.reads {r : HdrRegisters} {calls : List HdrCall} {h : HeadCall}
    (shows : Shows host b r m₀ m) (room : 24 ≤ size.toNat) (head : r.head = some h)
    (seq : r.seq = lastSeq calls) (length : r.length = lastLength calls) :
    HeaderReads host b size calls h m₀ m := by
  have fields := headFields (shows.head h head)
  rw [UInt8.toUInt8_toUInt32] at fields
  have flags : m.word host (b + 16) = h.flags := Mem.word_of_holds fields.flags
  have keptSeq : m.be (b + 18) = r.seq.getD (m₀.be (b + 18)) := Mem.word_of_holds shows.seq
  have keptLength : m.be (b + 22) = r.length.getD (m₀.be (b + 22)) :=
    Mem.word_of_holds shows.length
  constructor
  · intro out
    rw [result_eppHead m room fields.vers, fields.type, fields.enbId, fields.cellId, fields.modId,
      flags]
  · rw [result_eppMsgType m room, fields.type]
  · rw [result_eppDir m room, flags]
  · rw [result_eppSeq m room, result_eppSeq m₀ room, keptSeq, seq, Option.or_some]
  · rw [result_eppMsgLength m room, result_eppMsgLength m₀ room, keptLength, length,
      Option.or_some]
  · intro a ha
    exact shows.outside a (.inr ha)

/-- After any run of the setters that contains `epf_head`, each field reads back what the
last call for it wrote, and nothing behind the header has changed. -/
theorem runCalls_reads (room : 24 ≤ size.toNat) (calls : List HdrCall) (h : HeadCall)
    (last : lastHead calls = some h) (m : Mem) :
    ∃ t, (runCalls host (some b) size calls).run m = some ((), t) ∧
      HeaderReads host b size calls h m (m.patch t.stores) := by
  obtain ⟨t, hrun, shows⟩ := runCalls_shows room calls (Shows.empty host b m)
  refine ⟨t, hrun, shows.reads room ?_ ?_ ?_⟩
  · rw [HdrRegisters.head_run, last]
  · exact HdrRegisters.seq_run calls
  · exact HdrRegisters.length_run calls

theorem runCalls_reads_last :
    lastHead [.seq 7, .head ⟨1, ⟨9, 2, 3⟩, 0⟩, .length 24, .head ⟨3, ⟨9, 4, 5⟩, 1⟩] =
        some ⟨3, ⟨9, 4, 5⟩, 1⟩ ∧
      ∃ t, (runCalls .little (some 0) 24
          [.seq 7, .head ⟨1, ⟨9, 2, 3⟩, 0⟩, .length 24, .head ⟨3, ⟨9, 4, 5⟩, 1⟩]).run
          (Mem.ofBytes []) = some ((), t) ∧
        HeaderReads .little 0 24
          [.seq 7, .head ⟨1, ⟨9, 2, 3⟩, 0⟩, .length 24, .head ⟨3, ⟨9, 4, 5⟩, 1⟩]
          ⟨3, ⟨9, 4, 5⟩, 1⟩ (Mem.ofBytes []) ((Mem.ofBytes []).patch t.stores) :=
  ⟨rfl, runCalls_reads (by decide) _ _ rfl (Mem.ofBytes [])⟩

end Reads

/-! Two hosts. -/

section Portable
variable {host host' : ByteOrder} {b b' : Nat} {size size' : UInt32} {m m' : Mem}

structure HeaderArrives (host : ByteOrder) (b : Nat) (size : UInt32) (h : HeadCall)
    (seq : UInt32) (len : UInt16) (m : Mem) : Prop where
  head : ∀ out, (eppHead host (some b) size out).result m =
    some (epSuccess, out.assign h.type.toUInt32 h.ids h.flags)
  dir : (eppDir host (some b) size).result m = some ((h.flags &&& epHdrFlagDir).toNat : Int)
  seq : (eppSeq host (some b) size).result m = some seq
  length : (eppMsgLength host (some b) size).result m = some len

/-- Whatever the memories held before, a header formatted at `b` on one host arrives
with its values when its 24 bytes are parsed at `b'` on the other. -/
def Portable (host : ByteOrder) (b : Nat) (size : UInt32) (host' : ByteOrder) (b' : Nat)
    (size' : UInt32) (h : HeadCall) (seq : UInt32) (len : UInt16) : Prop :=
  ∀ m t m', (runCalls host (some b) size [.head h, .seq seq, .length len]).run m = some ((), t) →
    (m.patch t.stores).Received b m' b' 24 → HeaderArrives host' b' size' h seq len m'

theorem swapped_eq_iff {v : Nat} (h : v < 65536) :
    (v / 256 % 256 + 256 * (v % 256)) % 65536 = v ↔ v % 256 = v / 256 := by
  have high : v / 256 % 256 = v / 256 := Nat.mod_eq_of_lt (by omega)
  have fits : (v / 256 + 256 * (v % 256)) % 65536 = v / 256 + 256 * (v % 256) :=
    Nat.mod_eq_of_lt (by omega)
  rw [high, fits]
  omega

theorem uint16_crosses (order order' : ByteOrder) (w : UInt16) :
    (Word.ofBytes order' (Word.bytes order w) : UInt16) = w ↔
      order = order' ∨ w.toNat % 256 = w.toNat / 256 := by
  cases order <;> cases order'
  · simp
  · rw [← UInt16.toNat_inj]
    simpa [Word.ofBytes, Word.bytes, ByteOrder.bytes, ByteOrder.value, littleBytes,
      ofLittleBytes, Word.toNat, Word.ofNat, Word.width] using swapped_eq_iff w.toNat_lt
  · rw [← UInt16.toNat_inj]
    simpa [Word.ofBytes, Word.bytes, ByteOrder.bytes, ByteOrder.value, littleBytes,
      ofLittleBytes, Word.toNat, Word.ofNat, Word.width] using swapped_eq_iff w.toNat_lt
  · simp

theorem header_laid (host : ByteOrder) (b : Nat) (room : 24 ≤ size.toNat) (h : HeadCall)
    (seq : UInt32) (len : UInt16)
    (m : Mem) :
    ∃ t, (runCalls host (some b) size [.head h, .seq seq, .length len]).run m = some ((), t) ∧
      Shows host b ⟨some h, some seq, some len⟩ m (m.patch t.stores) :=
  runCalls_shows room _ (Shows.empty host b m)

/-- What a parsing host sees of a header that arrived from the formatting host. -/
theorem header_arrives_iff (room : 24 ≤ size'.toNat) {h : HeadCall} {seq : UInt32} {len : UInt16}
    {m₀ : Mem} (shows : Shows host b ⟨some h, some seq, some len⟩ m₀ m)
    (received : m.Received b m' b' 24) :
    HeaderArrives host' b' size' h seq len m' ↔
      host = host' ∨ h.flags.toNat % 256 = h.flags.toNat / 256 := by
  have head : m'.Holds b' (headBytes host h.type.toUInt32 h.ids h.flags) := by
    refine (shows.head h rfl).transport fun i hi => received i ?_
    rw [headBytes_length] at hi
    omega
  have fields := headFields head
  rw [UInt8.toUInt8_toUInt32] at fields
  have seqHeld := Mem.Holds.received (k := 18) shows.seq received (by simp [Word.width])
  have lenHeld := Mem.Holds.received (k := 22) shows.length received (by simp [Word.width])
  have seqRead : m'.be (b' + 18) = seq := Mem.word_of_holds seqHeld
  have lenRead : m'.be (b' + 22) = len := Mem.word_of_holds lenHeld
  have flags : m'.word host' (b' + 16) = (Word.ofBytes host' (Word.bytes host h.flags) : UInt16) :=
    Mem.word_of_holds_bytes fields.flags
  rw [← uint16_crosses host host' h.flags, ← flags]
  apply Iff.intro
  · intro arrives
    have seen := arrives.head ⟨none, none, none, none, some 0⟩
    rw [result_eppHead m' room fields.vers] at seen
    simpa [HeadOut.assign] using seen
  · intro same
    constructor
    · intro out
      rw [result_eppHead m' room fields.vers, same, fields.type, fields.enbId, fields.cellId,
        fields.modId]
    · rw [result_eppDir m' room, same]
    · rw [result_eppSeq m' room, seqRead]
    · rw [result_eppMsgLength m' room, lenRead]

theorem exists_received (m : Mem) (b b' n : Nat) : ∃ m' : Mem, m.Received b m' b' n :=
  ⟨fun a => m (b + (a - b')), fun i _ => congrArg m (by omega)⟩

/-- A header is portable exactly between hosts of one byte order, or with flags whose
two bytes agree. -/
theorem portable_iff (room : 24 ≤ size.toNat) (room' : 24 ≤ size'.toNat) (h : HeadCall)
    (seq : UInt32) (len : UInt16) :
    Portable host b size host' b' size' h seq len ↔
      host = host' ∨ h.flags.toNat % 256 = h.flags.toNat / 256 := by
  apply Iff.intro
  · intro portable
    obtain ⟨t, hrun, shows⟩ :=
      header_laid host b room h seq len (Mem.ofBytes [])
    obtain ⟨m', received⟩ := exists_received ((Mem.ofBytes []).patch t.stores) b b' 24
    exact (header_arrives_iff room' shows received).mp (portable _ t m' hrun received)
  · intro same m t m' hrun received
    obtain ⟨t', hrun', shows⟩ := header_laid host b room h seq len m
    cases hrun.symm.trans hrun'
    exact (header_arrives_iff room' shows received).mpr same

theorem portable_iff_hello :
    Portable .little 0 24 .big 0 24 ⟨1, ⟨9, 2, 3⟩, 0⟩ 7 31 ↔
      ByteOrder.little = .big ∨ (0 : UInt16).toNat % 256 = (0 : UInt16).toNat / 256 :=
  portable_iff (by decide) (by decide) ⟨1, ⟨9, 2, 3⟩, 0⟩ 7 31

/-- A reply that a little-endian host formats is parsed as a request by a big-endian one. -/
theorem reply_not_portable : ¬ Portable .little 0 24 .big 0 24 ⟨1, ⟨9, 2, 3⟩, 1⟩ 7 31 := by
  intro portable
  have room : 24 ≤ (24 : UInt32).toNat := by decide
  obtain ⟨t, hrun, shows⟩ := header_laid .little 0 room ⟨1, ⟨9, 2, 3⟩, 1⟩ 7 31
    (Mem.ofBytes [])
  have arrives := portable _ t _ hrun fun i _ => rfl
  have crossed := (header_arrives_iff room shows fun i _ => rfl).mp arrives
  exact absurd crossed (by decide)

end Portable

end Emproto
