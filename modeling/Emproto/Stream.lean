import Emproto.Messages
import Emproto.HeaderRegisters

/-! Messages on a byte stream. Every message announces its own length, so a receiver
that cuts off the announced number of bytes again and again finds the messages. -/

namespace Emproto

/-! Cutting a stream whose frames announce their length. -/

section Cut
variable {α : Type} {announced : List α → Option Nat} {k : Nat}

def cutFrames (announced : List α → Option Nat) : Nat → List α → Option (List (List α))
  | _, [] => some []
  | 0, _ :: _ => none
  | k + 1, bs =>
    match announced bs with
    | none => none
    | some n =>
      if n ≤ bs.length then (cutFrames announced k (bs.drop n)).map (bs.take n :: ·) else none

theorem cutFrames_append {f tail : List α} (nonempty : f ≠ [])
    (own : announced (f ++ tail) = some f.length) :
    cutFrames announced (k + 1) (f ++ tail) = (cutFrames announced k tail).map (f :: ·) := by
  rw [cutFrames]
  · simp only [own, List.take_left, List.drop_left]
    exact if_pos (by rw [List.length_append]; omega)
  · exact fun empty => nonempty (List.append_eq_nil_iff.mp empty).1

theorem cutFrames_flatten (frames : List (List α)) (nonempty : ∀ f ∈ frames, f ≠ [])
    (own : ∀ f ∈ frames, ∀ tail, announced (f ++ tail) = some f.length)
    (enough : frames.length ≤ k) : cutFrames announced k frames.flatten = some frames := by
  induction frames generalizing k with
  | nil => cases k <;> rfl
  | cons f fs ih =>
    obtain ⟨k, rfl⟩ : ∃ k', k = k' + 1 := ⟨k - 1, by rw [List.length_cons] at enough; omega⟩
    have rest : cutFrames announced k fs.flatten = some fs :=
      ih (fun g hg => nonempty g (List.mem_cons_of_mem _ hg))
        (fun g hg => own g (List.mem_cons_of_mem _ hg)) (Nat.le_of_succ_le_succ enough)
    rw [List.flatten_cons, cutFrames_append (nonempty f List.mem_cons_self)
      (own f List.mem_cons_self _), rest]
    rfl

theorem length_le_flatten (frames : List (List α)) (nonempty : ∀ f ∈ frames, f ≠ []) :
    frames.length ≤ frames.flatten.length := by
  induction frames with
  | nil => exact Nat.zero_le _
  | cons f fs ih =>
    have first := List.length_pos_iff.mpr (nonempty f List.mem_cons_self)
    have rest := ih fun g hg => nonempty g (List.mem_cons_of_mem _ hg)
    rw [List.flatten_cons, List.length_append, List.length_cons]
    omega

end Cut

/-! The receiver and the senders. -/

def announcedLength (host : ByteOrder) (bs : List UInt8) : Option Nat :=
  if bs.length < 24 then none
  else ((eppMsgLength host (some 0) 24).result (Mem.ofBytes bs)).map UInt16.toNat

/-- Cut a stream into messages, until nothing is left. -/
def splitStream (host : ByteOrder) (bs : List UInt8) : Option (List (List UInt8)) :=
  cutFrames (announcedLength host) bs.length bs

/-- A formatter call on the `size` bytes at `b`, with the sequence number set afterwards. -/
structure Sending where
  host : ByteOrder
  before : Mem
  b : Nat
  size : UInt32
  ids : EpHdrId
  msg : Message
  seq : Option UInt32

namespace Sending

def code (s : Sending) : Code Int := do
  let n ← s.msg.format s.host (some s.b) s.size s.ids
  match s.seq with
  | none => pure n
  | some seq => do
    let _ ← epfSeq s.host (some s.b) s.size seq
    pure n

/-- The bytes that are sent, if the call succeeds with a length that fits its field and the
buffer. -/
def wire (s : Sending) : Option (List UInt8) :=
  match s.code.run s.before with
  | none => none
  | some (n, t) =>
    if 0 ≤ n ∧ n ≤ 65535 ∧ n ≤ s.size.toNat then
      some ((s.before.patch t.stores).slice s.b n.toNat)
    else none

end Sending

theorem Mem.getD_slice (m : Mem) (p n i : Nat) (h : i < n) (d : UInt8) :
    (m.slice p n).getD i d = m (p + i) := by
  induction n generalizing p i with
  | zero => omega
  | succ n ih =>
    cases i with
    | zero => rfl
    | succ i =>
      rw [Mem.slice, List.getD_cons_succ, ih (p + 1) i (by omega), Nat.add_right_comm,
        Nat.add_assoc]

theorem Mem.received_slice (m : Mem) (p n : Nat) (tail : List UInt8) :
    m.Received p (Mem.ofBytes (m.slice p n ++ tail)) 0 n := by
  intro i hi
  have front : i < (m.slice p n).length := by simpa using hi
  rw [Nat.zero_add, Mem.ofBytes, List.getD_eq_getElem?_getD, List.getElem?_append_left front,
    ← List.getD_eq_getElem?_getD, m.getD_slice p n i hi]

namespace Sending
variable (s : Sending)

theorem code_outcome :
    (∀ m, s.code.run m = none) ∨ ∃ n ws, Emits s.code n ws ∧
      (0 ≤ n → 24 ≤ n ∧ (n ≤ s.size.toNat →
        ∀ m : Mem, (m.patch ws).Holds (s.b + 22) (Word.bytes .big (UInt16.ofInt n)))) := by
  rcases s.msg.formats s.host s.b s.size s.ids with
    crash | ⟨n, ws, emits, -, frames⟩
  · left
    intro m
    rw [code, Code.run_bind, crash]
    rfl
  · right
    have long (success : 0 ≤ n) : 24 ≤ n := by
      have := (frames success).long
      omega
    cases seq : s.seq with
    | none =>
      refine ⟨n, ws, ?_, fun success => ⟨long success, fun _ => (frames success).length⟩⟩
      simp only [code, seq]
      exact Emits.of_eq (emits.bind (.pure n)) (List.append_nil ws)
    | some seq' =>
      by_cases short : s.size.toNat < 24
      · refine ⟨n, ws ++ [], ?_, fun success => ⟨long success, fun fits => ?_⟩⟩
        · simp only [code, seq, epfSeq, short, if_true]
          exact emits.bind (Emits.of_eq ((Emits.pure _).bind (.pure n)) rfl)
        · have := long success
          omega
      · refine ⟨n, ws ++ chunk (s.b + 18) (Word.bytes .big seq'), ?_,
          fun success => ⟨long success, fun _ m => ?_⟩⟩
        · simp only [code, seq]
          have set : Emits (epfSeq s.host (some s.b) s.size seq') 0
              (chunk (s.b + 18) (Word.bytes .big seq')) := epfSeq_emits (Nat.le_of_not_lt short)
          exact emits.bind (Emits.of_eq (set.bind (.pure n)) (List.append_nil _))
        · rw [Mem.patch_append]
          exact ((frames success).length m).patch fun w hw => .inl (wordChunk_bounds hw).2

theorem wire_announced {f : List UInt8} (sent : s.wire = some f) :
    f ≠ [] ∧ ∀ host tail, announcedLength host (f ++ tail) = some f.length := by
  rcases s.code_outcome with crash | ⟨n, ws, emits, outcome⟩
  · simp [wire, crash] at sent
  obtain ⟨t, hrun, ht⟩ := emits s.before
  simp only [wire, hrun] at sent
  split at sent
  · obtain ⟨success, small, fits⟩ := ‹0 ≤ n ∧ n ≤ 65535 ∧ n ≤ s.size.toNat›
    obtain ⟨long, holds⟩ := outcome success
    cases sent
    have length : ((s.before.patch t.stores).slice s.b n.toNat).length = n.toNat := by simp
    refine ⟨fun empty => ?_, fun host tail => ?_⟩
    · rw [empty, List.length_nil] at length
      omega
    · have received := (s.before.patch t.stores).received_slice s.b n.toNat tail
      have held := Mem.Holds.received (k := 22) (ht ▸ holds fits s.before) received (by
        simp only [Word.bytes_length, Word.width]
        omega)
      have field : Mem.be (Mem.ofBytes ((s.before.patch t.stores).slice s.b n.toNat ++ tail))
          (0 + 22) = UInt16.ofInt n := Mem.word_of_holds held
      have value : (UInt16.ofInt n).toNat = n.toNat := by
        rw [UInt16.ofInt, UInt16.toNat_ofNat']
        omega
      rw [announcedLength, if_neg (by rw [List.length_append, length]; omega),
        result_eppMsgLength _ (by decide), field, length, Option.map_some, value]
  · cases sent

end Sending

/-- Any sequence of sent messages is recovered from the stream they make up. -/
theorem splitStream_flatten (host : ByteOrder) (sendings : List Sending)
    (frames : List (List UInt8)) (sent : sendings.map Sending.wire = frames.map some) :
    splitStream host frames.flatten = some frames := by
  have each : ∀ f ∈ frames, ∃ s : Sending, s.wire = some f := by
    intro f hf
    have member : some f ∈ sendings.map Sending.wire := sent ▸ List.mem_map_of_mem hf
    obtain ⟨s, -, hs⟩ := List.mem_map.mp member
    exact ⟨s, hs⟩
  have nonempty : ∀ f ∈ frames, f ≠ [] := by
    intro f hf
    obtain ⟨s, hs⟩ := each f hf
    exact (s.wire_announced hs).1
  refine cutFrames_flatten frames nonempty (fun f hf tail => ?_)
    (length_le_flatten frames nonempty)
  obtain ⟨s, hs⟩ := each f hf
  exact (s.wire_announced hs).2 host tail

def twoSendings : List Sending :=
  [⟨.little, fun _ => 0xff, 8, 64, ⟨9, 2, 3⟩, .singleHelloReq 5, some 7⟩,
    ⟨.big, fun _ => 0, 0, 27, ⟨9, 2, 3⟩, .triggerCellMeasFail, none⟩]

def twoFrames : List (List UInt8) :=
  [[1, 1, 0, 0, 0, 0, 0, 0, 0, 9, 0, 2, 0, 0, 0, 3, 0, 0, 0, 0, 0, 7, 0, 31, 0, 1, 0, 0, 0, 0, 5],
    [3, 1, 0, 0, 0, 0, 0, 0, 0, 9, 0, 2, 0, 0, 0, 3, 0, 1, 0, 0, 0, 0, 0, 27, 0, 6, 2]]

theorem splitStream_flatten_two :
    twoSendings.map Sending.wire = twoFrames.map some ∧
      splitStream .little twoFrames.flatten = some twoFrames :=
  ⟨by decide, splitStream_flatten .little twoSendings twoFrames (by decide)⟩

end Emproto
