import Emproto.RanParse
import Emproto.RanSlice

/-! A slice message that was formatted and received is parsed back to the slice. -/

namespace Emproto
variable {m : Mem} {c : Nat}

theorem sliceStep_resToken {l2 : EpRanSliceL2d} (h : m.Holds c (resToken l2).bytes)
    (det : EpRanSliceDet) :
    sliceStep m c det = { det with l2 := { det.l2 with rbgs := l2.rbgs } } := by
  obtain ⟨type, -, body⟩ := Token.holds_bytes.mp h
  have rbgs : m.be (c + 4) = l2.rbgs := Mem.word_of_holds body
  rw [sliceStep, type, rbgs]
  rfl

theorem sliceStep_schedToken {usched : UInt32} (h : m.Holds c (schedToken usched).bytes)
    (det : EpRanSliceDet) :
    sliceStep m c det = { det with l2 := { det.l2 with usched := usched } } := by
  obtain ⟨type, -, body⟩ := Token.holds_bytes.mp h
  have value : m.be (c + 4) = usched := Mem.word_of_holds body
  rw [sliceStep, type, value]
  rfl

theorem sliceStep_usersToken {src : EpRanSliceDet} {hsrc : src.nofUsers.toNat ≤ 32}
    (h : m.Holds c (usersToken src hsrc).bytes) (det : EpRanSliceDet) :
    sliceStep m c det =
      { det with
        users := fun i => if i < src.nofUsers.toNat then src.users i else det.users i
        nofUsers := src.nofUsers } := by
  obtain ⟨type, length, body⟩ := Token.holds_bytes.mp h
  have count : rntiCount m c epRanUsersMax.toNat = src.nofUsers.toNat := by
    rw [rntiCount, length]
    simp only [usersToken, rntiBytes_length]
    have : epRanUsersMax.toNat = 32 := rfl
    omega
  have entries : copied m src.nofUsers.toNat 0 (c + 4) det.users =
      fun i => if i < src.nofUsers.toNat then src.users i else det.users i := by
    funext i
    by_cases inside : i < src.nofUsers.toNat
    · have entry : m.be (c + 4 + 2 * i) = src.users (0 + i) := be_of_rntiBytes body inside
      simp [copied, inside, entry]
    · simp [copied, inside]
  rw [sliceStep, type, count, entries, UInt32.ofNat_toNat]
  rfl

/-- What parsing the tokens of `src` makes of the record `det`. -/
def overlay (src det : EpRanSliceDet) : EpRanSliceDet where
  nofUsers := if 0 < src.nofUsers then src.nofUsers else det.nofUsers
  users i := if i < src.nofUsers.toNat then src.users i else det.users i
  l2 := ⟨if src.l2.usched = 0 then det.l2.usched else src.l2.usched, src.l2.rbgs⟩

theorem runSteps_sliceTokens {src : EpRanSliceDet} {hsrc : src.nofUsers.toNat ≤ 32}
    (h : m.Holds c (encode (sliceTokens src hsrc))) (det : EpRanSliceDet) :
    runSteps (sliceStep m) (starts c (sliceTokens src hsrc)) det = overlay src det := by
  obtain ⟨res, rest⟩ := Mem.holds_append.mp h
  rw [sliceTokens, starts, runSteps_cons, sliceStep_resToken res]
  have users {c : Nat} (h : m.Holds c (encode (usersTokens src hsrc))) (det : EpRanSliceDet) :
      runSteps (sliceStep m) (starts c (usersTokens src hsrc)) det =
        { det with
          nofUsers := if 0 < src.nofUsers then src.nofUsers else det.nofUsers
          users := fun i => if i < src.nofUsers.toNat then src.users i else det.users i } := by
    unfold usersTokens at h ⊢
    by_cases some : 0 < src.nofUsers
    · simp only [some, if_true, encode_cons, encode_nil, List.append_nil] at h ⊢
      rw [starts, starts, runSteps_cons, runSteps_nil, sliceStep_usersToken h]
    · have none : src.nofUsers.toNat = 0 := by
        simpa [UInt32.lt_iff_toNat_lt] using some
      simp [some, none, starts]
  by_cases bypass : src.l2.usched = 0
  · simp only [schedTokens, bypass, if_true, List.nil_append] at rest ⊢
    rw [users rest, overlay, if_pos bypass]
  · simp only [schedTokens, bypass, if_false, List.cons_append, List.nil_append] at rest ⊢
    obtain ⟨sched, rest⟩ := Mem.holds_append.mp rest
    rw [starts, runSteps_cons, sliceStep_schedToken sched, users rest, overlay, if_neg bypass]

theorem run_parseSlice_tokens {host : ByteOrder} {checked : Bool} {buf : Nat} {size : UInt32}
    {id : UInt64} {src : EpRanSliceDet} {hsrc : src.nofUsers.toNat ≤ 32}
    (h : m.Holds buf (Word.bytes .big id ++ encode (sliceTokens src hsrc)))
    (hsize : size.toNat = 8 + (encode (sliceTokens src hsrc)).length) (old : UInt64)
    (det : EpRanSliceDet) :
    ∃ es, (parseSlice host checked buf size (some old) (some det)).run m =
      some ((0, some id, some (overlay src det)), es) := by
  obtain ⟨head, tokens⟩ := Mem.holds_append.mp h
  replace tokens : m.Holds (buf + 8) (encode (sliceTokens src hsrc)) := by
    rwa [Word.bytes_length] at tokens
  have value : m.be buf = id := Mem.word_of_holds head
  have walked : (m.walker false (buf + size.toNat)).walk (buf + 8) =
      starts (buf + 8) (sliceTokens src hsrc) :=
    walk_encode_all tokens (by omega)
  rw [run_parseSlice m (by omega), walked, runSteps_sliceTokens tokens, Option.map_some, value]
  exact ⟨_, rfl⟩

def EpRanSliceDet.zero : EpRanSliceDet where
  nofUsers := 0
  users := fun _ => 0
  l2 := ⟨0, 0⟩

namespace SliceMsg

def checked : SliceMsg → Bool
  | add => true
  | _ => false

theorem parse_eq (k : SliceMsg) (host : ByteOrder) (b : Nat) (size : UInt32) (id : Option UInt64)
    (det : Option EpRanSliceDet) :
    k.parse host (some b) size id det =
      parseSlice host k.checked (b + 24 + 3) (size - UInt32.ofNat 27) id det := by
  cases k <;> rfl

/-- The `n` bytes at `b`, received anywhere, are parsed into the given slice by a
receiver that starts from a zeroed record. -/
def ParsesBack (k : SliceMsg) (host : ByteOrder) (sent : Mem) (b n : Nat) (sliceId : UInt64)
    (det : EpRanSliceDet) : Prop :=
  ∀ (m : Mem) (b' : Nat), sent.Received b m b' n → ∀ old : UInt64, ∃ det' es,
    (k.parse host (some b') (UInt32.ofNat n) (some old) (some .zero)).run m =
      some ((epSuccess, some sliceId, some det'), es) ∧
    det'.l2.rbgs = det.l2.rbgs ∧ det'.l2.usched = det.l2.usched ∧
    det'.nofUsers = det.nofUsers ∧ ∀ i < det.nofUsers.toNat, det'.users i = det.users i

/-- Formatting succeeds in a buffer that has room, and what was received is
parsed back. -/
theorem roundTrip (k : SliceMsg) (host host' : ByteOrder) (b : Nat) (size : UInt32)
    (ids : EpHdrId) (sliceId : UInt64) (det : EpRanSliceDet)
    (bounded : det.nofUsers ≤ epRanUsersMax) (room : sliceMessageLength det ≤ size.toNat)
    (m : Mem) :
    ∃ (n : Nat) (es : Trace),
      (k.format host (some b) size ids sliceId (some det)).run m = some ((n : Int), es) ∧
      k.ParsesBack host' (m.patch es.stores) b n sliceId det := by
  have h : det.nofUsers.toNat ≤ 32 := UInt32.le_iff_toNat_le.mp bounded
  have bounds := sliceMessageLength_bounds h
  have total := sliceMessageLength_eq h
  obtain ⟨ws, emits, holds, -⟩ := format_emits k host b ids sliceId h room
  obtain ⟨es, hrun, stores⟩ := emits m
  refine ⟨sliceMessageLength det, es, hrun, fun m' b' received old => ?_⟩
  have body : m'.Holds (b' + 27) (Word.bytes .big sliceId ++ encode (sliceTokens det h)) := by
    refine (stores ▸ holds m).received received ?_
    rw [List.length_append, Word.bytes_length, total]
    rfl
  have bodySize : (UInt32.ofNat (sliceMessageLength det) - UInt32.ofNat 27).toNat =
      8 + (encode (sliceTokens det h)).length := by
    have whole : (UInt32.ofNat (sliceMessageLength det)).toNat = sliceMessageLength det :=
      uint32_toNat_ofNat (by omega)
    rw [uint32_sub_toNat (by omega), whole]
    omega
  obtain ⟨es', parsed⟩ := run_parseSlice_tokens body bodySize old .zero
  rw [parse_eq]
  refine ⟨_, es', parsed, rfl, ?_, ?_, fun i hi => if_pos hi⟩
  · change (if det.l2.usched = 0 then 0 else det.l2.usched) = det.l2.usched
    split
    · exact (‹det.l2.usched = 0›).symm
    · rfl
  · change (if 0 < det.nofUsers then det.nofUsers else 0) = det.nofUsers
    split
    · rfl
    · exact (UInt32.le_zero_iff.mp (UInt32.not_lt.mp ‹_›)).symm

def pairSlice : EpRanSliceDet where
  nofUsers := 2
  users := fun i => if i = 0 then 61 else 70
  l2 := ⟨2, 5⟩

theorem roundTrip_pairSlice :
    ∃ (n : Nat) (es : Trace),
      (rep.format .little (some 0) 64 ⟨1, 2, 3⟩ 7 (some pairSlice)).run (fun _ => 0) =
        some ((n : Int), es) ∧
      rep.ParsesBack .big (Mem.patch (fun _ => 0) es.stores) 0 n 7 pairSlice :=
  roundTrip rep .little .big 0 64 ⟨1, 2, 3⟩ 7 pairSlice (by decide) (by decide) _

end SliceMsg

end Emproto
