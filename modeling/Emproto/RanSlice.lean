import Emproto.Ran

/-! What the slice formatters put on the wire: the slice id and the tokens of the
record. The token formatter succeeds exactly when its tokens fit; the formatters
above it add its result to their own without looking at the sign. -/

namespace Emproto

def resToken (l2 : EpRanSliceL2d) : Token where
  type := EpTLVType.ranSliceMacRes.code
  body := Word.bytes .big l2.rbgs
  short := by simp [Word.width]

def schedToken (usched : UInt32) : Token where
  type := EpTLVType.ranSliceMacSched.code
  body := Word.bytes .big usched
  short := by simp [Word.width]

def usersToken (det : EpRanSliceDet) (h : det.nofUsers.toNat ≤ 32) : Token where
  type := EpTLVType.rntiReport.code
  body := rntiBytes det.users det.nofUsers.toNat 0
  short := by rw [rntiBytes_length]; omega

def usersTokens (det : EpRanSliceDet) (h : det.nofUsers.toNat ≤ 32) : List Token :=
  if 0 < det.nofUsers then [usersToken det h] else []

def schedTokens (usched : UInt32) : List Token := if usched = 0 then [] else [schedToken usched]

def sliceTokens (det : EpRanSliceDet) (h : det.nofUsers.toNat ≤ 32) : List Token :=
  resToken det.l2 :: (schedTokens det.l2.usched ++ usersTokens det h)

def usersLength (det : EpRanSliceDet) : Nat :=
  if 0 < det.nofUsers then 4 + 2 * det.nofUsers.toNat else 0

def schedLength (usched : UInt32) : Nat := if usched ≠ 0 then 8 else 0

def sliceMessageLength (det : EpRanSliceDet) : Nat :=
  24 + 3 + 8 + 6 + schedLength det.l2.usched + usersLength det

section Lengths
variable {det : EpRanSliceDet} {h : det.nofUsers.toNat ≤ 32}

@[simp] theorem encode_usersTokens_length :
    (encode (usersTokens det h)).length = usersLength det := by
  unfold usersTokens usersLength
  split
  · simp [Token.bytes, usersToken]
  · rfl

@[simp] theorem encode_schedTokens_length (usched : UInt32) :
    (encode (schedTokens usched)).length = schedLength usched := by
  unfold schedTokens schedLength
  by_cases bypass : usched = 0
  · simp [bypass]
  · simp [bypass, Token.bytes, schedToken, Word.width]

theorem encode_sliceTokens_length :
    (encode (sliceTokens det h)).length = 6 + schedLength det.l2.usched + usersLength det := by
  simp [sliceTokens, encode_append, Token.bytes, resToken, Word.width]
  omega

theorem usersLength_le (h : det.nofUsers.toNat ≤ 32) : usersLength det ≤ 68 := by
  unfold usersLength
  split <;> omega

theorem schedLength_le (usched : UInt32) : schedLength usched ≤ 8 := by
  unfold schedLength
  split <;> omega

end Lengths

section Format
variable (host : ByteOrder) (buf : Nat) (size : UInt32) {det : EpRanSliceDet}
  (h : det.nofUsers.toNat ≤ 32)

theorem epfRanTLVUsr_emits (s : Nat) (hs : s ≤ 14) (fits : s + usersLength det ≤ size.toNat) :
    ∃ ws, Emits (epfRanTLVUsr host buf size det s (buf + s))
        ((s + usersLength det : Nat) : Int) ws ∧
      Lays ws (buf + s) (encode (usersTokens det h)) := by
  unfold epfRanTLVUsr usersTokens usersLength at *
  by_cases some : 0 < det.nofUsers
  · simp only [some, if_true] at fits ⊢
    have space : (size - UInt32.ofNat s).toNat = size.toNat - s := uint32_sub_toNat (by omega)
    have sum : buf + s + (4 + 2 * det.nofUsers.toNat) - buf = s + (4 + 2 * det.nofUsers.toNat) := by
      omega
    obtain ⟨ws, emits, lays⟩ := epfTLVRntiReport_emits (buf + s)
      (size - UInt32.ofNat s) det.nofUsers (by omega) (by omega)
    refine ⟨ws, ?_, ?_⟩
    · rw [uint32_ofInt_natCast]
      refine Emits.of_eq (emits.bind ?_) (List.append_nil ws)
      rw [if_neg (by omega), Int.toNat_natCast, sum, toInt32_of_lt (by omega) (by omega)]
      exact .pure _
    · simpa [encode, Token.bytes, usersToken, rntiReportBytes] using lays
  · simp only [some, if_false]
    refine ⟨[], ?_, Lays.chunk _ []⟩
    rw [Nat.add_sub_cancel_left, toInt32_of_lt (by omega) (by omega)]
    exact .pure _

theorem epfRanTLVUsr_short (det : EpRanSliceDet) (s : Nat) (hs : s ≤ size.toNat)
    (short : size.toNat < s + usersLength det) :
    ∃ ws, Emits (epfRanTLVUsr host buf size det s (buf + s)) (-1) ws := by
  unfold epfRanTLVUsr usersLength at *
  by_cases some : 0 < det.nofUsers
  · simp only [some, if_true] at short ⊢
    have space : (size - UInt32.ofNat s).toNat = size.toNat - s := uint32_sub_toNat hs
    obtain ⟨ws, emits⟩ := epfTLVRntiReport_short (buf + s)
      (size - UInt32.ofNat s) det.nofUsers (UInt32.lt_iff_toNat_lt.mp some) (by omega)
    rw [uint32_ofInt_natCast]
    exact ⟨_, emits.bind (by rw [if_pos (by decide)]; exact .pure _)⟩
  · simp only [some, if_false] at short
    omega

theorem epfRanTLV_emits (fits : (encode (sliceTokens det h)).length ≤ size.toNat) :
    ∃ ws, Emits (epfRanTLV host buf size det) ((encode (sliceTokens det h)).length : Int) ws ∧
      Lays ws buf (encode (sliceTokens det h)) := by
  rw [encode_sliceTokens_length] at fits ⊢
  have resSize : (resToken det.l2).bytes.length = 6 := by
    simp [Token.bytes, resToken, Word.width]
  rw [epfRanTLV, if_neg (by omega)]
  by_cases bypass : det.l2.usched = 0
  · have none : schedTokens det.l2.usched = [] := by rw [schedTokens, if_pos bypass]
    have zero : schedLength det.l2.usched = 0 := by simp [schedLength, bypass]
    obtain ⟨ws, emits, lays⟩ := epfRanTLVUsr_emits host buf size h 6 (by omega) (by omega)
    rw [if_pos bypass, zero, sliceTokens, none]
    exact ⟨_, .wordToken rfl emits,
      (Lays.chunk buf (resToken det.l2).bytes).append (by rwa [resSize])⟩
  · have one : schedTokens det.l2.usched = [schedToken det.l2.usched] := by
      rw [schedTokens, if_neg bypass]
    have eight : schedLength det.l2.usched = 8 := by simp [schedLength, bypass]
    have schedSize : (schedToken det.l2.usched).bytes.length = 8 := by
      simp [Token.bytes, schedToken, Word.width]
    obtain ⟨ws, emits, lays⟩ := epfRanTLVUsr_emits host buf size h 14 (by omega) (by omega)
    rw [if_neg bypass, if_neg (by omega), eight, sliceTokens, one]
    refine ⟨_, .wordToken rfl (.wordToken rfl emits),
      (Lays.chunk buf (resToken det.l2).bytes).append
        ((Lays.chunk _ (schedToken det.l2.usched).bytes).append ?_)⟩
    rwa [schedSize, Nat.add_assoc]

theorem epfRanTLV_short (short : size.toNat < (encode (sliceTokens det h)).length) :
    ∃ ws, Emits (epfRanTLV host buf size det) (-1) ws := by
  rw [encode_sliceTokens_length] at short
  rw [epfRanTLV]
  by_cases res : buf + 6 > buf + size.toNat
  · rw [if_pos res]
    exact ⟨_, .pure _⟩
  rw [if_neg res]
  by_cases bypass : det.l2.usched = 0
  · have zero : schedLength det.l2.usched = 0 := by simp [schedLength, bypass]
    obtain ⟨ws, emits⟩ := epfRanTLVUsr_short host buf size det 6 (by omega) (by omega)
    rw [if_pos bypass]
    exact ⟨_, .wordToken rfl emits⟩
  rw [if_neg bypass]
  by_cases sched : buf + 6 + 8 > buf + size.toNat
  · rw [if_pos sched]
    exact ⟨_, .wordToken rfl (.pure _)⟩
  · have eight : schedLength det.l2.usched = 8 := by simp [schedLength, bypass]
    obtain ⟨ws, emits⟩ := epfRanTLVUsr_short host buf size det 14 (by omega) (by omega)
    rw [if_neg sched]
    exact ⟨_, .wordToken rfl (.wordToken rfl emits)⟩

end Format

/-- The messages that carry a slice with its details. -/
inductive SliceMsg
  | rep
  | add
  | set
deriving DecidableEq, Repr

namespace SliceMsg

def format (k : SliceMsg) (host : ByteOrder) (buf : Option Nat) (size : UInt32) (ids : EpHdrId)
    (sliceId : UInt64) (det : Option EpRanSliceDet) : Code Int :=
  match k with
  | rep => epfSingleRanSliceRep host buf size ids sliceId det
  | add => epfSingleRanSliceAdd host buf size ids sliceId det
  | set => epfSingleRanSliceSet host buf size ids sliceId det

def parse (k : SliceMsg) (host : ByteOrder) (buf : Option Nat) (size : UInt32)
    (sliceId : Option UInt64) (det : Option EpRanSliceDet) :
    Code (Int × Option UInt64 × Option EpRanSliceDet) :=
  match k with
  | rep => eppSingleRanSliceRep host buf size sliceId det
  | add => eppSingleRanSliceAdd host buf size sliceId det
  | set => eppSingleRanSliceSet host buf size sliceId det

def dir : SliceMsg → EpHdrFlagDir
  | rep => .rep
  | add => .req
  | set => .req

def op : SliceMsg → EpOpType
  | rep => .unspecified
  | add => .add
  | set => .set

def body (k : SliceMsg) (host : ByteOrder) (id : UInt64) (det : Option EpRanSliceDet) :
    Nat → UInt32 → Code Int :=
  match k with
  | rep => epfRanSup host id det
  | add => epfRanSaq host id det
  | set => epfRanSsq host id det

theorem format_eq (k : SliceMsg) (host : ByteOrder) (b : Nat) (size : UInt32) (ids : EpHdrId)
    (sliceId : UInt64) (det : EpRanSliceDet) :
    k.format host (some b) size ids sliceId (some det) =
      formatMessage host (some b) size .single ids k.dir
        (eventHeader host EpActType.ranSlice.code k.op.code) (k.body host sliceId (some det)) := by
  cases k <;> rfl

section Body
variable (k : SliceMsg) (host : ByteOrder) (id : UInt64) (buf : Nat) (size : UInt32)
  {det : EpRanSliceDet}

private theorem body_of_TLV {s : Int} {ws : List (Nat × UInt8)} (guard : k = rep ∨ 8 ≤ size.toNat)
    (hTLV : Emits (epfRanTLV host (buf + 8) (size - UInt32.ofNat 8) det) s ws) :
    Emits (k.body host id (some det) buf size) (toInt32 (8 + s))
      (chunk buf (Word.bytes .big id) ++ ws) := by
  have text : Emits (do
      Code.store host buf (htobe64 host id)
      let s ← epfRanTLV host (buf + 8) (size - UInt32.ofNat 8) det
      pure (toInt32 (8 + s))) (toInt32 (8 + s)) (chunk buf (Word.bytes .big id) ++ ws) :=
    Emits.of_eq (Emits.store.bind (hTLV.bind (.pure _))) (by simp)
  rcases guard with rfl | guard
  · exact text
  · have open' : ¬ size.toNat < 8 := by omega
    cases k with
    | rep => exact text
    | add =>
      simp only [body, epfRanSaq, formatSlice, open', if_false]
      exact text
    | set =>
      simp only [body, epfRanSsq, formatSlice, open', if_false]
      exact text

theorem body_emits (h : det.nofUsers.toNat ≤ 32) (guard : k = rep ∨ 8 ≤ size.toNat)
    (fits : (encode (sliceTokens det h)).length ≤ (size - UInt32.ofNat 8).toNat) :
    ∃ ws, Emits (k.body host id (some det) buf size)
        ((8 + (encode (sliceTokens det h)).length : Nat) : Int) ws ∧
      Lays ws buf (Word.bytes .big id ++ encode (sliceTokens det h)) := by
  obtain ⟨ws, emits, lays⟩ := epfRanTLV_emits host (buf + 8) (size - UInt32.ofNat 8) h fits
  have small : (encode (sliceTokens det h)).length ≤ 82 := by
    have := usersLength_le h
    have := schedLength_le det.l2.usched
    rw [encode_sliceTokens_length]
    omega
  refine ⟨_, ?_, (Lays.chunk buf (Word.bytes .big id)).append (by rwa [Word.bytes_length])⟩
  have sum : toInt32 (8 + ((encode (sliceTokens det h)).length : Int)) =
      ((8 + (encode (sliceTokens det h)).length : Nat) : Int) := by
    rw [toInt32_of_lt (by omega) (by omega)]
    omega
  rw [← sum]
  exact body_of_TLV k host id buf size guard emits

/-- A token that does not fit goes unnoticed: eight bytes less one are reported. -/
theorem body_overrun (h : det.nofUsers.toNat ≤ 32) (guard : 8 ≤ size.toNat)
    (short : (size - UInt32.ofNat 8).toNat < (encode (sliceTokens det h)).length) :
    ∃ ws, Emits (k.body host id (some det) buf size) 7 ws := by
  obtain ⟨ws, emits⟩ := epfRanTLV_short host (buf + 8) (size - UInt32.ofNat 8) h short
  exact ⟨_, body_of_TLV k host id buf size (.inr guard) emits⟩

theorem body_refused (h : size.toNat < 8) (hk : k ≠ rep) :
    Emits (k.body host id (some det) buf size) (-1) [] := by
  cases k with
  | rep => exact absurd rfl hk
  | add =>
    simp only [body, epfRanSaq, formatSlice, h, if_true]
    exact .pure _
  | set =>
    simp only [body, epfRanSsq, formatSlice, h, if_true]
    exact .pure _

end Body

section Fit
variable (k : SliceMsg) (host : ByteOrder) (b : Nat) (ids : EpHdrId) (id : UInt64)
  {size : UInt32} {det : EpRanSliceDet}

theorem sliceMessageLength_eq (h : det.nofUsers.toNat ≤ 32) :
    sliceMessageLength det = 27 + (8 + (encode (sliceTokens det h)).length) := by
  rw [encode_sliceTokens_length, sliceMessageLength]
  omega

theorem sliceMessageLength_bounds (h : det.nofUsers.toNat ≤ 32) :
    41 ≤ sliceMessageLength det ∧ sliceMessageLength det ≤ 117 := by
  have := usersLength_le h
  have := schedLength_le det.l2.usched
  unfold sliceMessageLength
  omega

theorem format_emits (h : det.nofUsers.toNat ≤ 32) (fits : sliceMessageLength det ≤ size.toNat) :
    ∃ ws, Emits (k.format host (some b) size ids id (some det)) (sliceMessageLength det) ws ∧
      (∀ m : Mem, (m.patch ws).Holds (b + 27) (Word.bytes .big id ++ encode (sliceTokens det h))) ∧
      ∀ w ∈ ws, b ≤ w.1 ∧ w.1 < b + sliceMessageLength det := by
  have bounds := sliceMessageLength_bounds h
  rw [sliceMessageLength_eq h] at fits bounds ⊢
  have space : (size - UInt32.ofNat 27).toNat = size.toNat - 27 := uint32_sub_toNat (by omega)
  have space' : (size - UInt32.ofNat 27 - UInt32.ofNat 8).toNat = size.toNat - 27 - 8 := by
    rw [uint32_sub_toNat (by omega), space]
  obtain ⟨ws, emits, lays⟩ := body_emits k host id (b + 27) (size - UInt32.ofNat 27) h
    (.inr (by omega)) (by omega)
  rw [format_eq]
  exact formatMessage_body (by omega) emits lays (by simp [Word.width]) (by omega)

theorem format_headers_fail (headers : size.toNat < 27) :
    ∃ ws, Emits (k.format host (some b) size ids id (some det)) (-1) ws ∧
      ∀ w ∈ ws, b ≤ w.1 ∧ w.1 < b + size.toNat := by
  rw [format_eq]
  exact formatMessage_headers_fail headers

theorem format_id_refused (hk : k ≠ rep) (headers : 27 ≤ size.toNat) (short : size.toNat < 35) :
    ∃ ws, Emits (k.format host (some b) size ids id (some det)) (-1) ws ∧
      ∀ w ∈ ws, b ≤ w.1 ∧ w.1 < b + size.toNat := by
  have space : (size - UInt32.ofNat 27).toNat = size.toNat - 27 := uint32_sub_toNat headers
  rw [format_eq]
  exact formatMessage_body_refused headers
    (body_refused k host id (b + 27) (size - UInt32.ofNat 27) (by omega) hk) (by decide)

theorem format_overrun (h : det.nofUsers.toNat ≤ 32) (guard : 35 ≤ size.toNat)
    (short : size.toNat < sliceMessageLength det) :
    ∃ ws, Emits (k.format host (some b) size ids id (some det)) 34 ws := by
  rw [sliceMessageLength_eq h] at short
  have space : (size - UInt32.ofNat 27).toNat = size.toNat - 27 := uint32_sub_toNat (by omega)
  have space' : (size - UInt32.ofNat 27 - UInt32.ofNat 8).toNat = size.toNat - 27 - 8 := by
    rw [uint32_sub_toNat (by omega), space]
  obtain ⟨ws, emits⟩ := body_overrun k host id (b + 27) (size - UInt32.ofNat 27) h
    (by omega) (by omega)
  rw [format_eq]
  exact formatMessage_returns 7 (by omega) emits (by decide)

/-- The reply formatter has no check of its own between the headers and the id:
the remaining space wraps and everything seems to fit. -/
theorem format_rep_wraps (h : det.nofUsers.toNat ≤ 32) (guard : 27 ≤ size.toNat)
    (short : size.toNat < 35) :
    ∃ ws, Emits (rep.format host (some b) size ids id (some det)) (sliceMessageLength det) ws := by
  have bounds := sliceMessageLength_bounds h
  rw [sliceMessageLength_eq h] at bounds ⊢
  have space : (size - UInt32.ofNat 27).toNat = size.toNat - 27 := uint32_sub_toNat guard
  have space' :
      (size - UInt32.ofNat 27 - UInt32.ofNat 8).toNat = 2 ^ 32 + (size.toNat - 27) - 8 := by
    rw [uint32_sub_toNat_wrap (by omega) (by decide), space]
  obtain ⟨ws, emits, -⟩ := body_emits rep host id (b + 27) (size - UInt32.ofNat 27) h
    (.inl rfl) (by omega)
  rw [format_eq]
  exact formatMessage_returns _ guard emits (by omega)

end Fit

end SliceMsg

/-- A formatter's run into the `size` bytes at `b`, for a message of `length`
bytes: it returns `length` exactly if there is room, else a negative value, and
writes in its buffer only. -/
def ExactFit (run : Option (Int × Trace)) (b size length : Nat) : Prop :=
  ∃ ret es, run = some (ret, es) ∧ (ret = length ↔ length ≤ size) ∧ (ret = length ∨ ret < 0) ∧
    es.WritesIn b (b + size)

theorem Emits.exactFit {c : Code Int} {ret : Int} {ws : List (Nat × UInt8)} {b size length : Nat}
    {m : Mem} (h : Emits c ret ws) (exact : ret = length ↔ length ≤ size)
    (sign : ret = length ∨ ret < 0) (within : ∀ w ∈ ws, b ≤ w.1 ∧ w.1 < b + size) :
    ExactFit (c.run m) b size length := by
  obtain ⟨es, hrun, stores⟩ := h m
  exact ⟨ret, es, hrun, exact, sign, by rwa [Trace.WritesIn, stores]⟩

theorem Emits.of_exactFit {c : Code Int} {ret : Int} {ws : List (Nat × UInt8)}
    {b size length : Nat} {m : Mem} (h : Emits c ret ws) (fit : ExactFit (c.run m) b size length) :
    (ret = length ↔ length ≤ size) ∧ (ret = length ∨ ret < 0) := by
  obtain ⟨es, hrun, -⟩ := h m
  have exact := (Code.exists_run_iff hrun _).mp fit
  exact ⟨exact.1, exact.2.1⟩

/-- The slice formatters are exact where a header check stops them or the whole
message fits: the reply up to 26 bytes, add and set up to 34. -/
theorem SliceMsg.format_exactFit_iff (k : SliceMsg) (host : ByteOrder) (b : Nat) (size : UInt32)
    (ids : EpHdrId) (sliceId : UInt64) (det : EpRanSliceDet)
    (bounded : det.nofUsers ≤ epRanUsersMax) (m : Mem) :
    ExactFit ((k.format host (some b) size ids sliceId (some det)).run m) b size.toNat
        (sliceMessageLength det) ↔
      size.toNat < 27 ∨ (k ≠ rep ∧ size.toNat < 35) ∨ sliceMessageLength det ≤ size.toNat := by
  have h : det.nofUsers.toNat ≤ 32 := UInt32.le_iff_toNat_le.mp bounded
  have bounds := sliceMessageLength_bounds h
  by_cases room : sliceMessageLength det ≤ size.toNat
  · obtain ⟨ws, emits, -, within⟩ := format_emits k host b ids sliceId h room
    refine iff_of_true (emits.exactFit (by simp [room]) (.inl rfl) fun w hw => ?_)
      (.inr (.inr room))
    have := within w hw
    omega
  by_cases headers : size.toNat < 27
  · obtain ⟨ws, emits, within⟩ := format_headers_fail k host b ids sliceId headers
    exact iff_of_true (emits.exactFit (by omega) (.inr (by decide)) within) (.inl headers)
  by_cases early : size.toNat < 35
  · by_cases hk : k = rep
    · subst hk
      obtain ⟨ws, emits⟩ := format_rep_wraps host b ids sliceId h (by omega) early
      refine iff_of_false (fun fit => room ((emits.of_exactFit fit).1.mp rfl)) ?_
      simp [headers, room]
    · obtain ⟨ws, emits, within⟩ := format_id_refused k host b ids sliceId hk (by omega) early
      exact iff_of_true (emits.exactFit (by omega) (.inr (by decide)) within)
        (.inr (.inl ⟨hk, early⟩))
  · obtain ⟨ws, emits⟩ := format_overrun k host b ids sliceId h (Nat.le_of_not_lt early)
      (Nat.lt_of_not_le room)
    refine iff_of_false (fun fit => ?_) (by simp [headers, early, room])
    have := (emits.of_exactFit fit).2
    omega

def bareSlice : EpRanSliceDet where
  nofUsers := 0
  users := fun _ => 0
  l2 := ⟨0, 5⟩

theorem SliceMsg.format_exactFit_iff_bareSlice :
    bareSlice.nofUsers ≤ epRanUsersMax ∧
      (ExactFit ((add.format .little (some 0) 41 ⟨1, 2, 3⟩ 7 (some bareSlice)).run fun _ => 0) 0 41
          (sliceMessageLength bareSlice) ↔
        (41 : UInt32).toNat < 27 ∨ (add ≠ rep ∧ (41 : UInt32).toNat < 35) ∨
          sliceMessageLength bareSlice ≤ (41 : UInt32).toNat) :=
  ⟨by decide, format_exactFit_iff add .little 0 41 ⟨1, 2, 3⟩ 7 bareSlice (by decide) _⟩

/-- In 35 bytes there is no room for the resource token, and 34 is returned. -/
theorem SliceMsg.bareSlice_not_exactFit :
    ¬ ExactFit ((add.format .little (some 0) 35 ⟨1, 2, 3⟩ 7 (some bareSlice)).run fun _ => 0) 0 35
      (sliceMessageLength bareSlice) := by
  obtain ⟨ws, emits⟩ : ∃ ws, Emits (add.format .little (some 0) 35 ⟨1, 2, 3⟩ 7 (some bareSlice))
      34 ws := format_overrun _ _ _ _ _ (by decide) (by decide) (by decide)
  intro fit
  exact absurd (emits.of_exactFit fit).2 (by decide)

end Emproto
