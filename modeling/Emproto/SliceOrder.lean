import Emproto.Leftovers
import Emproto.Transparency
import Emproto.RanSlice

/-! What the slice parsers make of a body: of each type of token the last one counts. Tokens
of different types may change places, as long as the last ones hold all that is read of them. -/

namespace Emproto

section LastPicked
variable {α : Type} {p : α → Prop} [DecidablePred p]

def lastPicked (p : α → Prop) [DecidablePred p] (xs : List α) : Option α := (xs.filter p).getLast?

@[simp] theorem lastPicked_nil : lastPicked p [] = none := rfl

theorem lastPicked_concat (xs : List α) (x : α) :
    lastPicked p (xs ++ [x]) = if p x then some x else lastPicked p xs := by
  by_cases picked : p x <;> simp [lastPicked, List.filter_append, picked]

theorem lastPicked_split {xs : List α} {x : α} (h : lastPicked p xs = some x) :
    p x ∧ ∃ before after, xs = before ++ x :: after ∧ ∀ y ∈ after, ¬ p y := by
  induction xs using List.reverseRecOn with
  | nil => cases h
  | append_singleton xs y ih =>
    rw [lastPicked_concat] at h
    split_ifs at h with picked
    · obtain rfl := Option.some.inj h
      exact ⟨picked, xs, [], rfl, List.forall_mem_nil _⟩
    · obtain ⟨hx, before, after, rfl, none⟩ := ih h
      refine ⟨hx, before, after ++ [y], by rw [List.append_assoc, List.cons_append], ?_⟩
      exact List.forall_mem_append.mpr ⟨none, List.forall_mem_singleton.mpr picked⟩

theorem lastPicked_eq_none_iff {xs : List α} : lastPicked p xs = none ↔ ∀ x ∈ xs, ¬ p x := by
  simp [lastPicked]

end LastPicked

section Runs
variable {σ β : Type} {step : Nat → σ → σ} {picks : Nat → Prop} [DecidablePred picks]
  {field : σ → β}

/-- A field holds what the last token that assigns it says, or what it held before. -/
theorem Assigns.last (h : Assigns step picks field) {value : Nat → β}
    (sets : ∀ c, picks c → ∀ s, field (step c s) = value c) (os : List Nat) (s : σ) :
    field (runSteps step os s) = ((lastPicked picks os).map value).getD (field s) := by
  induction os using List.reverseRecOn with
  | nil => rfl
  | append_singleton os c ih =>
    rw [runSteps_concat, lastPicked_concat]
    by_cases picked : picks c
    · rw [if_pos picked, sets c picked]
      rfl
    · rw [if_neg picked, h.keep c picked, ih]

end Runs

section Readings
variable (m : Mem)

theorem rntisAt_bounded (c : Nat) : (rntisAt m c).1 ≤ epRanUsersMax := by
  have small : min epRanUsersMax.toNat ((m.be (c + 2) : UInt16).toNat / 2) ≤ epRanUsersMax.toNat :=
    Nat.min_le_left _ _
  rw [rntisAt, UInt32.le_iff_toNat_le, uint32_toNat_ofNat (lt_of_le_of_lt small (by decide))]
  exact small

/-- Every field of `out` is that of the last token of its type among those at `os`, and that of
`old` without such a token. -/
structure LastReadings (os : List Nat) (old out : EpRanSliceDet) : Prop where
  rbgs : out.l2.rbgs =
    ((lastPicked (IsType m .ranSliceMacRes) os).map fun c => m.be (c + 4)).getD old.l2.rbgs
  usched : out.l2.usched =
    ((lastPicked (IsType m .ranSliceMacSched) os).map fun c => m.be (c + 4)).getD old.l2.usched
  users : out.usersView =
    ((lastPicked (IsType m .rntiReport) os).map (rntisAt m)).getD old.usersView
  bounded : ∀ c ∈ os, IsType m .rntiReport c → out.nofUsers ≤ epRanUsersMax

theorem lastReadings_runSteps (os : List Nat) (old : EpRanSliceDet) :
    LastReadings m os old (runSteps (sliceStep m) os old) := by
  have users := (sliceStep_users m).last (fun _ => sliceStep_users_eq m) os old
  refine ⟨(sliceStep_rbgs m).last (fun _ => sliceStep_rbgs_eq m) os old,
    (sliceStep_usched m).last (fun _ => sliceStep_usched_eq m) os old, users, ?_⟩
  intro c hc picked
  cases last : lastPicked (IsType m .rntiReport) os with
  | none => exact absurd picked (lastPicked_eq_none_iff.mp last c hc)
  | some o =>
    rw [last] at users
    have count := congrArg Prod.fst users
    exact le_of_eq_of_le count (rntisAt_bounded m o)

end Readings

/-! The tokens of a body. -/

section Tokens
variable {m : Mem} {b c : Nat} {size : UInt32} {ts us : List Token} {type : EpTLVType}

def Mem.tokenAt (m : Mem) (c : Nat) : Token where
  type := m.be c
  body := m.slice (c + 4) (m.be (c + 2) : UInt16).toNat
  short := by
    rw [Mem.slice_length]
    exact UInt16.toNat_lt _

theorem Mem.holds_tokenAt (m : Mem) (c : Nat) : m.Holds c (m.tokenAt c).bytes := by
  have length : (m.tokenAt c).body.length = (m.be (c + 2) : UInt16).toNat := m.slice_length _ _
  exact Token.holds_bytes.mpr ⟨rfl, length.symm, congrArg _ length⟩

theorem chain_tokens {strict : Bool} {fin : Nat} {os : List Nat}
    (chain : (m.walker strict fin).Chain c os) :
    m.Holds c (encode (os.map m.tokenAt)) ∧ starts c (os.map m.tokenAt) = os := by
  induction os generalizing c with
  | nil => exact ⟨rfl, rfl⟩
  | cons o os ih =>
    obtain ⟨rfl, -, rest⟩ := chain
    have first := m.holds_tokenAt o
    have next : (m.walker strict fin).next o = o + (m.tokenAt o).bytes.length :=
      nextToken_of_holds first
    obtain ⟨held, same⟩ := ih rest
    rw [next] at held same
    exact ⟨Mem.holds_append.mpr ⟨first, held⟩, by rw [List.map_cons, starts, same]⟩

/-- The parser of the slice in the `size` bytes at `b` takes the tokens `ts`, and behind them
finds nothing or what it refuses. -/
structure TakesTokens (m : Mem) (b : Nat) (size : UInt32) (ts : List Token) : Prop where
  open' : 8 ≤ size.toNat
  held : m.Holds (b + 8) (encode ts)
  walked : (m.walker false (b + size.toNat)).walk (b + 8) = starts (b + 8) ts

theorem exists_takesTokens (h : 8 ≤ size.toNat) : ∃ ts, TakesTokens m b size ts := by
  obtain ⟨held, same⟩ := chain_tokens ((m.walker false (b + size.toNat)).chain_walk (b + 8))
  exact ⟨_, h, held, same.symm⟩

theorem lastPicked_starts (type : EpTLVType) (h : m.Holds c (encode ts)) :
    Option.Rel (fun o t => m.Holds o t.bytes) (lastPicked (IsType m type) (starts c ts))
      (lastPicked (fun t => t.type = type.code) ts) := by
  induction ts using List.reverseRecOn with
  | nil => exact .none
  | append_singleton ts t ih =>
    obtain ⟨front, last⟩ := holds_encode_concat.mp h
    have same : IsType m type (c + (encode ts).length) ↔ t.type = type.code := by
      rw [IsType, Token.type_of_holds last]
    rw [starts_concat, lastPicked_concat, lastPicked_concat]
    by_cases picked : t.type = type.code
    · rw [if_pos picked, if_pos (same.mpr picked)]
      exact .some last
    · rw [if_neg picked, if_neg (mt same.mp picked)]
      exact ih front

/-- The tokens of each type stand in the same order. -/
def Reordered (ts us : List Token) : Prop :=
  ∀ type, ts.filter (fun t => t.type = type) = us.filter fun t => t.type = type

theorem Reordered.lastPicked (h : Reordered ts us) (type : UInt16) :
    lastPicked (fun t => t.type = type) ts = lastPicked (fun t => t.type = type) us :=
  congrArg List.getLast? (h type)

theorem Reordered.to_end {before after : List Token} {t : Token}
    (other : ∀ u ∈ after, u.type ≠ t.type) :
    Reordered (before ++ t :: after) (before ++ after ++ [t]) := by
  intro type
  rw [List.append_assoc, List.filter_append, List.filter_append, List.filter_append,
    List.filter_cons]
  congr 1
  by_cases mine : t.type = type
  · have none : after.filter (fun u => u.type = type) = [] :=
      List.filter_eq_nil_iff.mpr fun u hu => by simpa [← mine] using other u hu
    simp [mine, none]
  · simp [mine]

end Tokens

/-! The parsers. -/

def sliceParsers (host : ByteOrder) : List (Nat → UInt32 → Option UInt64 → Option EpRanSliceDet →
    Code (Int × Option UInt64 × Option EpRanSliceDet)) :=
  [eppRanSup host, eppRanSaq host, eppRanSsq host]

def sliceSeen (out : Int × Option UInt64 × Option EpRanSliceDet) :
    Int × Option UInt64 × Option (UInt16 × UInt32 × UInt32 × List UInt16) :=
  (out.1, out.2.1, out.2.2.map EpRanSliceDet.view)

/-- On the body of `size` bytes at `b` the parsers return the same: a short one is refused and
nothing assigned, any other gives the id and the last readings. -/
def ParsedAlike (host : ByteOrder) (m : Mem) (b : Nat) (size : UInt32) (id : Option UInt64)
    (det : EpRanSliceDet) : Prop :=
  ∃ out, (∀ parse ∈ sliceParsers host, (parse b size id (some det)).result m = some out) ∧
    (out.1 = epSuccess ↔ 8 ≤ size.toNat) ∧
    if 8 ≤ size.toNat then
      out.2.1 = id.map (fun _ => m.be b) ∧
        ∃ det', out.2.2 = some det' ∧
          LastReadings m ((m.walker false (b + size.toNat)).walk (b + 8)) det det'
    else out = (epError, id, some det)

/-- The tokens tell every slice parser the same when those of different types change places,
wherever the two bodies lie and whatever stands behind their tokens. -/
def OrderFree (host : ByteOrder) (ts : List Token) : Prop :=
  ∀ us, Reordered ts us → ∀ (m m' : Mem) (b b' : Nat) (size size' : UInt32),
    TakesTokens m b size ts → TakesTokens m' b' size' us → (m.be b : UInt64) = m'.be b' →
    ∀ parse ∈ sliceParsers host, ∀ (id : Option UInt64) (old : EpRanSliceDet),
      ((parse b size id (some old)).result m).map sliceSeen =
        ((parse b' size' id (some old)).result m').map sliceSeen

/-- The last resource token and the last scheduler token hold all that is read of them. -/
structure LastsFull (ts : List Token) : Prop where
  res : ∀ t ∈ lastPicked (fun t => t.type = EpTLVType.ranSliceMacRes.code) ts, 2 ≤ t.body.length
  sched : ∀ t ∈ lastPicked (fun t => t.type = EpTLVType.ranSliceMacSched.code) ts,
    4 ≤ t.body.length

section Parsers
variable {host : ByteOrder} {m m' : Mem} {b b' : Nat} {size size' : UInt32} {ts us : List Token}

theorem forall_sliceParsers {P : (Nat → UInt32 → Option UInt64 → Option EpRanSliceDet →
      Code (Int × Option UInt64 × Option EpRanSliceDet)) → Prop}
    (each : ∀ checked, P (parseSlice host checked)) : ∀ parse ∈ sliceParsers host, P parse := by
  intro parse mem
  simp only [sliceParsers, List.mem_cons, List.not_mem_nil, or_false] at mem
  rcases mem with rfl | rfl | rfl
  · exact each false
  · exact each true
  · exact each false

theorem result_sliceParsers (h : 8 ≤ size.toNat) (id : Option UInt64) (det : EpRanSliceDet) :
    ∀ parse ∈ sliceParsers host, (parse b size id (some det)).result m =
      some (0, id.map fun _ => m.be b, some (runSteps (sliceStep m)
        ((m.walker false (b + size.toNat)).walk (b + 8)) det)) :=
  forall_sliceParsers fun _ => Code.result_of m (run_parseSlice m h id det)

theorem result_sliceParsers_short (h : size.toNat < 8) (id : Option UInt64)
    (det : Option EpRanSliceDet) :
    ∀ parse ∈ sliceParsers host, (parse b size id det).result m = some (-1, id, det) :=
  forall_sliceParsers fun _ => Code.result_of m (run_parseSlice_short m h id det)

theorem parsedAlike (id : Option UInt64) (det : EpRanSliceDet) :
    ParsedAlike host m b size id det := by
  by_cases h : 8 ≤ size.toNat
  · refine ⟨_, result_sliceParsers h id det, iff_of_true rfl h, ?_⟩
    rw [if_pos h]
    exact ⟨rfl, _, rfl, lastReadings_runSteps m _ det⟩
  · refine ⟨_, result_sliceParsers_short (Nat.lt_of_not_le h) id (some det),
      iff_of_false (show (-1 : Int) ≠ 0 by decide) h, ?_⟩
    rw [if_neg h]

theorem lastReading_same {β : Type} (value : Mem → Nat → β) (type : EpTLVType)
    (reads : ∀ t ∈ lastPicked (fun t : Token => t.type = type.code) ts, ∀ (m m' : Mem) (c c' : Nat),
      m.Holds c t.bytes → m'.Holds c' t.bytes → value m c = value m' c')
    (same : Reordered ts us) (h : TakesTokens m b size ts) (h' : TakesTokens m' b' size' us) :
    (lastPicked (IsType m type) (starts (b + 8) ts)).map (value m) =
      (lastPicked (IsType m' type) (starts (b' + 8) us)).map (value m') := by
  have found := lastPicked_starts type h.held
  have found' := lastPicked_starts type h'.held
  rw [← same.lastPicked] at found'
  generalize lastPicked (fun t : Token => t.type = type.code) ts = last at reads found found'
  generalize lastPicked (IsType m type) (starts (b + 8) ts) = here at found ⊢
  generalize lastPicked (IsType m' type) (starts (b' + 8) us) = there at found' ⊢
  cases found with
  | none =>
    cases found'
    rfl
  | some held =>
    cases found' with
    | some held' => exact congrArg some (reads _ rfl m m' _ _ held held')

theorem rntisAt_same {t : Token} {c c' : Nat} (h : m.Holds c t.bytes) (h' : m'.Holds c' t.bytes) :
    rntisAt m c = rntisAt m' c' := by
  rw [rntisAt, rntisAt, (Token.holds_bytes.mp h).2.1, (Token.holds_bytes.mp h').2.1]
  refine Prod.ext rfl (List.map_congr_left fun j hj => ?_)
  have half : j < t.body.length / 2 := (List.mem_range.mp hj).trans_le (Nat.min_le_right _ _)
  rw [Nat.add_assoc, Nat.add_assoc]
  exact Token.word_same h h' (by simp only [Word.width]; omega)

theorem LastsFull.orderFree (full : LastsFull ts) : OrderFree host ts := by
  intro us same m m' b b' size size' h h' ids parse mem id old
  rw [result_sliceParsers h.open' id old parse mem, result_sliceParsers h'.open' id old parse mem,
    h.walked, h'.walked, ids]
  have reads := lastReadings_runSteps m (starts (b + 8) ts) old
  have reads' := lastReadings_runSteps m' (starts (b' + 8) us) old
  have rbgs := lastReading_same (fun m c => (m.be (c + 4) : UInt16)) .ranSliceMacRes
    (fun t ht _ _ _ _ held held' => Token.word_same held held'
      (Nat.add_le_add_left (full.res t ht) 4)) same h h'
  have usched := lastReading_same (fun m c => (m.be (c + 4) : UInt32)) .ranSliceMacSched
    (fun t ht _ _ _ _ held held' => Token.word_same held held'
      (Nat.add_le_add_left (full.sched t ht) 4)) same h h'
  have users := lastReading_same rntisAt .rntiReport
    (fun _ _ _ _ _ _ => rntisAt_same) same h h'
  rw [Option.map_some, Option.map_some, sliceSeen, sliceSeen, Option.map_some, Option.map_some,
    EpRanSliceDet.view, EpRanSliceDet.view, reads.rbgs, reads'.rbgs, reads.usched, reads'.usched,
    reads.users, reads'.users, rbgs, usched, users]

end Parsers

/-! A last token too short for what is read of it: put at the end of the body, it is read
with the bytes behind. -/

section Short
variable {host : ByteOrder} {ts us : List Token}

def sliceImage (fill : UInt8) (us : List Token) : Mem :=
  Mem.patch (fun _ => fill) (chunk 0 (List.replicate 8 0 ++ encode us))

theorem sliceImage_holds (fill : UInt8) (us : List Token) :
    (sliceImage fill us).Holds 0 (List.replicate 8 0 ++ encode us) := Mem.holds_patch_chunk _ 0 _

theorem sliceImage_behind (fill : UInt8) {us : List Token} {a : Nat}
    (h : 8 + (encode us).length ≤ a) : sliceImage fill us a = fill := by
  refine Mem.patch_frame _ fun w hw => ?_
  have := chunk_bounds hw
  rw [List.length_append, List.length_replicate] at this
  omega

theorem takesTokens_image (bounded : 8 + (encode us).length < 2 ^ 32) (fill : UInt8) :
    TakesTokens (sliceImage fill us) 0 (UInt32.ofNat (8 + (encode us).length)) us := by
  have size := uint32_toNat_ofNat bounded
  have held := sliceImage_holds fill us
  have length : (List.replicate 8 (0 : UInt8)).length = 8 := List.length_replicate
  refine ⟨by omega, tokens_held length held, ?_⟩
  have walk := body_walk length held
  rwa [List.length_append, length, ← size] at walk

theorem sliceImage_id (fill fill' : UInt8) (ts us : List Token) :
    ((sliceImage fill ts).be 0 : UInt64) = (sliceImage fill' us).be 0 :=
  (Mem.holds_append.mp (sliceImage_holds fill ts)).1.word_same (k := 0)
    (Mem.holds_append.mp (sliceImage_holds fill' us)).1 (by decide)

theorem OrderFree.view_same (free : OrderFree host ts) (same : Reordered ts us) {m m' : Mem}
    {b b' : Nat} {size size' : UInt32} (h : TakesTokens m b size ts)
    (h' : TakesTokens m' b' size' us) (ids : (m.be b : UInt64) = m'.be b') (old : EpRanSliceDet) :
    (runSteps (sliceStep m) (starts (b + 8) ts) old).view =
      (runSteps (sliceStep m') (starts (b' + 8) us) old).view := by
  have mem : eppRanSup host ∈ sliceParsers host := List.mem_cons_self
  have seen := free us same m m' b b' size size' h h' ids _ mem none old
  rw [result_sliceParsers h.open' none old _ mem, result_sliceParsers h'.open' none old _ mem,
    h.walked, h'.walked] at seen
  exact Option.some.inj (congrArg (fun out => out.2.2) (Option.some.inj seen))

theorem runSteps_last_read {W : Type} [Word W] {type : EpTLVType} {field : EpRanSliceDet → W}
    (sets : ∀ m c, IsType m type c → ∀ s, field (sliceStep m c s) = m.be (c + 4)) {m : Mem}
    {c : Nat} {t : Token} (h : m.Holds c (encode (ts ++ [t]))) (mine : t.type = type.code)
    (old : EpRanSliceDet) :
    field (runSteps (sliceStep m) (starts c (ts ++ [t])) old) =
      m.be (c + (encode ts).length + 4) := by
  have token := Token.type_of_holds (holds_encode_concat.mp h).2
  rw [runSteps_starts_concat]
  exact sets m _ (token.trans mine) _

theorem OrderFree.room {W : Type} [Word W] {type : EpTLVType} (field : EpRanSliceDet → W)
    (sets : ∀ m c, IsType m type c → ∀ s, field (sliceStep m c s) = m.be (c + 4))
    (seen : ∀ s s' : EpRanSliceDet, s.view = s'.view → field s = field s')
    (wide : 0 < Word.width W) (bounded : 8 + (encode ts).length < 2 ^ 32)
    (free : OrderFree host ts) {t : Token}
    (last : t ∈ lastPicked (fun t => t.type = type.code) ts) :
    Word.width W ≤ t.body.length := by
  obtain ⟨mine, before, after, rfl, others⟩ := lastPicked_split last
  by_contra short
  have same : Reordered (before ++ t :: after) (before ++ after ++ [t]) :=
    Reordered.to_end fun u hu => mine ▸ others u hu
  have size : t.bytes.length = 4 + t.body.length := tokenBytes_length ..
  have ends : 8 + (encode (before ++ after ++ [t])).length =
      8 + (encode (before ++ after)).length + 4 + t.body.length := by
    rw [encode_append, List.length_append, encode_cons, encode_nil, List.append_nil, size]
    omega
  have length : (encode (before ++ t :: after)).length =
      (encode (before ++ after ++ [t])).length := by
    simp only [encode_append, encode_cons, encode_nil, List.length_append, List.length_nil]
    omega
  have view (fill : UInt8) := free.view_same same (takesTokens_image bounded 0)
    (takesTokens_image (length ▸ bounded) fill) (sliceImage_id _ _ _ _) bareSlice
  have read := seen _ _ ((view 0).symm.trans (view 1))
  rw [runSteps_last_read sets (takesTokens_image (length ▸ bounded) 0).held mine,
    runSteps_last_read sets (takesTokens_image (length ▸ bounded) 1).held mine] at read
  have byte := Mem.same_of_be read (Nat.sub_one_lt_of_lt wide)
  rw [sliceImage_behind 0 (by omega), sliceImage_behind 1 (by omega)] at byte
  exact absurd byte (by decide)

end Short

theorem orderFree_iff {host : ByteOrder} {ts : List Token}
    (bounded : 8 + (encode ts).length < 2 ^ 32) : OrderFree host ts ↔ LastsFull ts := by
  refine ⟨fun free => ⟨fun t ht => ?_, fun t ht => ?_⟩, LastsFull.orderFree⟩
  · have seen (s s' : EpRanSliceDet) (same : s.view = s'.view) : s.l2.rbgs = s'.l2.rbgs :=
      congrArg Prod.fst same
    exact free.room (fun det => det.l2.rbgs) (fun m _ => sliceStep_rbgs_eq m) seen (by decide)
      bounded ht
  · have seen (s s' : EpRanSliceDet) (same : s.view = s'.view) : s.l2.usched = s'.l2.usched :=
      congrArg (fun view => view.2.1) same
    exact free.room (fun det => det.l2.usched) (fun m _ => sliceStep_usched_eq m) seen (by decide)
      bounded ht

/-- The slice parsers agree and read each field from the last token of its type. This is the same
for tokens in any order exactly if the last ones are not too short. -/
theorem sliceParsers_orderFree_iff (host : ByteOrder) :
    (∀ (m : Mem) (b : Nat) (size : UInt32) (id : Option UInt64) (det : EpRanSliceDet),
      ParsedAlike host m b size id det) ∧
    (∀ (m : Mem) (b : Nat) (size : UInt32), 8 ≤ size.toNat → ∃ ts, TakesTokens m b size ts) ∧
    ∀ ts : List Token, 8 + (encode ts).length < 2 ^ 32 → (OrderFree host ts ↔ LastsFull ts) :=
  ⟨fun _ _ _ => parsedAlike, fun _ _ _ => exists_takesTokens, fun _ => orderFree_iff⟩

def fullSlice : List Token := [resToken ⟨7, 5⟩, schedToken 5]

theorem sliceParsers_orderFree_iff_fullSlice :
    (∀ (m : Mem) (b : Nat) (size : UInt32) (id : Option UInt64) (det : EpRanSliceDet),
      ParsedAlike .little m b size id det) ∧
    (8 ≤ (22 : UInt32).toNat ∧ ∃ ts, TakesTokens (fun _ => 0) 0 22 ts) ∧
    8 + (encode fullSlice).length < 2 ^ 32 ∧ (OrderFree .little fullSlice ↔ LastsFull fullSlice) :=
  ⟨(sliceParsers_orderFree_iff .little).1,
    ⟨by decide, (sliceParsers_orderFree_iff .little).2.1 _ 0 22 (by decide)⟩,
    by decide, (sliceParsers_orderFree_iff .little).2.2 fullSlice (by decide)⟩

def shortRes : Token := ⟨EpTLVType.ranSliceMacRes.code, [7], by decide⟩

theorem shortRes_moved : Reordered [shortRes, schedToken 5] [schedToken 5, shortRes] := by
  have other : ∀ u ∈ [schedToken 5], u.type ≠ shortRes.type :=
    List.forall_mem_singleton.mpr (by decide)
  have moved : Reordered ([] ++ shortRes :: [schedToken 5])
      ([] ++ [schedToken 5] ++ [shortRes]) := Reordered.to_end other
  exact moved

/-- The second byte of its `rbgs` is the first one of the scheduler token, or the first one
after the body. -/
theorem shortRes_not_orderFree :
    ((eppRanSup .little 0 21 none (some bareSlice)).result
        (sliceImage 0 [shortRes, schedToken 5])).map sliceSeen =
      some (0, none, some (0x0705, 5, 0, [])) ∧
    ((eppRanSup .little 0 21 none (some bareSlice)).result
        (sliceImage 0 [schedToken 5, shortRes])).map sliceSeen =
      some (0, none, some (0x0700, 5, 0, [])) ∧
    ¬ OrderFree .little [shortRes, schedToken 5] := by
  have sup : eppRanSup .little ∈ sliceParsers .little := List.mem_cons_self
  have before : ((eppRanSup .little 0 21 none (some bareSlice)).result
      (sliceImage 0 [shortRes, schedToken 5])).map sliceSeen =
        some (0, none, some (0x0705, 5, 0, [])) := by
    rw [result_sliceParsers (by decide) none bareSlice _ sup]
    rfl
  have behind : ((eppRanSup .little 0 21 none (some bareSlice)).result
      (sliceImage 0 [schedToken 5, shortRes])).map sliceSeen =
        some (0, none, some (0x0700, 5, 0, [])) := by
    rw [result_sliceParsers (by decide) none bareSlice _ sup]
    rfl
  have takes : TakesTokens (sliceImage 0 [shortRes, schedToken 5]) 0 21
      [shortRes, schedToken 5] := takesTokens_image (by decide) 0
  have takes' : TakesTokens (sliceImage 0 [schedToken 5, shortRes]) 0 21
      [schedToken 5, shortRes] := takesTokens_image (by decide) 0
  refine ⟨before, behind, fun free => ?_⟩
  have seen := free _ shortRes_moved _ _ 0 0 21 21 takes takes' (sliceImage_id 0 0 _ _) _ sup
    none bareSlice
  rw [before, behind] at seen
  simp at seen

end Emproto
