import Emproto.Messages

/-! What of a message comes from the memory before. A formatter writes its message field
by field into the buffer of the caller; a byte that no store hits is sent as it was. -/

namespace Emproto

/-- Whatever was in the memory before, the run at `b` ends with one result, and if it is
not negative, with one message, but for the sequence number. -/
def Clean (c : Code Int) (b : Nat) : Prop :=
  ∀ m m' : Mem, ∃ n t t', c.run m = some (n, t) ∧ c.run m' = some (n, t') ∧
    (0 ≤ n → ∀ i : Nat, i < n → i < 18 ∨ 22 ≤ i →
      m.patch t.stores (b + i) = m'.patch t'.stores (b + i))

section Clean
variable {c : Code Int} {b : Nat} {n : Int} {ws : List (Nat × UInt8)}

theorem clean_of_covers (emits : Emits c n ws)
    (covers : 0 ≤ n → ∀ i : Nat, i < n → i < 18 ∨ 22 ≤ i → ∃ w ∈ ws, w.1 = b + i) :
    Clean c b := by
  intro m m'
  obtain ⟨t, hrun, ht⟩ := emits m
  obtain ⟨t', hrun', ht'⟩ := emits m'
  refine ⟨n, t, t', hrun, hrun', fun success i hi apart => ?_⟩
  rw [ht, ht']
  exact Mem.patch_eq_of_stored m m' (covers success i hi apart)

theorem not_clean_of_gap (emits : Emits c n ws) {i : Nat} (hi : i < n) (apart : 22 ≤ i)
    (gap : ∀ w ∈ ws, w.1 ≠ b + i) : ¬ Clean c b := by
  intro clean
  obtain ⟨k, t, t', hrun, hrun', same⟩ := clean (fun _ => 0) fun _ => 1
  obtain ⟨u, hu, ht⟩ := emits fun _ => 0
  obtain ⟨u', hu', ht'⟩ := emits fun _ => 1
  cases hrun.symm.trans hu
  cases hrun'.symm.trans hu'
  have equal := same (by omega) i hi (.inr apart)
  rw [ht, ht', Mem.patch_frame _ gap, Mem.patch_frame _ gap] at equal
  exact absurd equal (by decide)

theorem not_clean_of_none (crash : ∀ m, c.run m = none) : ¬ Clean c b := by
  intro clean
  obtain ⟨k, t, t', hrun, -⟩ := clean (fun _ => 0) fun _ => 0
  cases (crash _).symm.trans hrun

end Clean

/-! Measurement requests. -/

section Request
variable {host : ByteOrder} {p : Nat} {s : UInt32}

theorem putRrcMeas_gap (host : ByteOrder) (rrc : Nat → EpUeRRCMeas) (i c : Nat) :
    ∃ ws, Emits (putRrcMeas host rrc i c) () ws ∧ ∀ w ∈ ws, c ≤ w.1 ∧ w.1 ≠ c + 10 := by
  refine ⟨_, Emits.store.bind <| Emits.store.bind <| Emits.store.bind <| Emits.store.bind <|
    Emits.store.bind <| Emits.store.bind Emits.store, fun w hw => ?_⟩
  simp only [List.mem_append] at hw
  rcases hw with hw | hw | hw | hw | hw | hw | hw <;>
    have := chunk_bounds hw <;> simp only [Word.bytes_length, Word.width] at this <;> omega

theorem fillTokens_gap (host : ByteOrder) (rrc : Nat → EpUeRRCMeas) {p fin k : Nat}
    (room : p + 16 * (k + 1) ≤ fin) :
    ∃ ws, Emits (fillTokens 16 (putRrcMeas host rrc) fin (k + 1) 0 p)
      (some (p + 16 * (k + 1))) ws ∧ ∀ w ∈ ws, p ≤ w.1 ∧ w.1 ≠ p + 10 := by
  obtain ⟨vs, first, gap⟩ := putRrcMeas_gap host rrc 0 p
  obtain ⟨r, ws, rest, value, stores⟩ : Fills (fillTokens 16 (putRrcMeas host rrc) fin k 1 (p + 16))
      (p + 16) (· = tokensEnd 16 fin k (p + 16)) fun _ => p + 16 :=
    fillTokens_fills false (putRrcMeas_fills rrc)
  have last : tokensEnd 16 fin k (p + 16) = some (p + 16 * (k + 1)) := by
    rw [tokensEnd, if_pos (.inr (by omega))]
    congr 1
    omega
  subst value
  rw [last] at rest
  refine ⟨[] ++ (vs ++ ws), ?_, fun w hw => ?_⟩
  · rw [fillTokens, if_neg (by omega)]
    exact (Emits.note rfl).bind (first.bind rest)
  · rcases List.mem_append.mp (List.nil_append (vs ++ ws) ▸ hw) with hw | hw
    · exact gap w hw
    · have := stores.behind w hw
      omega

/-- The interval of the first token is left out by the tokens behind it too. -/
theorem epfUemeasReq_gap (host : ByteOrder) (p : Nat) {meas : EpUeMeas} (busy : 0 < meas.count)
    (fits : 16 * min meas.count.toNat 8 ≤ s.toNat) :
    ∃ ws, Emits (epfUemeasReq host (some meas) p s)
        ((16 * min meas.count.toNat 8 : Nat) : Int) ws ∧ ∀ w ∈ ws, p ≤ w.1 ∧ w.1 ≠ p + 10 := by
  have pos : 0 < meas.count.toNat := UInt32.lt_iff_toNat_lt.mp busy
  obtain ⟨k, hk⟩ : ∃ k, min meas.count.toNat epUeRrcMeasMax.toNat = k + 1 :=
    ⟨min meas.count.toNat 8 - 1, by
      show min meas.count.toNat 8 = _
      omega⟩
  have hk' : min meas.count.toNat 8 = k + 1 := hk
  rw [hk'] at fits ⊢
  have room : p + 16 * (k + 1) ≤ p + s.toNat := by omega
  obtain ⟨ws, fill, gap⟩ := fillTokens_gap host meas.entry room
  refine ⟨ws, ?_, gap⟩
  have value : toInt32 ((p + 16 * (k + 1) - p : Nat) : Int) = ((16 * (k + 1) : Nat) : Int) := by
    rw [Nat.add_sub_cancel_left]
    exact toInt32_of_lt (by omega) (by omega)
  have done : Emits (pure (toInt32 ((p + 16 * (k + 1) - p : Nat) : Int)) : Code Int)
      ((16 * (k + 1) : Nat) : Int) [] := by
    rw [value]
    exact .pure _
  rw [epfUemeasReq, formatRrcs, hk]
  exact Emits.of_eq (fill.bind done) (List.append_nil ws)

theorem epfUemeasReq_whole {meas : EpUeMeas}
    (nothing : meas.count = 0 ∨ s.toNat < 16 * min meas.count.toNat 8) :
    FillsBody true (epfUemeasReq host (some meas) p s) p := by
  refine (fillTokens_fills false (putRrcMeas_fills meas.entry)).bind fun r hr => ⟨le_rfl, ?_⟩
  have eight : min meas.count.toNat epUeRrcMeasMax.toNat = min meas.count.toNat 8 := rfl
  rcases nothing with zero | short
  · have none : min meas.count.toNat epUeRrcMeasMax.toNat = 0 := by
      rw [eight, zero]
      rfl
    rw [none, tokensEnd, if_pos (.inl rfl)] at hr
    subst hr
    refine .pure (isInt32_toInt32 _) ?_
    rw [Nat.mul_zero, Nat.add_zero, Nat.sub_self]
    exact le_rfl
  · rw [tokensEnd, if_neg (by omega)] at hr
    subst hr
    exact .pure (by decide) le_rfl

end Request

/-- A measurement request that is formatted into `size` bytes leaves bytes out. -/
def Message.leaks (size : Nat) : Message → Prop
  | triggerUemeasReq _ (some meas) => 0 < meas.count ∧ 27 + 16 * min meas.count.toNat 8 ≤ size
  | _ => False

section Message
variable {host : ByteOrder} {b : Nat} {size : UInt32} {ids : EpHdrId}

theorem clean_of_returns {c : Code Int} {head event : List UInt8}
    (returns : Returns c b head event true) : Clean c b := by
  obtain ⟨n, ws, emits, -, frames⟩ := returns
  exact clean_of_covers emits fun success => (frames success).covers rfl

theorem uemeasReq_not_clean {op : EpOpType} {meas : EpUeMeas} (busy : 0 < meas.count)
    (fits : 27 + 16 * min meas.count.toNat 8 ≤ size.toNat) :
    ¬ Clean (epfTriggerUemeasReq host (some b) size ids op (some meas)) b := by
  have pos : 0 < meas.count.toNat := UInt32.lt_iff_toNat_lt.mp busy
  have event : Emits (epfTrigger host .ueMeasure op.code (b + 24) (size - UInt32.ofNat 24))
      (3 : Nat)
      (chunk (b + 24) (eventBytes host EpActType.ueMeasure.code op.code)) :=
    eventHeader_behind (by omega)
  have space : (size - UInt32.ofNat 27).toNat = size.toNat - 27 := uint32_sub_toNat (by omega)
  have room : 16 * min meas.count.toNat 8 ≤ (size - UInt32.ofNat 27).toNat := by omega
  obtain ⟨ws, body, gap⟩ := epfUemeasReq_gap host (b + 27) busy room
  have inside : ((37 : Nat) : Int) < ((24 + 3 + 16 * min meas.count.toNat 8 : Nat) : Int) := by
    omega
  refine not_clean_of_gap (formatMessage_emits 3 (16 * min meas.count.toNat 8) (by omega)
    event body (by omega)) inside (by decide) fun w hw => ?_
  rcases messageStores_bounds hw with front | hw
  · rw [eventBytes_length] at front
    omega
  · have := gap w hw
    omega

theorem uemeasReq_clean {op : EpOpType} {meas : EpUeMeas} (headers : 27 ≤ size.toNat)
    (nothing : meas.count = 0 ∨ size.toNat < 27 + 16 * min meas.count.toNat 8) :
    Clean (epfTriggerUemeasReq host (some b) size ids op (some meas)) b := by
  have space : (size - UInt32.ofNat 27).toNat = size.toNat - 27 := uint32_sub_toNat headers
  let msg := Message.triggerUemeasReq op (some meas)
  have body : FillsBody true (epfUemeasReq host (some meas) (b + 27) (size - UInt32.ofNat 27))
      (b + 27) := epfUemeasReq_whole (nothing.imp_right fun short => by omega)
  refine clean_of_returns
    (formatMessage_framed (msg.eventBytes_bounds host).2 msg.event_outcome ?_)
  have three : (msg.eventBytes host).length = 3 := eventBytes_length ..
  rw [three]
  exact body

theorem uemeasReq_refused {op : EpOpType} {meas : Option EpUeMeas} (headers : size.toNat < 27) :
    Clean (epfTriggerUemeasReq host (some b) size ids op meas) b := by
  obtain ⟨vs, emits, -⟩ : ∃ vs, Emits (epfTriggerUemeasReq host (some b) size ids op meas) (-1) vs ∧
      ∀ w ∈ vs, b ≤ w.1 ∧ w.1 < b + size.toNat := formatMessage_headers_fail headers
  exact clean_of_covers emits fun success => absurd success (by decide)

/-- Every message is clean, unless its formatter dereferences null or it is a measurement
request with a token. -/
theorem Message.clean_iff (msg : Message) (host : ByteOrder) (b : Nat) (size : UInt32)
    (ids : EpHdrId) :
    Clean (msg.format host (some b) size ids) b ↔
      ¬ (msg.nullBody = true ∧ 27 ≤ size.toNat) ∧ ¬ msg.leaks size.toNat := by
  by_cases null : msg.nullBody = true ∧ 27 ≤ size.toNat
  · exact iff_of_false (not_clean_of_none (msg.crashes null.1 host b null.2 ids))
      fun clean => clean.1 null
  have sound := msg.sound_of_not_crashes null
  have returns := msg.returns sound host b ids
  cases msg with
  | triggerUemeasReq op meas =>
    cases meas with
    | none =>
      exact iff_of_true (uemeasReq_refused (sound.resolve_left (by simp [nullBody]))) ⟨null, id⟩
    | some meas =>
      by_cases leak : 0 < meas.count ∧ 27 + 16 * min meas.count.toNat 8 ≤ size.toNat
      · exact iff_of_false (uemeasReq_not_clean leak.1 leak.2) fun clean => clean.2 leak
      refine iff_of_true ?_ ⟨null, leak⟩
      by_cases headers : size.toNat < 27
      · exact uemeasReq_refused headers
      · refine uemeasReq_clean (Nat.le_of_not_lt headers) ?_
        by_cases busy : 0 < meas.count
        · exact .inr (Nat.lt_of_not_le fun fits => leak ⟨busy, fits⟩)
        · exact .inl (by_contra fun some => busy (UInt32.pos_iff_ne_zero.mpr some))
  | _ => exact iff_of_true (clean_of_returns returns) ⟨null, id⟩

/-- One measurement in a request, the buffer being larger than the message. -/
theorem uemeasReq_leaks_interval :
    ¬ Clean ((Message.triggerUemeasReq .add (some
        { count := 1, entry := fun _ => ⟨1, 70, 1800, 100, 3, 3⟩ })).format .little (some 0)
      64 ⟨0, 0, 0⟩) 0 :=
  uemeasReq_not_clean (by decide) (by decide)

end Message

end Emproto
