import Emproto.Delivery
import Emproto.ReportLength

/-! One buffer for many messages. No formatter stores into the sequence number, and every byte
outside it is stored again for each message, so that the number is all that a buffer has of the
calls before. -/

namespace Emproto

/-! Machines with an output for each input. -/

section Machines
variable {ι σ τ ο : Type} {step : ι → σ → Option (σ × ο)} {step' : ι → τ → Option (τ × ο)}

def outputs (step : ι → σ → Option (σ × ο)) : List ι → σ → Option (List (ι × ο))
  | [], _ => some []
  | x :: xs, s => do
    let (s', o) ← step x s
    let rest ← outputs step xs s'
    pure ((x, o) :: rest)

/-- The two machines are stuck together, or go on to related states, with one output where the
input is watched. -/
def Simulates (R : σ → τ → Prop) (watched : ι → Bool) (step : ι → σ → Option (σ × ο))
    (step' : ι → τ → Option (τ × ο)) : Prop :=
  ∀ x s t, R s t → (step x s = none ∧ step' x t = none) ∨
    ∃ s' o t' o', step x s = some (s', o) ∧ step' x t = some (t', o') ∧ R s' t' ∧
      (watched x = true → o = o')

theorem Simulates.outputs_eq {R : σ → τ → Prop} {watched : ι → Bool}
    (sim : Simulates R watched step step') (xs : List ι) {s : σ} {t : τ} (related : R s t) :
    (outputs step xs s).map (List.filter fun r => watched r.1) =
      (outputs step' xs t).map (List.filter fun r => watched r.1) := by
  induction xs generalizing s t with
  | nil => rfl
  | cons x xs ih =>
    rcases sim x s t related with ⟨stuck, stuck'⟩ | ⟨s', o, t', o', on, on', related', same⟩
    · simp [outputs, stuck, stuck']
    · have rest := ih related'
      simp only [outputs, on, on', Option.bind_eq_bind, Option.bind_some]
      cases h : outputs step xs s' <;> cases h' : outputs step' xs t' <;>
        simp only [h, h', Option.map_some, Option.map_none, reduceCtorEq] at rest
      · rfl
      · have rest := Option.some.inj rest
        by_cases seen : watched x = true
        · simp [seen, same seen, rest]
        · simp [seen, rest]

end Machines

/-! The sequence number under the formatters. -/

def SparesSeq (b : Nat) (ws : List (Nat × UInt8)) : Prop :=
  ∀ w ∈ ws, w.1 < b + 18 ∨ b + 22 ≤ w.1

namespace SparesSeq
variable {b : Nat} {vs ws : List (Nat × UInt8)}

theorem none : SparesSeq b [] := fun _ hw => absurd hw List.not_mem_nil

theorem append (hv : SparesSeq b vs) (hw : SparesSeq b ws) : SparesSeq b (vs ++ ws) :=
  fun w h => (List.mem_append.mp h).elim (hv w) (hw w)

theorem head {host : ByteOrder} {type : UInt32} {id : EpHdrId} {flags : UInt16} :
    SparesSeq b (chunk b (headBytes host type id flags)) :=
  fun _ hw => .inl (headChunk_bounds hw).2

theorem behind {p : Nat} (hp : b + 22 ≤ p) (hw : ∀ w ∈ ws, p ≤ w.1) : SparesSeq b ws :=
  fun w h => .inr (hp.trans (hw w h))

theorem chunk {p : Nat} {bs : List UInt8} (hp : b + 22 ≤ p) : SparesSeq b (chunk p bs) :=
  behind hp fun _ hw => (chunk_bounds hw).1

theorem kept (h : SparesSeq b ws) (m : Mem) :
    (m.patch ws).Holds (b + 18) (Word.bytes .big (m.be (b + 18) : UInt32)) := by
  refine (m.holds_be (b + 18)).patch fun w hw => ?_
  rw [Word.bytes_length]
  exact h w hw

end SparesSeq

def KeepsSeq (c : Code Int) (b : Nat) : Prop :=
  ∃ n ws, Emits c n ws ∧ SparesSeq b ws

section Messages
variable {host : ByteOrder} {b : Nat} {size : UInt32} {ids : EpHdrId}

theorem formatMessage_keepsSeq {type : EpMsgType} {dir : EpHdrFlagDir}
    {event body : Nat → UInt32 → Code Int} {ev : List UInt8} {whole : Bool} (hev : ev.length ≤ 7)
    (hevent : ∀ p s, Emits (event p s) ev.length (chunk p ev) ∨ Emits (event p s) (-1) [])
    (hbody : FillsBody whole (body (b + (24 + ev.length)) (size - UInt32.ofNat (24 + ev.length)))
      (b + (24 + ev.length))) :
    KeepsSeq (formatMessage host (some b) size type ids dir event body) b := by
  by_cases short : size.toNat < 24
  · exact ⟨_, _, formatMessage_short short, .none⟩
  have room := Nat.le_of_not_lt short
  rcases hevent (b + 24) (size - UInt32.ofNat 24) with hevent | refused
  · obtain ⟨r, vs, emits, -, stores⟩ := hbody
    have event : SparesSeq b (chunk (b + 24) ev) := .chunk (by omega)
    have body : SparesSeq b vs := .behind (by omega) stores.behind
    by_cases neg : r < 0
    · exact ⟨_, _, formatMessage_body_fails ev.length room hevent (by omega) emits neg,
        .append .head (event.append body)⟩
    · obtain ⟨n, rfl⟩ : ∃ n : Nat, r = n := ⟨r.toNat, by omega⟩
      exact ⟨_, _, formatMessage_sum ev.length n room hevent (by omega) emits,
        .append .head (event.append (body.append (.chunk le_rfl)))⟩
  · exact ⟨_, _, formatMessage_event_fails room refused (by decide), .append .head .none⟩

theorem formatMessage_headers_keepSeq {type : EpMsgType} {dir : EpHdrFlagDir} {act op : UInt32}
    {body : Nat → UInt32 → Code Int} (short : size.toNat < 27) :
    KeepsSeq (formatMessage host (some b) size type ids dir (eventHeader host act op) body) b := by
  by_cases head : size.toNat < 24
  · exact ⟨_, _, formatMessage_short head, .none⟩
  · have space : (size - UInt32.ofNat 24).toNat = size.toNat - 24 := uint32_sub_toNat (by omega)
    exact ⟨_, _, formatMessage_event_fails (by omega) (eventHeader_short (by omega)) (by decide),
      .append .head .none⟩

theorem schedHelloRep_keepsSeq (interval id : UInt32) :
    KeepsSeq (epfSchedHelloRep host (some b) size ids interval id) b := by
  by_cases whole : 55 ≤ size.toNat
  · exact ⟨_, _, epfSchedHelloRep_emits host b ids interval id whole,
      .append .head <| .append (.chunk (by omega)) <| .append (.chunk (by omega)) <|
        .chunk le_rfl⟩
  rw [epfSchedHelloRep]
  by_cases head : size.toNat < 24
  · exact ⟨_, _, head_part_short head, .none⟩
  · have space : (size - UInt32.ofNat 24).toNat = size.toNat - 24 := uint32_sub_toNat (by omega)
    exact ⟨_, _, head_part (by omega) (part_fails 24 (epfSchedule_short (by omega)) (by decide)),
      .append .head .none⟩

theorem Message.keepsSeq (msg : Message) (sound : msg.nullBody = false ∨ size.toNat < 27)
    (host : ByteOrder) (b : Nat) (ids : EpHdrId) :
    KeepsSeq (msg.format host (some b) size ids) b := by
  by_cases null : msg.nullBody = true
  · rw [msg.nullBody_format null]
    exact formatMessage_headers_keepSeq (sound.resolve_left (by simp [null]))
  rw [Bool.not_eq_true] at null
  rcases msg.common_or with common | ⟨interval, id, rfl⟩
  · rw [format_eq msg common]
    by_cases given : msg.refused = true
    · rw [if_pos given]
      exact ⟨_, _, .pure _, .none⟩
    · rw [if_neg given]
      rw [Bool.not_eq_true] at given
      exact formatMessage_keepsSeq (msg.eventBytes_bounds host).2 msg.event_outcome
        (msg.body_fills null given _ _)
  · exact schedHelloRep_keepsSeq interval id

end Messages

/-! Runs of calls. -/

namespace Sending
variable {s : Sending} {n : Int} {ws : List (Nat × UInt8)}

theorem code_emits (emits : Emits (s.msg.format s.host (some s.b) s.size s.ids) n ws) :
    Emits s.code n (ws ++ if 24 ≤ s.size.toNat then s.seqStores else []) := by
  refine emits.bind ?_
  unfold seqStores
  cases s.seq with
  | none =>
    rw [ite_self]
    exact .pure n
  | some seq =>
    by_cases room : 24 ≤ s.size.toNat
    · rw [if_pos room]
      exact Emits.of_eq ((epfSeq_emits room).bind (.pure n)) (List.append_nil _)
    · rw [if_neg room]
      simp only [epfSeq, if_pos (Nat.lt_of_not_le room)]
      exact Emits.of_eq ((Emits.pure _).bind (.pure n)) rfl

theorem seqField (spares : SparesSeq s.b ws) (m : Mem) :
    (m.patch (ws ++ s.seqStores)).Holds (s.b + 18)
      (Word.bytes .big (s.seq.getD (m.be (s.b + 18)))) := by
  rw [Mem.patch_append]
  unfold seqStores
  cases s.seq with
  | none => exact spares.kept m
  | some seq => exact Mem.holds_patch_chunk _ _ _

theorem wire_of_run {t : Trace} (hrun : s.code.run s.before = some (n, t)) :
    s.wire = if 0 ≤ n ∧ n ≤ 65535 ∧ n ≤ s.size.toNat then
      some ((s.before.patch t.stores).slice s.b n.toNat) else none := by
  rw [wire, hrun]

theorem outside_seq (s' : Sending) (own : s'.b = s.b) {i : Nat} (apart : i < 18 ∨ 22 ≤ i)
    (stored : ∃ w ∈ ws, w.1 = s.b + i) (m m' : Mem) :
    m.patch (ws ++ s.seqStores) (s.b + i) = m'.patch (ws ++ s'.seqStores) (s.b + i) := by
  have spared (s' : Sending) (own : s'.b = s.b) (m : Mem) :
      m.patch s'.seqStores (s.b + i) = m (s.b + i) := by
    refine Mem.patch_frame m fun w hw => ?_
    unfold seqStores at hw
    cases seq : s'.seq with
    | none =>
      rw [seq] at hw
      exact absurd hw List.not_mem_nil
    | some seq' =>
      rw [seq] at hw
      have := wordChunk_bounds hw
      simp only [Word.width] at this
      omega
  rw [Mem.patch_append, Mem.patch_append, spared s rfl, spared s' own]
  exact Mem.patch_eq_of_stored m m' stored

end Sending

/-- A formatter call, with the size it is told, and the sequence number that is set behind it. -/
structure BufferCall where
  size : UInt32
  ids : EpHdrId
  msg : Message
  seq : Option UInt32

namespace BufferCall

def sending (host : ByteOrder) (b : Nat) (c : BufferCall) (m : Mem) : Sending :=
  ⟨host, m, b, c.size, c.ids, c.msg, c.seq⟩

def step (host : ByteOrder) (b : Nat) (c : BufferCall) (m : Mem) :
    Option (Mem × Option (List UInt8)) :=
  ((c.sending host b m).code.run m).map fun r =>
    (m.patch r.2.stores, (c.sending host b m).wire)

def numbered (c : BufferCall) (seq : UInt32) : BufferCall :=
  { c with seq := some (c.seq.getD seq) }

def next (c : BufferCall) (seq : UInt32) : UInt32 :=
  if 24 ≤ c.size.toNat then c.seq.getD seq else seq

/-- The call alone in the memory `m₀`, with the sequence number that is in force. -/
def stepAlone (host : ByteOrder) (b : Nat) (m₀ : Mem) (c : BufferCall) (seq : UInt32) :
    Option (UInt32 × Option (List UInt8)) :=
  (((c.numbered seq).sending host b m₀).code.run m₀).map fun _ =>
    (c.next seq, ((c.numbered seq).sending host b m₀).wire)

section Step
variable {host : ByteOrder} {b : Nat} {m m₀ : Mem} {c : BufferCall} {n : Int}
  {ws : List (Nat × UInt8)}

theorem sent_alike (spares : SparesSeq b ws) (long : 24 ≤ n)
    (covers : ∀ i : Nat, i < n → i < 18 ∨ 22 ≤ i → ∃ w ∈ ws, w.1 = b + i) :
    (m.patch (ws ++ (c.sending host b m).seqStores)).slice b n.toNat =
      (m₀.patch (ws ++ ((c.numbered (m.be (b + 18))).sending host b m₀).seqStores)).slice b
        n.toNat := by
  set s := c.sending host b m
  set s' := (c.numbered (m.be (b + 18))).sending host b m₀
  have field : (m.patch (ws ++ s.seqStores)).Holds (b + 18)
      (Word.bytes .big (c.seq.getD (m.be (b + 18)))) := s.seqField spares m
  have field' : (m₀.patch (ws ++ s'.seqStores)).Holds (b + 18)
      (Word.bytes .big (c.seq.getD (m.be (b + 18)))) := s'.seqField spares m₀
  refine Mem.slice_congr fun i hi => ?_
  by_cases apart : i < 18 ∨ 22 ≤ i
  · exact s.outside_seq s' rfl apart (covers i (by omega) apart) m m₀
  · have same := field.same field' (i := i - 18) (by
      simp only [Word.bytes_length, Word.width]
      omega)
    rwa [Nat.add_assoc, show 18 + (i - 18) = i by omega] at same

/-- The sequence number is all that the next call can find of the ones before. -/
theorem step_simulates (host : ByteOrder) (b : Nat) (m₀ : Mem) :
    Simulates (fun (m : Mem) seq => m.be (b + 18) = seq) (fun c => c.msg.whole)
      (step host b) (stepAlone host b m₀) := by
  rintro c m seq rfl
  set s := c.sending host b m with hs
  set s' := (c.numbered (m.be (b + 18))).sending host b m₀ with hs'
  by_cases sound : c.msg.nullBody = false ∨ c.size.toNat < 27
  · right
    obtain ⟨n, ws, emits, -, frames⟩ := c.msg.returns sound host b c.ids
    obtain ⟨_, _, emits', spares⟩ := c.msg.keepsSeq sound host b c.ids
    obtain ⟨rfl, rfl⟩ := emits.unique emits'
    obtain ⟨t, hrun, ht⟩ := s.code_emits emits m
    obtain ⟨t', hrun', ht'⟩ := s'.code_emits emits m₀
    refine ⟨m.patch t.stores, s.wire, c.next (m.be (b + 18)), s'.wire, ?_, ?_, ?_, fun whole => ?_⟩
    · rw [step, ← hs, hrun]
      rfl
    · rw [stepAlone, ← hs', hrun']
      rfl
    · rw [ht, next]
      by_cases room : 24 ≤ c.size.toNat
      · rw [if_pos room, if_pos (show 24 ≤ s.size.toNat from room)]
        exact Mem.word_of_holds (s.seqField spares m)
      · rw [if_neg room, if_neg (show ¬ 24 ≤ s.size.toNat from room), List.append_nil]
        exact Mem.word_of_holds (spares.kept m)
    · rw [Sending.wire_of_run hrun, Sending.wire_of_run hrun']
      refine ite_congr rfl (fun success => congrArg some ?_) fun _ => rfl
      have success : 0 ≤ n ∧ n ≤ 65535 ∧ n ≤ c.size.toNat := success
      have long := (frames success.1).long
      have room : 24 ≤ c.size.toNat := by omega
      rw [ht, ht', if_pos (show 24 ≤ s.size.toNat from room),
        if_pos (show 24 ≤ s'.size.toNat from room)]
      exact sent_alike spares (by omega) ((frames success.1).covers whole)
  · left
    rw [not_or, Bool.not_eq_false] at sound
    have crash := c.msg.crashes sound.1 host b (Nat.le_of_not_lt sound.2) c.ids
    have stuck (s : Sending) (same : s.msg.format s.host (some s.b) s.size s.ids =
        c.msg.format host (some b) c.size c.ids) (m : Mem) : s.code.run m = none := by
      rw [Sending.code, Code.run_bind, same, crash]
      rfl
    constructor
    · rw [step, stuck _ rfl]
      rfl
    · rw [stepAlone, stuck _ rfl]
      rfl

end Step

end BufferCall

/-- Calls one after another in one buffer send what each of them would send alone in any other
memory, with the sequence number that was set last: of all that earlier calls left there, failed
ones too, nothing else is ever sent. Measurement requests may be among the calls, but what they
send themselves is left out, since they send bytes that were there before. A call that returns
more than its field or its buffer holds sends nothing. -/
theorem buffer_reused (host : ByteOrder) (b : Nat) (calls : List BufferCall) (m m₀ : Mem) :
    (outputs (BufferCall.step host b) calls m).map (List.filter fun r => r.1.msg.whole) =
      (outputs (BufferCall.stepAlone host b m₀) calls (m.be (b + 18))).map
        (List.filter fun r => r.1.msg.whole) :=
  (BufferCall.step_simulates host b m₀).outputs_eq calls rfl

example : (outputs (BufferCall.step .big 0) [⟨64, ⟨1, 2, 3⟩, .singleHelloRep 5, some 7⟩,
      ⟨64, ⟨1, 2, 3⟩, .singleEcapReq, none⟩] fun _ => 0xff).map (List.map Prod.snd) =
    some [some [1, 1, 0, 0, 0, 0, 0, 0, 0, 1, 0, 2, 0, 0, 0, 3, 0, 1, 0, 0, 0, 7, 0, 31, 0, 1, 1,
        0, 0, 0, 5],
      some [1, 1, 0, 0, 0, 0, 0, 0, 0, 1, 0, 2, 0, 0, 0, 3, 0, 0, 0, 0, 0, 7, 0, 27, 0, 2, 0]] := by
  decide +kernel

end Emproto
