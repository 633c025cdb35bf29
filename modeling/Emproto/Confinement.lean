import Emproto.ExactFits

/-! Where code may store, whatever its arguments and the memory: one rule for each way of
composing code, and by these rules the formatters that look at the size of the buffer before
each store. -/

namespace Emproto

/-- Every run of the code that ends has stored in `[lo, hi)` only and has a value as `post`
says. -/
def Stays {α : Type} (c : Code α) (lo hi : Nat) (post : α → Prop) : Prop :=
  ∀ m a t, c.run m = some (a, t) → t.WritesIn lo hi ∧ post a

namespace Stays
variable {α β : Type} {lo hi : Nat} {post : α → Prop}

theorem pure {a : α} (h : post a) : Stays (Pure.pure a) lo hi post := by
  intro m a' t hrun
  cases hrun
  exact ⟨by simp [Trace.WritesIn], h⟩

theorem crash : Stays (Code.crash : Code α) lo hi post := by
  intro m a t hrun
  cases hrun

theorem note {e : Event} (quiet : e.store? = none) : Stays (Code.note e) lo hi fun _ => True := by
  intro m a t hrun
  cases hrun
  exact ⟨by simp [Trace.WritesIn, quiet], trivial⟩

theorem store {W : Type} [Word W] {host : ByteOrder} {p : Nat} {w : W} (low : lo ≤ p)
    (high : p + Word.width W ≤ hi) : Stays (Code.store host p w) lo hi fun _ => True := by
  intro m a t hrun
  cases hrun
  refine ⟨fun v hv => ?_, trivial⟩
  rw [Code.stores_storeTrace] at hv
  have := wordChunk_bounds hv
  omega

theorem bind {x : Code β} {f : β → Code α} {mid : β → Prop} (hx : Stays x lo hi mid)
    (hf : ∀ b, mid b → Stays (f b) lo hi post) : Stays (x >>= f) lo hi post := by
  intro m a t hrun
  rw [Code.run_bind, Option.bind_eq_some_iff] at hrun
  obtain ⟨⟨b, s⟩, first, hrun⟩ := hrun
  rw [Option.map_eq_some_iff] at hrun
  obtain ⟨⟨_, u⟩, second, same⟩ := hrun
  cases same
  obtain ⟨inside, hb⟩ := hx m b s first
  obtain ⟨inside', ha⟩ := hf b hb _ _ u second
  refine ⟨fun w hw => ?_, ha⟩
  rw [Trace.stores_append, List.mem_append] at hw
  exact hw.elim (inside w) (inside' w)

theorem mono {c : Code α} {lo' hi' : Nat} {post' : α → Prop} (h : Stays c lo' hi' post')
    (low : lo ≤ lo') (high : hi' ≤ hi) (imp : ∀ a, post' a → post a) : Stays c lo hi post := by
  intro m a t hrun
  obtain ⟨inside, ha⟩ := h m a t hrun
  refine ⟨fun w hw => ?_, imp a ha⟩
  have := inside w hw
  omega

theorem ite {c : Prop} [Decidable c] {x y : Code α} (hx : c → Stays x lo hi post)
    (hy : ¬ c → Stays y lo hi post) : Stays (if c then x else y) lo hi post := by
  split
  · exact hx ‹_›
  · exact hy ‹_›

theorem store_bind {W : Type} [Word W] {host : ByteOrder} {p : Nat} {w : W} {f : Unit → Code α}
    (low : lo ≤ p) (high : p + Word.width W ≤ hi) (hf : Stays (f ()) lo hi post) :
    Stays (Code.store host p w >>= f) lo hi post :=
  (store low high).bind fun _ _ => hf

theorem of_emits {c : Code α} {a : α} {ws : List (Nat × UInt8)} (emits : Emits c a ws)
    (inside : ∀ w ∈ ws, lo ≤ w.1 ∧ w.1 < hi) (h : post a) : Stays c lo hi post := by
  intro m a' t hrun
  obtain ⟨t', hrun', rfl⟩ := emits m
  cases hrun.symm.trans hrun'
  exact ⟨inside, h⟩

end Stays

abbrev BodyStays (c : Code Int) (p s : Nat) : Prop := Stays c p (p + s) fun r => r ≤ s

theorem BodyFit.stays {c : Code Int} {p s n : Nat} (h : BodyFit c p s n) : BodyStays c p s := by
  obtain ⟨ws, emits, inside⟩ := h
  refine .of_emits emits inside ?_
  split <;> omega

section Bodies
variable {host : ByteOrder} {p s : Nat} {size : UInt32}

theorem pure_stays {r : Int} (h : r ≤ 0) : BodyStays (pure r) p s := .pure (by omega)

theorem guarded_stays {c : Prop} [Decidable c] {x : Code Int} {n : Nat} (guard : ¬ c → n ≤ s)
    (h : Stays x p (p + n) fun r => r ≤ n) : BodyStays (if c then pure (-1) else x) p s := by
  refine .ite (fun _ => pure_stays (by decide)) fun hc => ?_
  have room := guard hc
  exact h.mono le_rfl (by omega) fun r hr => by omega

theorem formatHello_stays (id : UInt32) :
    BodyStays (formatHello host id p size) p size.toNat :=
  guarded_stays (Nat.le_of_not_lt ·) <| .store_bind le_rfl le_rfl <| .pure le_rfl

theorem epfHoRep_stays (originENB : UInt64) (originPci originRnti targetRnti : UInt16) :
    BodyStays (epfHoRep host originENB originPci originRnti targetRnti p size) p size.toNat :=
  guarded_stays (Nat.le_of_not_lt ·) <| .store_bind le_rfl (by simp [Word.width]) <|
    .store_bind (by omega) (by simp [Word.width]) <|
      .store_bind (by omega) (by simp [Word.width]) <|
        .store_bind (by omega) (by simp [Word.width]) <| .pure le_rfl

theorem epfHoReq_stays (rnti : UInt16) (enb : UInt64) (pci : UInt16) (cause : UInt8) :
    BodyStays (epfHoReq host rnti enb pci cause p size) p size.toNat :=
  guarded_stays (Nat.le_of_not_lt ·) <| .store_bind le_rfl (by simp [Word.width]) <|
    .store_bind (by omega) (by simp [Word.width]) <|
      .store_bind (by omega) (by simp [Word.width]) <|
        .store_bind (by omega) (by simp [Word.width]) <| .pure le_rfl

theorem formatSliceId_stays (id : UInt64) :
    BodyStays (formatSliceId host id p size) p size.toNat :=
  guarded_stays (Nat.le_of_not_lt ·) <| .store_bind le_rfl le_rfl <| .pure le_rfl

theorem epfCellMeasReq_stays : BodyStays (epfCellMeasReq host p size) p size.toNat :=
  guarded_stays (Nat.le_of_not_lt ·) <| .store_bind le_rfl (by simp [Word.width]) <|
    .store_bind (by omega) (by simp [Word.width]) <| .pure le_rfl

theorem epfUerepReq_stays : BodyStays (epfUerepReq host p size) p size.toNat :=
  guarded_stays (Nat.le_of_not_lt ·) <| .store_bind le_rfl le_rfl <| .pure le_rfl

theorem epfCellMeasRep_stays (room : 14 ≤ s) (size : UInt32) (rep : EpCellRep) :
    BodyStays (epfCellMeasRep host rep p size) p s := by
  refine .ite (fun _ => ?_) fun _ => pure_stays le_rfl
  have text : BodyStays (do
      Code.store host p (htons host EpTLVType.cellPrbReport.code)
      Code.store host (p + 2) (htons host 10)
      Code.store host (p + 4) rep.prb.dlPrbs
      Code.store host (p + 5) (htonl host rep.prb.dlPrbsUsed)
      Code.store host (p + 9) rep.prb.ulPrbs
      Code.store host (p + 10) (htonl host rep.prb.ulPrbsUsed)
      pure 14) p 14 :=
    .store_bind le_rfl (by simp [Word.width]) <| .store_bind (by omega) (by simp [Word.width]) <|
      .store_bind (by omega) (by simp [Word.width]) <|
        .store_bind (by omega) (by simp [Word.width]) <|
          .store_bind (by omega) (by simp [Word.width]) <|
            .store_bind (by omega) (by simp [Word.width]) <| .pure le_rfl
  exact text.mono le_rfl (by omega) fun r hr => by omega

end Bodies

section Message
variable {host : ByteOrder} {b : Nat} {size : UInt32} {ids : EpHdrId} {type : EpMsgType}
  {dir : EpHdrFlagDir} {event body : Nat → UInt32 → Code Int}

theorem epfMsgLength_stays (room : 24 ≤ size.toNat) (len : UInt16) :
    Stays (epfMsgLength host (some b) size len) b (b + size.toNat) fun _ => True :=
  .of_emits (epfMsgLength_emits room) (fun w hw => by
    have := wordChunk_bounds hw
    simp only [Word.width] at this
    omega) trivial

theorem part_stays {α : Int → Prop} {lo hi : Nat} {post : Int → Prop} (ret : Nat)
    {format : Nat → UInt32 → Code Int} {rest : Int → Code Int}
    (hformat : Stays (format (b + ret) (size - UInt32.ofNat ret)) lo hi α)
    (neg : ∀ ms, α ms → ms < 0 → post ms)
    (hrest : ∀ ms, α ms → 0 ≤ ms → Stays (rest (toInt32 (ret + ms))) lo hi post) :
    Stays (part b size ret format rest) lo hi post := by
  rw [part, Int.toNat_natCast, uint32_ofInt_natCast]
  exact hformat.bind fun ms hms =>
    .ite (fun h => .pure (neg ms hms h)) fun h => hrest ms hms (Int.not_lt.mp h)

theorem head_stays {post : Int → Prop} {rest : Int → Code Int} (h : 24 ≤ size.toNat)
    (hrest : Stays (rest ((24 : Nat) : Int)) b (b + size.toNat) post) :
    Stays (part b size 0 (fun p s => epfHead host (some p) s type.code ids dir.flag) rest) b
      (b + size.toNat) post := by
  have head : Stays (epfHead host (some b) size type.code ids dir.flag) b (b + size.toNat)
      fun r => r = 24 :=
    .of_emits (epfHead_emits h) (fun w hw => by
      have := headChunk_bounds hw
      omega) rfl
  have first : Stays (epfHead host (some (b + Int.toNat 0)) (size - UInt32.ofInt 0) type.code ids
      dir.flag) b (b + size.toNat) fun r => r = 24 := by
    rwa [show UInt32.ofInt 0 = 0 from rfl, UInt32.sub_zero]
  refine first.bind fun r hr => ?_
  subst hr
  exact hrest

theorem formatMessage_stays {ev : List UInt8} {open' : Prop} (small : ev.length ≤ 7)
    (enough : open' → 24 + ev.length ≤ size.toNat)
    (hevent : 24 ≤ size.toNat →
      (open' ∧ Emits (event (b + 24) (size - UInt32.ofNat 24)) ev.length (chunk (b + 24) ev)) ∨
      Emits (event (b + 24) (size - UInt32.ofNat 24)) (-1) [])
    (hbody : open' →
      BodyStays (body (b + (24 + ev.length)) (size - UInt32.ofNat (24 + ev.length)))
        (b + (24 + ev.length)) (size.toNat - (24 + ev.length))) :
    BodyStays (formatMessage host (some b) size type ids dir event body) b size.toNat := by
  by_cases short : size.toNat < 24
  · exact .of_emits (formatMessage_short short) (by simp) (by omega)
  have headers := Nat.le_of_not_lt short
  rcases hevent headers with ⟨taken, emits⟩ | refused
  · have room := enough taken
    have second : Stays (event (b + 24) (size - UInt32.ofNat 24)) b (b + size.toNat)
        fun r => r = ev.length :=
      .of_emits emits (fun w hw => by
        have := chunk_bounds hw
        omega) rfl
    have third : Stays (body (b + (24 + ev.length)) (size - UInt32.ofNat (24 + ev.length))) b
        (b + size.toNat) fun r => r ≤ ((size.toNat - (24 + ev.length) : Nat) : Int) :=
      (hbody taken).mono (by omega) (by omega) fun _ hr => hr
    rw [formatMessage]
    refine head_stays headers ?_
    refine part_stays 24 second (fun ms _ neg => by omega) fun ms hms _ => ?_
    subst hms
    have sum : toInt32 (((24 : Nat) : Int) + ev.length) = ((24 + ev.length : Nat) : Int) := by
      rw [toInt32_of_lt (by omega) (by omega)]
      omega
    rw [sum]
    refine part_stays (24 + ev.length) third (fun ms _ neg => by omega) fun ms hms _ => ?_
    refine (epfMsgLength_stays headers _).bind fun _ _ => .pure ?_
    have := toInt32_le (x := ((24 + ev.length : Nat) : Int) + ms) (by omega)
    omega
  · refine .of_emits (formatMessage_event_fails headers refused (by decide)) (fun w hw => ?_)
      (by omega)
    rw [List.append_nil] at hw
    have := headChunk_bounds hw
    omega

end Message

namespace Message
variable (msg : Message) {host : ByteOrder} {b : Nat} {size : UInt32} {ids : EpHdrId}

/-- Every part of the message is written behind a check of its size. -/
def checksSize : Message → Bool
  | triggerUerepRep _ _ _ => false
  | triggerCellMeasRep _ => false
  | singleRanSliceRep _ _ => false
  | singleRanSliceAdd _ _ => false
  | singleRanSliceSet _ _ => false
  | _ => true

theorem epfEcapRep_stays (det : Option EpEnbDet) (p : Nat) (s : UInt32) :
    BodyStays (epfEcapRep host det p s) p s.toNat := by
  cases det with
  | none => exact .crash
  | some det => exact (epfEcapRep_fit det).stays

theorem epfUemeasReq_stays (meas : Option EpUeMeas) (p : Nat) (s : UInt32) :
    BodyStays (epfUemeasReq host meas p s) p s.toNat := by
  cases meas with
  | none => exact .crash
  | some meas =>
    exact (formatRrcs_fit (putRrcMeas_within meas.entry) (by decide) meas).stays

theorem eventBytes_other (other : msg.type ≠ .schedule) : (msg.eventBytes host).length = 3 := by
  unfold eventBytes
  cases type : msg.type with
  | schedule => exact absurd type other
  | _ => exact eventBytes_length _ _

def EventFits (msg : Message) (host : ByteOrder) (size : UInt32) : Prop :=
  24 + (msg.eventBytes host).length ≤ size.toNat ∧ (msg.type = .schedule → 55 ≤ size.toNat)

theorem event_stays (h : 24 ≤ size.toNat) :
    (msg.EventFits host size ∧
        Emits (msg.event host (b + 24) (size - UInt32.ofNat 24)) (msg.eventBytes host).length
          (chunk (b + 24) (msg.eventBytes host))) ∨
      Emits (msg.event host (b + 24) (size - UInt32.ofNat 24)) (-1) [] := by
  have space : (size - UInt32.ofNat 24).toNat = size.toNat - 24 := uint32_sub_toNat h
  unfold EventFits event eventBytes
  cases msg.type with
  | schedule =>
    by_cases short : size.toNat < 55
    · exact .inr (epfSchedule_short (by omega))
    · left
      rw [scheduleBytes_length]
      exact ⟨⟨by omega, fun _ => by omega⟩, epfSchedule_emits (by omega)⟩
  | _ =>
    by_cases short : size.toNat < 27
    · exact .inr (eventHeader_short (by omega))
    · left
      rw [eventBytes_length]
      exact ⟨⟨by omega, nofun⟩, eventHeader_emits (by omega)⟩

theorem body_stays (checks : msg.checksSize = true) {k : Nat} (room : 24 + k ≤ size.toNat)
    (other : msg.type ≠ .schedule → k = 3)
    (sched : msg.type = .schedule → 24 ≤ size.toNat - (24 + k)) :
    BodyStays (msg.body host size (b + (24 + k)) (size - UInt32.ofNat (24 + k))) (b + (24 + k))
      (size.toNat - (24 + k)) := by
  have space : (size - UInt32.ofNat (24 + k)).toNat = size.toNat - (24 + k) :=
    uint32_sub_toNat room
  have empty : BodyStays (pure 0) (b + (24 + k)) (size.toNat - (24 + k)) := pure_stays le_rfl
  cases msg with
  | singleHelloReq id => exact space ▸ formatHello_stays id
  | singleHelloRep id => exact space ▸ formatHello_stays id
  | schedHelloReq interval id => exact space ▸ formatHello_stays id
  | schedHelloRep interval id => exact space ▸ formatHello_stays id
  | singleEcapRep det => exact space ▸ epfEcapRep_stays det _ _
  | singleEcapRepFail => exact space ▸ @epfEcapRep_stays host none _ _
  | triggerUerepReq op => exact space ▸ epfUerepReq_stays
  | triggerUemeasReq op meas => exact space ▸ epfUemeasReq_stays meas _ _
  | triggerUemeasRep rep =>
    cases rep with
    | none => exact empty
    | some rep =>
      exact space ▸ (formatRrcs_fit (putRrcReport_within rep.entry) (by decide) rep).stays
  | schedCellMeasReq interval => exact space ▸ epfCellMeasReq_stays
  | schedCellMeasRep interval info =>
    cases info with
    | none => exact empty
    | some info =>
      exact epfCellMeasRep_stays (Nat.le_trans (by decide) (sched rfl))
        (size - UInt32.ofNat (24 + k)) info
  | triggerCellMeasReq => exact space ▸ epfCellMeasReq_stays
  | singleHoReq rnti enb pci cause => exact space ▸ epfHoReq_stays rnti enb pci cause
  | singleHoRep enb pci origin target => exact space ▸ epfHoRep_stays enb pci origin target
  | singleHoRepFail enb pci origin target => exact space ▸ epfHoRep_stays enb pci origin target
  | singleHoRepNs enb pci origin target => exact space ▸ epfHoRep_stays enb pci origin target
  | singleRanRepFail type sliceId =>
    have three := other nofun
    refine .ite (fun _ => pure_stays (by decide)) fun long => ?_
    exact .store_bind le_rfl (by simp only [Word.width]; omega) (.pure (by omega))
  | singleRanSetupRep det =>
    cases det with
    | none => exact empty
    | some det => exact space ▸ (epfRanEup_fit det).stays
  | singleRanSliceReq sliceId => exact space ▸ formatSliceId_stays sliceId
  | singleRanSliceRem sliceId => exact space ▸ formatSliceId_stays sliceId
  | triggerUerepRep nofUes maxUes ues => cases checks
  | triggerCellMeasRep info => cases checks
  | singleRanSliceRep sliceId det => cases checks
  | singleRanSliceAdd sliceId det => cases checks
  | singleRanSliceSet sliceId det => cases checks
  | _ => exact empty

theorem format_stays (checks : msg.checksSize = true) :
    BodyStays (msg.format host (some b) size ids) b size.toNat := by
  rcases msg.common_or with common | ⟨interval, id, rfl⟩
  · rw [format_eq msg common]
    refine .ite (fun _ => pure_stays (by decide)) fun _ => ?_
    refine formatMessage_stays (msg.eventBytes_bounds host).2 And.left msg.event_stays
      fun ⟨room, sched⟩ => msg.body_stays checks room (fun other => msg.eventBytes_other other)
        fun hs => ?_
    have := sched hs
    have := (msg.eventBytes_bounds host).2
    omega
  · by_cases short : size.toNat < 55
    · obtain ⟨ws, emits, inside⟩ := epfSchedHelloRep_short host b ids interval id short
      exact .of_emits emits inside (by omega)
    · refine .of_emits (epfSchedHelloRep_emits host b ids interval id (Nat.le_of_not_lt short))
        (fun w hw => ?_) (by omega)
      simp only [List.mem_append] at hw
      rcases hw with hw | hw | hw | hw
      · have := headChunk_bounds hw
        omega
      · have := chunk_bounds hw
        rw [scheduleBytes_length] at this
        omega
      · have := wordChunk_bounds hw
        simp only [Word.width] at this
        omega
      · have := wordChunk_bounds hw
        simp only [Word.width] at this
        omega

end Message

/-- Every formatter that checks the size of all its parts comes to an end in its buffer: for all
arguments, with counts beyond the declared arrays too, for every size, as short as it may be, and
whatever the memory holds, it stores in the `size` bytes at `buf` only and returns no more than
`size`. The exception are details that are missing, which are dereferenced where both headers
fit. -/
theorem Message.format_confined_iff (msg : Message) (checks : msg.checksSize = true)
    (host : ByteOrder) (b : Nat) (size : UInt32) (ids : EpHdrId) (m : Mem) :
    (∃ n t, (msg.format host (some b) size ids).run m = some (n, t) ∧
        t.WritesIn b (b + size.toNat) ∧ n ≤ size.toNat) ↔
      ¬ (msg.nullBody = true ∧ 27 ≤ size.toNat) := by
  apply Iff.intro
  · rintro ⟨n, t, hrun, -, -⟩ ⟨null, room⟩
    cases (msg.crashes null host b room ids m).symm.trans hrun
  · intro given
    have sound := msg.sound_of_not_crashes given
    obtain ⟨n, ws, emits, -⟩ := msg.returns sound host b ids
    obtain ⟨t, hrun, -⟩ := emits m
    exact ⟨n, t, hrun, msg.format_stays checks m n t hrun⟩

def manyCells : EpEnbDet := ⟨fun _ => ⟨1, 2, 3, 4, 5, 6, 7⟩, 100, fun _ => ⟨1, 2, 3, 4, 5, 6⟩, 100⟩

theorem Message.format_confined_iff_cells :
    ∃ n t, ((singleEcapRep (some manyCells)).format .little (some 8) 40 ⟨1, 2, 3⟩).run
          (fun _ => 0) = some (n, t) ∧
      t.WritesIn 8 (8 + (40 : UInt32).toNat) ∧ n ≤ (40 : UInt32).toNat :=
  (format_confined_iff (singleEcapRep (some manyCells)) rfl .little 8 40 ⟨1, 2, 3⟩
    fun _ => 0).mpr nofun

end Emproto
