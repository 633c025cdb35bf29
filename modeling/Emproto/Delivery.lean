import Emproto.WireImage
import Emproto.Stream
import Emproto.Dispatch
import Emproto.EnbCapsRoundTrip
import Emproto.SliceRuns

/-! From formatter to parser, for all messages at once: what a message delivers to the parser
for it, and whole sessions of messages on a byte stream. -/

namespace Emproto

def Finds {α : Type} (c : Code (Int × α)) (m : Mem) (value : α) : Prop :=
  c.result m = some (epSuccess, value)

/-- No number of slices is cut, and the tokens behind the message find no room. -/
def CapsIntact (host : ByteOrder) (m : Mem) (b n : Nat) (det : EpEnbDet) : Prop :=
  (host = .little → ∀ i < det.nofRan.toNat, (det.ran i).maxSlices = 0) ∧
    (cellsFound m (behind m b n) = [] ∨ det.nofCells = epEcapCellMax) ∧
    (ransFound m host (behind m b n) = [] ∨ det.nofRan = epEcapCellMax)

/-- No state is lost, the tokens behind the message name no UE for which there is a slot, and the
last one for a UE that was reported has its identity. -/
def UesIntact (m : Mem) (b n cap : Nat) (us : List EpUeDetails) : Prop :=
  (∀ u ∈ us, u.state = 0) ∧
    (∀ o ∈ trailing m b n, o.1 ≠ 0 → (∀ u ∈ us, u.rnti ≠ o.1) → us.length = cap) ∧
    ∀ u ∈ us, ∀ identity, (trailing m b n).reverse.lookup u.rnti = some identity →
      identity = u.identity

/-- The parser leaves the slice that was sent in the record of the caller, exactly if this had no
scheduler and no users that the message says nothing about. -/
def SliceArrives (k : SliceMsg) (host : ByteOrder) (m : Mem) (b : Nat) (size : UInt32)
    (sliceId : UInt64) (det : EpRanSliceDet) : Prop :=
  ∀ id old, (∃ new, Finds (k.parse host (some b) size (some id) (some old)) m
      (some sliceId, some new) ∧ new.view = det.view) ↔
    (det.l2.usched = 0 → old.l2.usched = 0) ∧ (det.nofUsers = 0 → old.nofUsers = 0)

/-- The parser for the message, called for the `size` bytes at `b`, succeeds with what was sent,
or does so exactly if the named loss does not occur. The sender had the body at `p` in a memory
that was `before`. Replies without a body have no parser. -/
def Message.Delivers (before : Mem) (p : Nat) (host : ByteOrder) (m : Mem) (b : Nat)
    (size : UInt32) : Message → Prop
  | singleHelloReq id =>
    ∀ old, Finds (eppSingleHelloReq host (some b) size (some old)) m (some id)
  | singleHelloRep id =>
    ∀ old, Finds (eppSingleHelloRep host (some b) size (some old)) m (some id)
  | schedHelloReq _ id =>
    ∀ old, Finds (eppSchedHelloReq host (some b) size (some old)) m (some id)
  | schedHelloRep _ id =>
    ∀ old, Finds (eppSchedHelloRep host (some b) size (some old)) m (some id) ↔ m.be (b + 31) = id
  | singleEcapReq => (eppSingleEcapReq (some b) size).result m = some epSuccess
  | singleEcapRep (some det) =>
    ∀ old, EnbRestores ((eppSingleEcapRep host (some b) size (some old)).run m) det.clipped ↔
      CapsIntact host m b size.toNat det.clipped
  | triggerUerepReq _ => (eppTriggerUerepReq (some b) size).result m = some epSuccess
  | triggerUerepRep nofUes maxUes ues =>
    let us := ues.elim [] (reported nofUes maxUes)
    (us.map (·.rnti)).Nodup → ∀ count cap (table : Int → EpUeDetails), us.length ≤ cap.toNat →
      (∀ i < cap.toNat, table (i : Nat) = .zero) →
      (Restores ((eppTriggerUerepRep host (some b) size (some count) cap (some table)).run m)
          cap.toNat us ↔
        UesIntact m b size.toNat cap.toNat us)
  | triggerUemeasReq _ (some meas) =>
    ∀ old, MeasRestores ((eppTriggerUemeasReq host (some b) size (some old)).result m)
        meas.clipped ↔
      ∀ i < meas.clipped.count.toNat, before.be (p + 16 * i + 10) = (meas.entry i).interval
  | triggerUemeasRep (some rep) =>
    ∀ old, Finds (eppTriggerUemeasRep host (some b) size (some old)) m (some rep.carried)
  | schedCellMeasReq interval =>
    ∀ old, Finds (eppSchedCellMeasReq host (some b) size (some old)) m (some interval)
  | schedCellMeasRep _ (some info) =>
    ∀ old, Finds (eppSchedCellMeasRep host (some b) size (some old)) m (some info.carried)
  | triggerCellMeasReq => (eppTriggerCellMeasReq host (some b) size).result m = some epSuccess
  | triggerCellMeasRep (some info) =>
    ∀ old, Finds (eppTriggerCellMeasRep host (some b) size (some old)) m (some info.carried)
  | singleHoReq rnti enb pci cause =>
    ∀ out, Finds (eppSingleHoReq host (some b) size out) m (out.assign rnti enb pci cause)
  | singleHoRep enb pci origin target =>
    ∀ out, Finds (eppSingleHoRep host (some b) size out) m (out.assign enb pci origin target)
  | singleHoRepFail enb pci origin target =>
    ∀ out, Finds (eppSingleHoRep host (some b) size out) m (out.assign enb pci origin target)
  | singleHoRepNs enb pci origin target =>
    ∀ out, Finds (eppSingleHoRep host (some b) size out) m (out.assign enb pci origin target)
  | singleRanSetupReq => (eppSingleRanSetupReq (some b) size).result m = some epSuccess
  | singleRanSetupRep (some det) =>
    ∀ old, (∃ new, Finds (eppSingleRanSetupRep host (some b) size (some old)) m (some new) ∧
        new.view = det.view) ↔
      (det.sliceSched = epRanSchedInvalid → old.sliceSched = epRanSchedInvalid)
  | singleRanSliceReq sliceId =>
    ∀ out, Finds (eppSingleRanSliceReq host (some b) size out) m (out.map fun _ => sliceId)
  | singleRanSliceRem sliceId =>
    ∀ out, Finds (eppSingleRanSliceRem host (some b) size out) m (out.map fun _ => sliceId)
  | singleRanSliceRep sliceId (some det) => SliceArrives .rep host m b size sliceId det
  | singleRanSliceAdd sliceId (some det) => SliceArrives .add host m b size sliceId det
  | singleRanSliceSet sliceId (some det) => SliceArrives .set host m b size sliceId det
  | _ => True

section Bodies
variable {host : ByteOrder} {m : Mem} {b : Nat} {size : UInt32}

theorem size_behind {k n : Nat} (hsize : size.toNat = k + n) :
    (size - UInt32.ofNat k).toNat = n := by
  rw [uint32_sub_toNat (by omega)]
  omega

theorem singleEcapRep_restores_iff {det : EpEnbDet} (cells : det.nofCells ≤ epEcapCellMax)
    (rans : det.nofRan ≤ epEcapCellMax) (held : m.Holds (b + 27) (encode (capTokens det)))
    (hsize : size.toNat = 27 + (encode (capTokens det)).length) (old : EpEnbDet) :
    EnbRestores ((eppSingleEcapRep host (some b) size (some old)).run m) det ↔
      CapsIntact host m b size.toNat det := by
  have iff : EnbRestores ((eppSingleEcapRep host (some b) (UInt32.ofNat size.toNat)
      (some old)).run m) det ↔ _ := enbRestores_iff held hsize cells rans old
  rwa [UInt32.ofNat_toNat] at iff

theorem triggerUerepRep_restores_iff {us : List EpUeDetails}
    (held : m.Holds (b + 27) (encode (us.map ueToken))) (hsize : size.toNat = 27 + 23 * us.length)
    (short : size.toNat ≤ 65535) (distinct : (us.map (·.rnti)).Nodup)
    (proper : ∀ u ∈ us, u.rnti ≠ 0) {cap count : UInt32} {table : Int → EpUeDetails}
    (fits : us.length ≤ cap.toNat) (zeroed : ∀ i < cap.toNat, table (i : Nat) = .zero) :
    Restores ((eppTriggerUerepRep host (some b) size (some count) cap (some table)).run m)
        cap.toNat us ↔
      UesIntact m b size.toNat cap.toNat us := by
  have iff : Restores ((eppTriggerUerepRep host (some b) (UInt32.ofNat size.toNat) (some count) cap
      (some table)).run m) cap.toNat us ↔ _ :=
    restores_iff held hsize short distinct proper fits zeroed
  rwa [UInt32.ofNat_toNat] at iff

theorem result_triggerUemeasRep {rep : EpUeReport}
    (held : m.Holds (b + 27) (encode (rep.carried.list.map rrcReportToken)))
    (hsize : size.toNat = 27 + (encode (rep.carried.list.map rrcReportToken)).length)
    (old : EpUeReport) :
    Finds (eppTriggerUemeasRep host (some b) size (some old)) m (some rep.carried) := by
  rw [rep.carried_list] at held hsize
  exact result_parseRrcs (run_rrcReportBody m) rrcReportReads_plain
    (fun rrc c => rrcReport_of_token) rfl (Nat.min_le_right _ 8) held (size_behind hsize) old

theorem result_schedCellMeasReq {interval : UInt32} (value : m.be (b + 27) = interval)
    (room : 31 ≤ size.toNat) (old : UInt32) :
    Finds (eppSchedCellMeasReq host (some b) size (some old)) m (some interval) := by
  have body : (eppCellMeasReq host (some (b + 24 + 7)) (size - UInt32.ofNat (24 + 7))).run m = _ :=
    run_eppCellMeasReq m _ _
  have parsed := run_eppSchedCellMeasReq m body old
  rw [Finds, Code.result_of m parsed, schedInterval, if_neg (by omega), value]

theorem singleRanSetupRep_view_iff {det : EpRanDet}
    (held : m.Holds (b + 27) (setupBytes det ++ encode (macSchedTokens det.sliceSched)))
    (hsize : size.toNat = 27 + (12 + (encode (macSchedTokens det.sliceSched)).length))
    (old : EpRanDet) :
    (∃ new, Finds (eppSingleRanSetupRep host (some b) size (some old)) m (some new) ∧
        new.view = det.view) ↔
      (det.sliceSched = epRanSchedInvalid → old.sliceSched = epRanSchedInvalid) := by
  have parsed : Finds (eppSingleRanSetupRep host (some b) size (some old)) m _ :=
    result_eppRanEup_kept held (size_behind hsize) old
  have found : (∃ new, Finds (eppSingleRanSetupRep host (some b) size (some old)) m (some new) ∧
      new.view = det.view) ↔
        (if det.sliceSched ≠ epRanSchedInvalid then det.sliceSched else old.sliceSched) =
          det.sliceSched := by
    rw [Finds] at parsed
    simp only [Finds, parsed, EpRanDet.view, Option.some.injEq, Prod.mk.injEq, true_and]
    simp
  rw [found]
  by_cases valid : det.sliceSched = epRanSchedInvalid
  · simp [valid]
  · simp [valid]

theorem overlay_view_iff (src det : EpRanSliceDet) :
    (overlay src det).view = src.view ↔
      (src.l2.usched = 0 → det.l2.usched = 0) ∧ (src.nofUsers = 0 → det.nofUsers = 0) := by
  have sched : (if src.l2.usched = 0 then det.l2.usched else src.l2.usched) = src.l2.usched ↔
      (src.l2.usched = 0 → det.l2.usched = 0) := by
    by_cases none : src.l2.usched = 0
    · simp [none]
    · simp [none]
  have users : (overlay src det).usersView = src.usersView ↔
      (src.nofUsers = 0 → det.nofUsers = 0) := by
    rw [overlay_usersView]
    by_cases none : src.nofUsers = 0
    · rw [if_neg (by simp [none])]
      simp only [EpRanSliceDet.usersView, none, Prod.mk.injEq, true_imp_iff]
      exact ⟨And.left, fun empty => ⟨empty, by simp [empty]⟩⟩
    · exact iff_of_true (if_pos (UInt32.pos_iff_ne_zero.mpr none)) fun h => absurd h none
  rw [← sched, ← users, EpRanSliceDet.view, EpRanSliceDet.view, Prod.mk.injEq, Prod.mk.injEq]
  exact and_iff_right rfl

theorem sliceArrives (k : SliceMsg) {sliceId : UInt64} {det : EpRanSliceDet} {bs : List UInt8}
    (payload : slicePayload sliceId (some det) = some bs) (held : m.Holds (b + 27) bs)
    (hsize : size.toNat = 27 + bs.length) : SliceArrives k host m b size sliceId det := by
  intro id old
  by_cases few : det.nofUsers.toNat ≤ 32
  · have bytes : Word.bytes .big sliceId ++ encode (sliceTokens det few) = bs :=
      Option.some.inj ((dif_pos few).symm.trans payload)
    subst bytes
    rw [List.length_append, Word.bytes_length] at hsize
    have carried : Carries sliceId det ⟨m, b, size⟩ := ⟨few, held, hsize⟩
    have parsed : Finds (k.parse host (some b) size (some id) (some old)) m _ :=
      carried.parsed k host id old
    rw [Finds] at parsed
    rw [← overlay_view_iff]
    simp [Finds, parsed]
  · cases (dif_neg few).symm.trans payload

end Bodies

theorem Message.headers_ge (msg : Message) : 27 ≤ msg.headers := by
  unfold headers
  cases msg.type <;> decide

theorem Message.payload_noUes {before : Mem} {p : Nat} {nofUes maxUes : UInt32} {bs : List UInt8}
    (payload : (triggerUerepRep nofUes maxUes none).payload before p = some bs) : bs = [] := by
  rw [Message.payload] at payload
  split at payload
  · exact (Option.some.inj payload).symm
  · cases payload

section Deliver
variable {before m : Mem} {p b : Nat} {host : ByteOrder} {size : UInt32} {bs : List UInt8}

/-- Where the headers and the body of a message are, its parser finds what was sent. -/
theorem Message.delivers_of_holds {msg : Message} (payload : msg.payload before p = some bs)
    (event : EventFields m b msg)
    (held : (∀ interval id, msg ≠ schedHelloRep interval id) → m.Holds (b + msg.headers) bs)
    (hsize : size.toNat = msg.counted bs) (short : size.toNat ≤ 65535) :
    msg.Delivers before p host m b size := by
  cases msg with
  | singleHelloReq id | singleHelloRep id =>
    cases payload
    have long : size.toNat = 31 := hsize
    exact fun old => HelloMsg.result_eppHello_held (held (by simp)) (by omega)
  | schedHelloReq interval id =>
    cases payload
    have long : size.toNat = 35 := hsize
    exact fun old => HelloMsg.result_eppHello_held (held (by simp)) (by omega)
  | schedHelloRep interval id =>
    have long : size.toNat = 31 := hsize
    intro old
    have parsed : (eppSchedHelloRep host (some b) size (some old)).result m =
        some (epSuccess, some (m.be (b + 31))) := HelloMsg.result_eppHello (by omega)
    rw [Finds, parsed]
    simp
  | singleEcapReq | singleRanSetupReq => rfl
  | singleEcapRep det =>
    obtain ⟨det, rfl, rfl⟩ := Option.map_eq_some_iff.mp payload
    exact fun old => singleEcapRep_restores_iff det.clipped_bounds.1 det.clipped_bounds.2
      (held (by simp)) hsize old
  | triggerUerepReq op =>
    have long : size.toNat = 27 + bs.length := hsize
    rw [Delivers, eppTriggerUerepReq, eppUerepReq, Code.result_note_bind rfl, if_neg (by omega)]
    rfl
  | triggerUerepRep nofUes maxUes ues =>
    have bytes : bs = encode ((ues.elim [] (reported nofUes maxUes)).map ueToken) := by
      cases ues with
      | none => exact payload_noUes payload
      | some ues => exact (Option.some.inj payload).symm
    subst bytes
    have proper : ∀ u ∈ ues.elim [] (reported nofUes maxUes), u.rnti ≠ 0 := by
      cases ues with
      | none => simp
      | some ues => exact fun u hu => by simpa using (List.mem_filter.mp hu).2
    have long : size.toNat = 27 + (encode _).length := hsize
    rw [encode_ueTokens_length] at long
    exact fun distinct count cap table fits zeroed =>
      triggerUerepRep_restores_iff (held (by simp)) long short distinct proper fits zeroed
  | triggerUemeasReq op meas =>
    obtain ⟨meas, rfl, rfl⟩ := Option.map_eq_some_iff.mp payload
    exact fun old => measRestores_held_iff meas.clipped_le (held (by simp)) hsize old
  | triggerUemeasRep rep =>
    obtain ⟨rep, rfl, rfl⟩ := Option.map_eq_some_iff.mp payload
    exact fun old => result_triggerUemeasRep (held (by simp)) hsize old
  | schedCellMeasReq interval =>
    cases payload
    have long : size.toNat = 31 + 4 := hsize
    exact fun old => result_schedCellMeasReq (event.interval rfl) (by omega) old
  | schedCellMeasRep interval info =>
    obtain ⟨info, rfl, rfl⟩ := Option.map_eq_some_iff.mp payload
    exact fun old => result_eppCellMeasRep (held (by simp)) (size_behind hsize) old
  | triggerCellMeasReq => exact Code.result_of m (run_eppCellMeasReq m (b + 24 + 3) _)
  | triggerCellMeasRep info =>
    obtain ⟨info, rfl, rfl⟩ := Option.map_eq_some_iff.mp payload
    exact fun old => result_eppCellMeasRep (held (by simp)) (size_behind hsize) old
  | singleHoReq rnti enb pci cause =>
    cases payload
    have long : size.toNat = 40 := hsize
    exact fun out => result_eppHoReq (held (by simp)) (by omega) out
  | singleHoRep enb pci origin target | singleHoRepFail enb pci origin target
  | singleHoRepNs enb pci origin target =>
    cases payload
    have long : size.toNat = 41 := hsize
    exact fun out => result_eppHoRep (held (by simp)) (by omega) out
  | singleRanSetupRep det =>
    obtain ⟨det, rfl, rfl⟩ := Option.map_eq_some_iff.mp payload
    have long : size.toNat = 27 + (12 + (encode (macSchedTokens det.sliceSched)).length) := by
      rw [← setupBytes_length det, ← List.length_append]
      exact hsize
    exact fun old => singleRanSetupRep_view_iff (held (by simp)) long old
  | singleRanSliceReq sliceId | singleRanSliceRem sliceId =>
    cases payload
    exact fun out =>
      result_parseSliceId (held (by simp)) (Nat.le_of_eq (size_behind hsize).symm) out
  | singleRanSliceRep sliceId det =>
    obtain ⟨det, rfl, -⟩ := Option.bind_eq_some_iff.mp payload
    exact sliceArrives .rep payload (held (by simp)) hsize
  | singleRanSliceAdd sliceId det =>
    obtain ⟨det, rfl, -⟩ := Option.bind_eq_some_iff.mp payload
    exact sliceArrives .add payload (held (by simp)) hsize
  | singleRanSliceSet sliceId det =>
    obtain ⟨det, rfl, -⟩ := Option.bind_eq_some_iff.mp payload
    exact sliceArrives .set payload (held (by simp)) hsize
  | _ => trivial

end Deliver

/-! Sessions. -/

namespace Sending
variable (s : Sending) {bs : List UInt8}

/-- The call goes through for a message of the body `bs`, whose length fits its field. -/
structure Sound (bs : List UInt8) : Prop where
  payload : s.msg.payload s.before (s.b + s.msg.headers) = some bs
  room : s.msg.needs bs ≤ s.size.toNat
  short : s.msg.headers + bs.length ≤ 65535

structure LiesAt (bs : List UInt8) (m : Mem) (b : Nat) : Prop where
  head : m.Holds b (headBytes s.host s.msg.type.code s.ids s.msg.dir.flag)
  seq : ∀ seq, s.seq = some seq → m.Holds (b + 18) (Word.bytes .big seq)
  length : m.Holds (b + 22) (Word.bytes .big (UInt16.ofInt (s.msg.counted bs)))
  event : m.Holds (b + 24) (s.msg.eventBytes s.host)
  body : (∀ interval id, s.msg ≠ .schedHelloRep interval id) → m.Holds (b + s.msg.headers) bs

/-- A receiver tells the message by its headers, whenever both hosts have one byte order or the
message is a request, and finds its sequence number and its content. -/
structure Arrives (host : ByteOrder) (m : Mem) (b : Nat) (size : UInt32) : Prop where
  dispatches : s.host = host ∨ s.msg.dir = .req → Dispatches host b size s.ids s.msg m
  seq : ∀ seq, s.seq = some seq → (eppSeq host (some b) size).result m = some seq
  delivers : s.msg.Delivers s.before (s.b + s.msg.headers) host m b size

def seqStores : List (Nat × UInt8) :=
  match s.seq with
  | none => []
  | some seq => chunk (s.b + 18) (Word.bytes .big seq)

end Sending

namespace Message
variable {msg : Message} {bs : List UInt8}

theorem counted_eq (common : ∀ interval id, msg ≠ schedHelloRep interval id) (bs : List UInt8) :
    msg.counted bs = msg.headers + bs.length := by
  cases msg with
  | schedHelloRep interval id => exact absurd rfl (common interval id)
  | _ => rfl

theorem counted_bounds (msg : Message) (bs : List UInt8) :
    msg.headers ≤ msg.counted bs ∧ msg.counted bs ≤ msg.headers + bs.length := by
  cases msg with
  | schedHelloRep interval id => exact ⟨le_rfl, Nat.le_add_right 31 _⟩
  | _ => exact ⟨Nat.le_add_right .., le_rfl⟩

end Message

namespace Sending
variable {s : Sending} {bs : List UInt8}

theorem code_images (sound : s.Sound bs) :
    ∃ ws, Emits s.code (s.msg.counted bs : Int) ws ∧
      s.before.patch ws = s.before.patch (s.msg.image s.host s.b s.ids bs ++ s.seqStores) := by
  have short := sound.short
  obtain ⟨ws, emits, image⟩ :=
    Message.format_images sound.payload s.host s.ids sound.room (by omega)
  have long : 24 ≤ s.size.toNat := by
    have := s.msg.headers_ge
    have := Nat.le_trans (Nat.le_max_left ..) sound.room
    omega
  refine ⟨ws ++ s.seqStores, emits.bind ?_, ?_⟩
  · unfold seqStores
    cases s.seq with
    | none => exact .pure _
    | some seq => exact Emits.of_eq ((epfSeq_emits long).bind (.pure _)) (List.append_nil _)
  · rw [Mem.patch_append, image, Mem.patch_append]

theorem liesAt_sent (s : Sending) (bs : List UInt8) (m : Mem) :
    s.LiesAt bs (m.patch (s.msg.image s.host s.b s.ids bs ++ s.seqStores)) s.b := by
  have inSeq {w : Nat × UInt8} (hw : w ∈ s.seqStores) : s.b + 18 ≤ w.1 ∧ w.1 < s.b + 22 := by
    unfold seqStores at hw
    cases hs : s.seq with
    | none => simp [hs] at hw
    | some seq =>
      rw [hs] at hw
      exact wordChunk_bounds hw
  have headers := s.msg.headers_eq s.host
  have rest : (m.patch (s.msg.image s.host s.b s.ids bs)).Holds (s.b + 22)
      (Word.bytes .big (UInt16.ofInt (s.msg.counted bs)) ++ (s.msg.eventBytes s.host ++ bs)) := by
    rw [Message.image, Mem.patch_append]
    exact Mem.holds_patch_chunk _ _ _
  simp only [Mem.holds_append, Word.bytes_length, Word.width, Nat.add_assoc, Nat.reduceAdd,
    headers] at rest
  rw [Mem.patch_append]
  constructor
  · rw [Message.image, Mem.patch_append]
    refine ((m.holds_patch_chunk s.b _).patch fun w hw => .inr ?_).patch fun w hw => .inr ?_
    · have := chunk_bounds hw
      rw [headBytes_length]
      omega
    · rw [headBytes_length]
      exact (inSeq hw).1
  · intro seq hs
    unfold seqStores
    rw [hs]
    exact Mem.holds_patch_chunk _ _ _
  · refine rest.1.patch fun w hw => .inl ?_
    have := inSeq hw
    omega
  · refine rest.2.1.patch fun w hw => .inl ?_
    have := inSeq hw
    omega
  · intro _
    refine rest.2.2.patch fun w hw => .inl ?_
    have := inSeq hw
    have := s.msg.headers_ge
    omega

theorem LiesAt.received {m m' : Mem} {b : Nat} (lies : s.LiesAt bs m s.b)
    (received : m.Received s.b m' b (s.msg.counted bs)) : s.LiesAt bs m' b := by
  have counted := s.msg.counted_bounds bs
  have headers := s.msg.headers_eq s.host
  have long := s.msg.headers_ge
  constructor
  · refine lies.head.transport fun i hi => received i ?_
    rw [headBytes_length] at hi
    omega
  · intro seq hs
    refine (lies.seq seq hs).received received ?_
    rw [Word.bytes_length]
    change 18 + 4 ≤ _
    omega
  · refine lies.length.received received ?_
    rw [Word.bytes_length]
    change 22 + 2 ≤ _
    omega
  · exact lies.event.received received (by omega)
  · intro common
    exact (lies.body common).received received (Nat.le_of_eq (Message.counted_eq common bs).symm)

theorem LiesAt.arrives {m : Mem} {b : Nat} (lies : s.LiesAt bs m b) (sound : s.Sound bs)
    (host : ByteOrder) : s.Arrives host m b (UInt32.ofNat (s.msg.counted bs)) := by
  have short := sound.short
  have counted := s.msg.counted_bounds bs
  have long := s.msg.headers_ge
  have size : (UInt32.ofNat (s.msg.counted bs)).toNat = s.msg.counted bs :=
    uint32_toNat_ofNat (by omega)
  have event : m.Holds (b + 24) (s.msg.eventBytes host) := by
    rw [Message.eventBytes_host, ← Message.eventBytes_host s.host]
    exact lies.event
  constructor
  · intro same
    have head : m.Holds b (headBytes host s.msg.type.code s.ids s.msg.dir.flag) := by
      rcases same with same | request
      · exact same ▸ lies.head
      · have head := lies.head
        rw [request, headBytes_front] at head ⊢
        rwa [reqFlag_bytes host s.host]
    refine dispatches_of_holds ?_ head event
    rw [s.msg.headers_eq, size]
    exact counted.1
  · intro seq hs
    have value : m.be (b + 18) = seq := Mem.word_of_holds (lies.seq seq hs)
    rw [result_eppSeq m (by omega), value]
  · exact Message.delivers_of_holds sound.payload (eventFields event) lies.body size (by omega)

/-- A sound call succeeds, and what it writes arrives. -/
theorem Sound.sent (sound : s.Sound bs) :
    ∃ t, s.code.run s.before = some ((s.msg.counted bs : Int), t) ∧
      s.wire = some ((s.before.patch t.stores).slice s.b (s.msg.counted bs)) ∧
      s.LiesAt bs (s.before.patch t.stores) s.b := by
  obtain ⟨ws, emits, image⟩ := code_images sound
  obtain ⟨t, hrun, rfl⟩ := emits s.before
  have counted := s.msg.counted_bounds bs
  have short := sound.short
  have fits := Nat.le_trans (Nat.le_max_left ..) sound.room
  refine ⟨t, hrun, ?_, image ▸ liesAt_sent s bs s.before⟩
  simp only [wire, hrun]
  rw [if_pos (by omega)]
  rfl

end Sending

def Sending.frame (s : Sending) : List UInt8 := s.wire.getD []

namespace Sending

theorem Sound.framed {s : Sending} {bs : List UInt8} (sound : s.Sound bs) :
    s.wire = some s.frame ∧ s.frame.length = s.msg.counted bs := by
  obtain ⟨t, -, wire, -⟩ := sound.sent
  rw [frame, wire]
  exact ⟨rfl, Mem.slice_length _ _ _⟩

end Sending

end Emproto
