import Emproto.WireRoundTrips
import Emproto.UeMeas

/-! UE measurements from formatter to parser. The fields of a token are stored in an
order of their own, and the interval of a request is not stored at all: on the wire it
is what the buffer of the sender held before. -/

namespace Emproto

/-! Fields stored at places of their own, in any order. -/

section Fields

def fieldStores (fs : List (Nat × List UInt8)) : List (Nat × UInt8) :=
  fs.flatMap fun f => chunk f.1 f.2

def Apart (f g : Nat × List UInt8) : Prop := f.1 + f.2.length ≤ g.1 ∨ g.1 + g.2.length ≤ f.1

variable {fs : List (Nat × List UInt8)} {w : Nat × UInt8}

theorem fieldStores_mem (hw : w ∈ fieldStores fs) :
    ∃ f ∈ fs, f.1 ≤ w.1 ∧ w.1 < f.1 + f.2.length := by
  obtain ⟨f, hf, hw⟩ := List.mem_flatMap.mp hw
  exact ⟨f, hf, chunk_bounds hw⟩

theorem holds_fieldStores (apart : fs.Pairwise Apart) {f : Nat × List UInt8} (hf : f ∈ fs)
    (m : Mem) : (m.patch (fieldStores fs)).Holds f.1 f.2 := by
  induction fs generalizing m with
  | nil => exact absurd hf List.not_mem_nil
  | cons g fs ih =>
    obtain ⟨first, rest⟩ := List.pairwise_cons.mp apart
    rw [fieldStores, List.flatMap_cons, Mem.patch_append]
    rcases List.mem_cons.mp hf with rfl | hf
    · refine (m.holds_patch_chunk f.1 f.2).patch fun w hw => ?_
      obtain ⟨g, hg, low, high⟩ := fieldStores_mem hw
      rcases first g hg with before | behind
      · exact .inr (before.trans low)
      · exact .inl (lt_of_lt_of_le high behind)
    · exact ih rest hf _

end Fields

/-! The loops of the two formatters and the tokens that they leave. -/

section Format
variable {host : ByteOrder} {p : Nat} {size : UInt32}

def rrcReportToken (rrc : EpUeRRCReport) : Token where
  type := EpTLVType.ueRrcReport.code
  body := Word.bytes .big rrc.measId ++ (Word.bytes .big rrc.pci ++ (Word.bytes .big rrc.rsrp ++
    Word.bytes .big rrc.rsrq))
  short := by simp [Word.width]

def rrcMeasToken (rrc : EpUeRRCMeas) : Token where
  type := EpTLVType.ueRrcMeas.code
  body := Word.bytes .big rrc.measId ++ (Word.bytes .big rrc.rnti ++
    (Word.bytes .big rrc.earfcn ++ (Word.bytes .big rrc.interval ++
      (Word.bytes .big rrc.maxCells.toUInt16 ++ Word.bytes .big rrc.maxMeas.toUInt16))))
  short := by simp [Word.width]

@[simp] theorem rrcReportToken_length (rrc : EpUeRRCReport) :
    (rrcReportToken rrc).bytes.length = 12 := by
  simp [Token.bytes, rrcReportToken, Word.width]

@[simp] theorem rrcMeasToken_length (rrc : EpUeRRCMeas) :
    (rrcMeasToken rrc).bytes.length = 16 := by
  simp [Token.bytes, rrcMeasToken, Word.width]

/-- The measurement that a request at `c` carries for `rrc`. -/
def EpUeRRCMeas.sent (m : Mem) (c : Nat) (rrc : EpUeRRCMeas) : EpUeRRCMeas :=
  { rrc with interval := m.be (c + 10) }

theorem putRrcReport_leaves (rrc : Nat → EpUeRRCReport) (i c : Nat) :
    ∃ ws, Emits (putRrcReport host rrc i c) () ws ∧ (∀ w ∈ ws, c ≤ w.1 ∧ w.1 < c + 12) ∧
      ∀ m : Mem, (m.patch ws).Holds c (rrcReportToken (rrc i)).bytes := by
  let fs : List (Nat × List UInt8) := [
    (c, Word.bytes .big EpTLVType.ueRrcReport.code), (c + 2, Word.bytes .big (8 : UInt16)),
    (c + 4, Word.bytes .big (rrc i).measId), (c + 6, Word.bytes .big (rrc i).pci),
    (c + 10, Word.bytes .big (rrc i).rsrq), (c + 8, Word.bytes .big (rrc i).rsrp)]
  have apart : fs.Pairwise Apart := by
    simp only [fs, List.pairwise_cons, List.forall_mem_cons, Apart, Word.bytes_length, Word.width]
    simp
  refine ⟨fieldStores fs, ?_, fun w hw => ?_, fun m => ?_⟩
  · refine Emits.of_eq (Emits.store.bind <| Emits.store.bind <| Emits.store.bind <|
      Emits.store.bind <| Emits.store.bind Emits.store) ?_
    simp [fieldStores, fs]
  · obtain ⟨f, hf, low, high⟩ := fieldStores_mem hw
    simp only [fs, List.mem_cons, List.not_mem_nil, or_false] at hf
    rcases hf with rfl | rfl | rfl | rfl | rfl | rfl <;>
      simp only [Word.bytes_length, Word.width] at low high <;> omega
  · have held := fun f hf => holds_fieldStores apart (f := f) hf m
    simp only [fs, List.forall_mem_cons] at held
    simp only [Token.bytes, tokenBytes, rrcReportToken, Mem.holds_append, Word.bytes_length,
      Word.width, Nat.add_assoc, Nat.reduceAdd]
    obtain ⟨type, length, measId, pci, rsrq, rsrp, -⟩ := held
    exact ⟨type, length, measId, pci, rsrp, rsrq⟩

/-- The interval of the token is what the memory held. -/
theorem putRrcMeas_leaves (rrc : Nat → EpUeRRCMeas) (i c : Nat) :
    ∃ ws, Emits (putRrcMeas host rrc i c) () ws ∧ (∀ w ∈ ws, c ≤ w.1 ∧ w.1 < c + 16) ∧
      ∀ m : Mem, (m.patch ws).Holds c (rrcMeasToken ((rrc i).sent m c)).bytes := by
  let fs : List (Nat × List UInt8) := [
    (c, Word.bytes .big EpTLVType.ueRrcMeas.code), (c + 2, Word.bytes .big (12 : UInt16)),
    (c + 6, Word.bytes .big (rrc i).rnti), (c + 4, Word.bytes .big (rrc i).measId),
    (c + 8, Word.bytes .big (rrc i).earfcn),
    (c + 12, Word.bytes .big (rrc i).maxCells.toUInt16),
    (c + 14, Word.bytes .big (rrc i).maxMeas.toUInt16)]
  have apart : fs.Pairwise Apart := by
    simp only [fs, List.pairwise_cons, List.forall_mem_cons, Apart, Word.bytes_length, Word.width]
    simp
  have places {w : Nat × UInt8} (hw : w ∈ fieldStores fs) :
      c ≤ w.1 ∧ w.1 < c + 16 ∧ (w.1 < c + 10 ∨ c + 12 ≤ w.1) := by
    obtain ⟨f, hf, low, high⟩ := fieldStores_mem hw
    simp only [fs, List.mem_cons, List.not_mem_nil, or_false] at hf
    rcases hf with rfl | rfl | rfl | rfl | rfl | rfl | rfl <;>
      simp only [Word.bytes_length, Word.width] at low high <;> omega
  refine ⟨fieldStores fs, ?_, fun w hw => ⟨(places hw).1, (places hw).2.1⟩, fun m => ?_⟩
  · refine Emits.of_eq (Emits.store.bind <| Emits.store.bind <| Emits.store.bind <|
      Emits.store.bind <| Emits.store.bind <| Emits.store.bind Emits.store) ?_
    simp [fieldStores, fs]
  · have interval : (m.patch (fieldStores fs)).Holds (c + 10)
        (Word.bytes .big (m.be (c + 10) : UInt16)) :=
      (m.holds_be (c + 10)).patch fun w hw => by
        rw [Word.bytes_length]
        exact (places hw).2.2
    have held := fun f hf => holds_fieldStores apart (f := f) hf m
    simp only [fs, List.forall_mem_cons] at held
    simp only [Token.bytes, tokenBytes, rrcMeasToken, EpUeRRCMeas.sent, Mem.holds_append,
      Word.bytes_length, Word.width, Nat.add_assoc, Nat.reduceAdd]
    obtain ⟨type, length, rnti, measId, earfcn, maxCells, maxMeas, -⟩ := held
    exact ⟨type, length, measId, rnti, earfcn, interval, maxCells, maxMeas⟩

variable {width : Nat} {put : Nat → Nat → Code Unit} {α : Type}

theorem formatRrcs_leaves (tok : Mem → Nat → Nat → Token)
    (each : ∀ i c, ∃ ws, Emits (put i c) () ws ∧ (∀ w ∈ ws, c ≤ w.1 ∧ w.1 < c + width) ∧
      ∀ m : Mem, (m.patch ws).Holds c (tok m i c).bytes)
    (fixed : ∀ m i c, (tok m i c).bytes.length = width)
    (own : ∀ (m m' : Mem) i c, (∀ a, c ≤ a → m a = m' a) → tok m i c = tok m' i c)
    (rep : CountedArray α) {k : Nat} (hk : min rep.count.toNat epUeRrcMeasMax.toNat = k)
    (small : width ≤ 16) (room : width * k ≤ size.toNat) :
    ∃ ws, Emits (formatRrcs width put rep p size) ((width * k : Nat) : Int) ws ∧
      (∀ w ∈ ws, p ≤ w.1 ∧ w.1 < p + width * k) ∧
      ∀ m : Mem, (m.patch ws).Holds p
        (encode ((List.range k).map fun j => tok m j (p + width * j))) := by
  have few : k ≤ 8 := hk ▸ Nat.min_le_right _ 8
  have bound : width * k ≤ 16 * 8 := Nat.mul_le_mul small few
  obtain ⟨ws, fill, within, held⟩ :
      ∃ ws, Emits (fillTokens width put (p + size.toNat) k 0 p) (some (p + width * k)) ws ∧
        (∀ w ∈ ws, p ≤ w.1 ∧ w.1 < p + width * k) ∧ ∀ m : Mem, (m.patch ws).Holds p
          (encode ((List.range k).map fun j => tok m (0 + j) (p + width * j))) :=
    fillTokens_leaves each fixed own (by omega)
  refine ⟨ws, ?_, within, fun m => ?_⟩
  · have done : Emits (pure (toInt32 ((p + width * k - p : Nat) : Int)) : Code Int)
        (width * k : Nat) [] := by
      rw [Nat.add_sub_cancel_left, toInt32_of_lt (by omega) (by omega)]
      exact .pure _
    rw [formatRrcs, hk]
    exact Emits.of_eq (fill.bind done) (List.append_nil ws)
  · simp only [Nat.zero_add] at held
    exact held m

theorem formatRrcs_message {b : Nat} {type : EpMsgType} {ids : EpHdrId} {dir : EpHdrFlagDir}
    {action op : UInt32} (tok : Mem → Nat → Nat → Token)
    (each : ∀ i c, ∃ ws, Emits (put i c) () ws ∧ (∀ w ∈ ws, c ≤ w.1 ∧ w.1 < c + width) ∧
      ∀ m : Mem, (m.patch ws).Holds c (tok m i c).bytes)
    (fixed : ∀ m i c, (tok m i c).bytes.length = width)
    (own : ∀ (m m' : Mem) i c, (∀ a, c ≤ a → m a = m' a) → tok m i c = tok m' i c)
    (rep : CountedArray α) {k : Nat} (hk : min rep.count.toNat epUeRrcMeasMax.toNat = k)
    (small : width ≤ 16) (room : 27 + width * k ≤ size.toNat) :
    ∃ vs, Emits (formatMessage host (some b) size type ids dir (eventHeader host action op)
        (formatRrcs width put rep)) ((27 + width * k : Nat) : Int) vs ∧
      ∀ m : Mem, (m.patch vs).Holds (b + 27)
        (encode ((List.range k).map fun j => tok m j (b + 27 + width * j))) := by
  have few : k ≤ 8 := hk ▸ Nat.min_le_right _ 8
  have bound : width * k ≤ 16 * 8 := Nat.mul_le_mul small few
  have space : (size - UInt32.ofNat 27).toNat = size.toNat - 27 := uint32_sub_toNat (by omega)
  obtain ⟨ws, body, -, held⟩ : ∃ ws, Emits (formatRrcs width put rep (b + 27)
      (size - UInt32.ofNat 27)) (width * k : Nat) ws ∧ _ :=
    formatRrcs_leaves tok each fixed own rep hk small (by omega)
  obtain ⟨vs, emits, same⟩ : ∃ vs, Emits (formatMessage host (some b) size type ids dir
      (eventHeader host action op) (formatRrcs width put rep)) ((27 + width * k : Nat) : Int) vs ∧
        ∀ (m : Mem) (a : Nat), b + 27 ≤ a → m.patch vs a = m.patch ws a :=
    formatMessage_behind (eventBytes_length action op) (by omega) (eventHeader_behind (by omega))
      body (by omega)
  exact ⟨vs, emits, fun m => (held m).transport fun i _ => same m _ (by omega)⟩

end Format

/-! The parsers on the tokens of such a list. -/

section Parse
variable {m : Mem} {α : Type} {code : UInt16} {entry : Nat → α} {tok : α → Token}

theorem CountedArray.foldl_push_range {cap : UInt32} {a : CountedArray α} (empty : a.count = 0)
    (f : Nat → α) {k : Nat} (fits : k ≤ cap.toNat) :
    ((List.range k).map f).foldl (CountedArray.push cap) a =
      ⟨fun i => if i < k then f i else a.entry i, UInt32.ofNat k⟩ := by
  induction k with
  | zero =>
    cases a
    simp_all
  | succ k ih =>
    have bound := cap.toNat_lt
    have count : (UInt32.ofNat k).toNat = k := uint32_toNat_ofNat (by omega)
    have room : ¬ UInt32.ofNat k ≥ cap := by
      rw [ge_iff_le, UInt32.le_iff_toNat_le, count]
      omega
    rw [List.range_succ, List.map_append, List.foldl_append, ih (by omega)]
    change CountedArray.push cap _ (f k) = _
    rw [CountedArray.push, if_neg room, count]
    congr 1
    · funext i
      by_cases last : i = k
      · subst last
        simp
      · rw [Function.update_of_ne last]
        exact if_congr (by omega) rfl rfl
    · exact (UInt32.ofNat_add k 1).symm

theorem runSteps_rrcStep
    (each : ∀ x c, m.Holds c (tok x).bytes → m.be c = code ∧ entry c = x) {xs : List α} {c : Nat}
    (held : m.Holds c (encode (xs.map tok))) (a : CountedArray α) :
    runSteps (rrcStep m code entry) (starts c (xs.map tok)) a =
      xs.foldl (CountedArray.push epUeRrcMeasMax) a := by
  induction xs generalizing c a with
  | nil => rfl
  | cons x xs ih =>
    obtain ⟨first, rest⟩ := Mem.holds_append.mp held
    obtain ⟨type, value⟩ := each x c first
    rw [List.map_cons, starts, runSteps_cons, ih rest, List.foldl_cons, rrcStep, if_pos type, value]

theorem result_parseRrcs {host : ByteOrder} {read : Nat → Trace} {body : Nat → Code α}
    (hbody : ∀ c, (body c).run m = some (entry c, read c)) (plain : ∀ c, (read c).Plain)
    (each : ∀ x c, m.Holds c (tok x).bytes → m.be c = code ∧ entry c = x)
    {zero : CountedArray α} (empty : zero.count = 0) {f : Nat → α} {k p : Nat} {size : UInt32}
    (few : k ≤ 8) (held : m.Holds p (encode (((List.range k).map f).map tok)))
    (hsize : size.toNat = (encode (((List.range k).map f).map tok)).length)
    (old : CountedArray α) :
    (parseRrcs host code body zero (some p) size (some old)).result m =
      some (epSuccess,
        some ⟨fun i => if i < k then f i else zero.entry i, UInt32.ofNat k⟩) := by
  rw [Code.result_of m (run_parseRrcs m hbody plain zero p size old),
    walk_encode_all held (by omega), runSteps_rrcStep each held,
    CountedArray.foldl_push_range empty f few]

theorem rrcReport_of_token {rrc : EpUeRRCReport} {c : Nat}
    (h : m.Holds c (rrcReportToken rrc).bytes) :
    m.be c = EpTLVType.ueRrcReport.code ∧ rrcReportAt m c = rrc := by
  obtain ⟨type, -, body⟩ := Token.holds_bytes.mp h
  simp only [rrcReportToken, Mem.holds_append, Word.bytes_length, Word.width, Nat.add_assoc,
    Nat.reduceAdd] at body
  obtain ⟨measId, pci, rsrp, rsrq⟩ := body
  have measId : m.be (c + 4) = rrc.measId := Mem.word_of_holds measId
  have pci : m.be (c + 6) = rrc.pci := Mem.word_of_holds pci
  have rsrp : m.be (c + 8) = rrc.rsrp := Mem.word_of_holds rsrp
  have rsrq : m.be (c + 10) = rrc.rsrq := Mem.word_of_holds rsrq
  refine ⟨type, ?_⟩
  rw [rrcReportAt, measId, pci, rsrp, rsrq]

theorem rrcMeas_of_token {rrc : EpUeRRCMeas} {c : Nat} (h : m.Holds c (rrcMeasToken rrc).bytes) :
    m.be c = EpTLVType.ueRrcMeas.code ∧ rrcMeasAt m c = rrc := by
  obtain ⟨type, -, body⟩ := Token.holds_bytes.mp h
  simp only [rrcMeasToken, Mem.holds_append, Word.bytes_length, Word.width, Nat.add_assoc,
    Nat.reduceAdd] at body
  obtain ⟨measId, rnti, earfcn, interval, maxCells, maxMeas⟩ := body
  have measId : m.be (c + 4) = rrc.measId := Mem.word_of_holds measId
  have rnti : m.be (c + 6) = rrc.rnti := Mem.word_of_holds rnti
  have earfcn : m.be (c + 8) = rrc.earfcn := Mem.word_of_holds earfcn
  have interval : m.be (c + 10) = rrc.interval := Mem.word_of_holds interval
  have maxCells : m.be (c + 12) = rrc.maxCells.toUInt16 := Mem.word_of_holds maxCells
  have maxMeas : m.be (c + 14) = rrc.maxMeas.toUInt16 := Mem.word_of_holds maxMeas
  refine ⟨type, ?_⟩
  rw [rrcMeasAt, measId, rnti, earfcn, interval, maxCells, maxMeas]
  rfl

theorem result_received {host : ByteOrder} {read : Nat → Trace} {body : Nat → Code α}
    (hbody : ∀ c, (body c).run m = some (entry c, read c)) (plain : ∀ c, (read c).Plain)
    (each : ∀ x c, m.Holds c (tok x).bytes → m.be c = code ∧ entry c = x)
    {zero : CountedArray α} (empty : zero.count = 0) {width : Nat} (small : width ≤ 16)
    (fixed : ∀ x, (tok x).bytes.length = width) {f : Nat → α} {k : Nat} (few : k ≤ 8)
    {sent : Mem} {b b' : Nat}
    (held : sent.Holds (b + 27) (encode (((List.range k).map f).map tok)))
    (received : sent.Received b m b' (27 + width * k)) (old : CountedArray α) :
    (parseRrcs host code body zero (some (b' + 24 + 3))
        (UInt32.ofNat (27 + width * k) - UInt32.ofNat (24 + 3)) (some old)).result m =
      some (epSuccess,
        some ⟨fun i => if i < k then f i else zero.entry i, UInt32.ofNat k⟩) := by
  have bound : width * k ≤ 16 * 8 := Nat.mul_le_mul small few
  have length : (encode (((List.range k).map f).map tok)).length = width * k := by
    rw [encode_length_const fixed, List.length_map, List.length_range]
  have whole : (UInt32.ofNat (27 + width * k)).toNat = 27 + width * k :=
    uint32_toNat_ofNat (by omega)
  refine result_parseRrcs hbody plain each empty few (held.received received (by rw [length]))
    ?_ old
  rw [uint32_sub_toNat (by omega), whole, length]
  omega

end Parse

/-- What a report message carries of a report: its first entries, up to eight. -/
def EpUeReport.carried (rep : EpUeReport) : EpUeReport where
  entry i := if i < min rep.count.toNat epUeRrcMeasMax.toNat then rep.entry i else ⟨0, 0, 0, 0⟩
  count := UInt32.ofNat (min rep.count.toNat epUeRrcMeasMax.toNat)

/-- A measurement report delivers the entries that it carries and zeros behind them. -/
theorem ueMeasReport_roundTrips (host host' : ByteOrder) (b : Nat) (size : UInt32) (ids : EpHdrId)
    (rep : EpUeReport)
    (room : 27 + 12 * min rep.count.toNat epUeRrcMeasMax.toNat ≤ size.toNat) (old : EpUeReport)
    (m : Mem) :
    RoundTrips (epfTriggerUemeasRep host (some b) size ids (some rep)) b m
      (fun b' n => eppTriggerUemeasRep host' (some b') n (some old)) (some rep.carried) := by
  have few : min rep.count.toNat epUeRrcMeasMax.toNat ≤ 8 := Nat.min_le_right _ 8
  obtain ⟨vs, emits, held⟩ : ∃ vs, Emits (epfTriggerUemeasRep host (some b) size ids (some rep))
      ((27 + 12 * min rep.count.toNat epUeRrcMeasMax.toNat : Nat) : Int) vs ∧
      ∀ m : Mem, (m.patch vs).Holds (b + 27)
        (encode ((List.range (min rep.count.toNat epUeRrcMeasMax.toNat)).map
          fun j => rrcReportToken (rep.entry j))) :=
    formatRrcs_message (fun _ i _ => rrcReportToken (rep.entry i)) (putRrcReport_leaves rep.entry)
      (fun _ i _ => rrcReportToken_length (rep.entry i)) (fun _ _ _ _ _ => rfl) rep rfl (by decide)
      room
  rw [EpUeReport.carried]
  generalize min rep.count.toNat epUeRrcMeasMax.toNat = k at *
  have tokens : ((List.range k).map fun j => rrcReportToken (rep.entry j)) =
      ((List.range k).map rep.entry).map rrcReportToken := by
    rw [List.map_map]
    rfl
  rw [tokens] at held
  obtain ⟨es, hrun, stores⟩ := emits m
  refine ⟨27 + 12 * k, es, hrun, fun m' b' received => ?_⟩
  exact result_received (run_rrcReportBody m') rrcReportReads_plain
    (fun rrc c => rrcReport_of_token) rfl (by decide) rrcReportToken_length few
    (stores ▸ held m) received old

theorem ueMeasReport_roundTrips_nine :
    RoundTrips (epfTriggerUemeasRep .little (some 0) 123 ⟨1, 2, 3⟩
        (some ⟨fun i => ⟨UInt16.ofNat i, 4, 50, 20⟩, 9⟩)) 0 (Mem.ofBytes [])
      (fun b' n => eppTriggerUemeasRep .big (some b') n (some EpUeReport.zero))
      (some (EpUeReport.carried ⟨fun i => ⟨UInt16.ofNat i, 4, 50, 20⟩, 9⟩)) :=
  ueMeasReport_roundTrips .little .big 0 123 ⟨1, 2, 3⟩ _ (by decide) EpUeReport.zero _

def MeasRestores (result : Option (Int × Option EpUeMeas)) (meas : EpUeMeas) : Prop :=
  ∃ meas' : EpUeMeas, result = some (epSuccess, some meas') ∧ meas'.Same meas

theorem sent_eq_iff {m : Mem} {c : Nat} {rrc : EpUeRRCMeas} :
    rrc.sent m c = rrc ↔ m.be (c + 10) = rrc.interval := by
  apply Iff.intro
  · intro same
    exact congrArg EpUeRRCMeas.interval same
  · intro same
    rw [EpUeRRCMeas.sent, same]

/-- The tokens of a request of which the buffer `m` of the sender was the memory before. -/
def requestTokens (m : Mem) (p : Nat) (meas : EpUeMeas) : List Token :=
  ((List.range meas.count.toNat).map fun i => (meas.entry i).sent m (p + 16 * i)).map rrcMeasToken

theorem epfTriggerUemeasReq_emits (host : ByteOrder) (b : Nat) {size : UInt32} (ids : EpHdrId)
    (op : EpOpType) {meas : EpUeMeas} (few : meas.count.toNat ≤ 8)
    (room : 27 + 16 * meas.count.toNat ≤ size.toNat) :
    ∃ vs, Emits (epfTriggerUemeasReq host (some b) size ids op (some meas))
        ((27 + 16 * meas.count.toNat : Nat) : Int) vs ∧
      ∀ m : Mem, (m.patch vs).Holds (b + 27) (encode (requestTokens m (b + 27) meas)) := by
  have word (m m' : Mem) (c : Nat) (same : ∀ a, c ≤ a → m a = m' a) :
      (m.be (c + 10) : UInt16) = m'.be (c + 10) :=
    congrArg (Word.ofBytes .big) (Mem.slice_congr fun i _ => same (c + 10 + i) (by omega))
  obtain ⟨vs, emits, held⟩ : ∃ vs, Emits (epfTriggerUemeasReq host (some b) size ids op (some meas))
      ((27 + 16 * meas.count.toNat : Nat) : Int) vs ∧
      ∀ m : Mem, (m.patch vs).Holds (b + 27) (encode ((List.range meas.count.toNat).map
        fun j => rrcMeasToken ((meas.entry j).sent m (b + 27 + 16 * j)))) :=
    formatRrcs_message (fun m i c => rrcMeasToken ((meas.entry i).sent m c))
      (putRrcMeas_leaves meas.entry) (fun _ _ _ => rrcMeasToken_length _)
      (fun m m' i c same => by rw [EpUeRRCMeas.sent, EpUeRRCMeas.sent, word m m' c same])
      meas (Nat.min_eq_left few) (by decide) room
  refine ⟨vs, emits, fun m => ?_⟩
  rw [requestTokens, List.map_map]
  exact held m

theorem measRestores_held_iff {host : ByteOrder} {m before : Mem} {b p : Nat} {size : UInt32}
    {meas : EpUeMeas} (few : meas.count.toNat ≤ 8)
    (held : m.Holds (b + 27) (encode (requestTokens before p meas)))
    (hsize : size.toNat = 27 + (encode (requestTokens before p meas)).length) (old : EpUeMeas) :
    MeasRestores ((eppTriggerUemeasReq host (some b) size (some old)).result m) meas ↔
      ∀ i < meas.count.toNat, before.be (p + 16 * i + 10) = (meas.entry i).interval := by
  have space : (size - UInt32.ofNat 27).toNat = (encode (requestTokens before p meas)).length := by
    rw [uint32_sub_toNat (by omega)]
    omega
  have parsed : (eppTriggerUemeasReq host (some b) size (some old)).result m =
      some (epSuccess, some ⟨fun i => if i < meas.count.toNat then
          (meas.entry i).sent before (p + 16 * i) else ⟨0, 0, 0, 0, 0, 0⟩,
        UInt32.ofNat meas.count.toNat⟩) :=
    result_parseRrcs (run_rrcMeasBody m) rrcMeasReads_plain (fun rrc c => rrcMeas_of_token) rfl few
      held space old
  rw [parsed]
  apply Iff.intro
  · intro restores i hi
    obtain ⟨meas', result, -, same⟩ := restores
    cases result
    exact sent_eq_iff.mp ((if_pos hi).symm.trans (same i hi))
  · intro intervals
    refine ⟨_, rfl, UInt32.ofNat_toNat, fun i hi => ?_⟩
    exact (if_pos hi).trans (sent_eq_iff.mpr (intervals i hi))

theorem measRestores_iff {host : ByteOrder} {m sent m' : Mem} {b b' : Nat} {meas : EpUeMeas}
    (few : meas.count.toNat ≤ 8)
    (held : sent.Holds (b + 27) (encode (requestTokens m (b + 27) meas)))
    (received : sent.Received b m' b' (27 + 16 * meas.count.toNat)) (old : EpUeMeas) :
    MeasRestores ((eppTriggerUemeasReq host (some b')
        (UInt32.ofNat (27 + 16 * meas.count.toNat)) (some old)).result m') meas ↔
      ∀ i < meas.count.toNat, m.be (b + 27 + 16 * i + 10) = (meas.entry i).interval := by
  have length : (encode (requestTokens m (b + 27) meas)).length = 16 * meas.count.toNat := by
    rw [requestTokens, encode_length_const rrcMeasToken_length, List.length_map, List.length_range]
  have size : (UInt32.ofNat (27 + 16 * meas.count.toNat)).toNat = 27 + 16 * meas.count.toNat :=
    uint32_toNat_ofNat (by omega)
  exact measRestores_held_iff few (held.received received (by rw [length])) (by rw [size, length])
    old

/-- A measurement request is restored, both signed fields included, exactly if the buffer
of the sender happened to hold the interval of each measurement where it belongs. -/
theorem ueMeasRequest_restored_iff (host host' : ByteOrder) (b : Nat) (size : UInt32)
    (ids : EpHdrId) (op : EpOpType) (meas : EpUeMeas) (few : meas.count ≤ epUeRrcMeasMax)
    (room : 27 + 16 * meas.count.toNat ≤ size.toNat) (m : Mem) :
    ∃ (n : Nat) (es : Trace),
      (epfTriggerUemeasReq host (some b) size ids op (some meas)).run m = some ((n : Int), es) ∧
      ∀ (m' : Mem) (b' : Nat), (m.patch es.stores).Received b m' b' n → ∀ old : EpUeMeas,
        (MeasRestores ((eppTriggerUemeasReq host' (some b') (UInt32.ofNat n) (some old)).result m')
            meas ↔
          ∀ i < meas.count.toNat, m.be (b + 27 + 16 * i + 10) = (meas.entry i).interval) := by
  have few : meas.count.toNat ≤ 8 := UInt32.le_iff_toNat_le.mp few
  obtain ⟨vs, emits, held⟩ := epfTriggerUemeasReq_emits host b ids op few room
  obtain ⟨es, hrun, stores⟩ := emits m
  refine ⟨_, es, hrun, fun m' b' received old => ?_⟩
  exact measRestores_iff few (stores ▸ held m) received old

def oneMeas (interval : UInt16) : EpUeMeas := ⟨fun _ => ⟨1, 70, 1800, interval, -1, 3⟩, 1⟩

theorem ueMeasRequest_restored_zero :
    ∃ (n : Nat) (es : Trace),
      (epfTriggerUemeasReq .little (some 0) 64 ⟨1, 2, 3⟩ .add (some (oneMeas 0))).run
        (Mem.ofBytes []) = some ((n : Int), es) ∧
      ∀ (m' : Mem) (b' : Nat), ((Mem.ofBytes []).patch es.stores).Received 0 m' b' n →
        ∀ old : EpUeMeas,
          MeasRestores ((eppTriggerUemeasReq .big (some b') (UInt32.ofNat n) (some old)).result m')
            (oneMeas 0) := by
  obtain ⟨n, es, hrun, restored⟩ := ueMeasRequest_restored_iff .little .big 0 64 ⟨1, 2, 3⟩ .add
    (oneMeas 0) (by decide) (by decide) (Mem.ofBytes [])
  refine ⟨n, es, hrun, fun m' b' received old => (restored m' b' received old).mpr ?_⟩
  intro i hi
  obtain rfl : i = 0 := Nat.lt_one_iff.mp hi
  rfl

/-- In a buffer of zeros the interval of 100 is lost. -/
theorem ueMeasRequest_not_restored :
    ∃ (n : Nat) (es : Trace),
      (epfTriggerUemeasReq .little (some 0) 64 ⟨1, 2, 3⟩ .add (some (oneMeas 100))).run
        (Mem.ofBytes []) = some ((n : Int), es) ∧
      ¬ MeasRestores ((eppTriggerUemeasReq .little (some 0) (UInt32.ofNat n)
        (some EpUeMeas.zero)).result ((Mem.ofBytes []).patch es.stores)) (oneMeas 100) := by
  obtain ⟨vs, emits, held⟩ := epfTriggerUemeasReq_emits .little 0 ⟨1, 2, 3⟩ .add
    (show (oneMeas 100).count.toNat ≤ 8 by decide)
    (show 27 + 16 * (oneMeas 100).count.toNat ≤ (64 : UInt32).toNat by decide)
  obtain ⟨es, hrun, stores⟩ := emits (Mem.ofBytes [])
  refine ⟨_, es, hrun, fun restores => ?_⟩
  have interval := (measRestores_iff (by decide) (stores ▸ held (Mem.ofBytes []))
    (fun i _ => rfl) EpUeMeas.zero).mp restores 0 (by decide)
  exact absurd interval (by decide)

end Emproto
