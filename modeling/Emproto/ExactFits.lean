import Emproto.FixedMessages
import Emproto.EnbCapsRun
import Emproto.ReportLength
import Emproto.UeMeasRoundTrip

/-! Formatters and the space they are given, continued. Lists of tokens and an optional
token are checked one by one as the body grows, and exactly. The report about the cell
is written without a look at the size. -/

namespace Emproto

/-- A body formatter given `s` bytes at `p` for a body of `n` bytes: it returns `n` if
they fit, else `-1`, and stores in its bytes only. -/
def BodyFit (c : Code Int) (p s n : Nat) : Prop :=
  ∃ ws, Emits c (if n ≤ s then (n : Int) else -1) ws ∧ ∀ w ∈ ws, p ≤ w.1 ∧ w.1 < p + s

section Message
variable {host : ByteOrder} {b n : Nat} {size : UInt32} {ids : EpHdrId} {m : Mem}
  {type : EpMsgType} {dir : EpHdrFlagDir} {action op : UInt32} {body : Nat → UInt32 → Code Int}

theorem formatMessage_exactFit
    (hbody : 27 ≤ size.toNat →
      BodyFit (body (b + 27) (size - UInt32.ofNat 27)) (b + 27) (size.toNat - 27) n)
    (bound : 27 + n < 2147483648) :
    ExactFit ((formatMessage host (some b) size type ids dir
      (eventHeader host action op) body).run m) b size.toNat (27 + n) := by
  by_cases headers : size.toNat < 27
  · exact (exactFit_refused (formatMessage_headers_fail headers)).mpr (by omega)
  have headers := Nat.le_of_not_lt headers
  obtain ⟨ws, emits, inside⟩ := hbody headers
  have event : Emits (eventHeader host action op (b + 24) (size - UInt32.ofNat 24)) (3 : Nat)
      (chunk (b + 24) (eventBytes host action op)) := eventHeader_behind headers
  by_cases fits : n ≤ size.toNat - 27
  · rw [if_pos fits] at emits
    refine (formatMessage_emits 3 n (by omega) event emits bound).exactFit (by omega) (.inl rfl)
      fun w hw => ?_
    rcases messageStores_bounds hw with front | hw
    · rw [eventBytes_length] at front
      omega
    · have := inside w hw
      omega
  · rw [if_neg fits] at emits
    refine (formatMessage_body_fails 3 (by omega) event (by omega) emits (by decide)).exactFit
      (by omega) (.inr (by decide)) fun w hw => ?_
    simp only [List.mem_append] at hw
    rcases hw with hw | hw | hw
    · have := headChunk_bounds hw
      omega
    · have := chunk_bounds hw
      rw [eventBytes_length] at this
      omega
    · have := inside w hw
      omega

end Message

section Bodies
variable {host : ByteOrder} {p : Nat} {size : UInt32}

theorem putRrcReport_within (rrc : Nat → EpUeRRCReport) (i c : Nat) :
    ∃ ws, Emits (putRrcReport host rrc i c) () ws ∧ ∀ w ∈ ws, c ≤ w.1 ∧ w.1 < c + 12 := by
  obtain ⟨ws, emits, inside, -⟩ : ∃ ws, Emits (putRrcReport host rrc i c) () ws ∧ _ :=
    putRrcReport_leaves rrc i c
  exact ⟨ws, emits, inside⟩

theorem putRrcMeas_within (rrc : Nat → EpUeRRCMeas) (i c : Nat) :
    ∃ ws, Emits (putRrcMeas host rrc i c) () ws ∧ ∀ w ∈ ws, c ≤ w.1 ∧ w.1 < c + 16 := by
  obtain ⟨ws, emits, inside, -⟩ : ∃ ws, Emits (putRrcMeas host rrc i c) () ws ∧ _ :=
    putRrcMeas_leaves rrc i c
  exact ⟨ws, emits, inside⟩

theorem putCellCap_within (cells : Nat → EpCellDet) (i c : Nat) :
    ∃ ws, Emits (putCellCap host cells i c) () ws ∧ ∀ w ∈ ws, c ≤ w.1 ∧ w.1 < c + 18 :=
  ⟨_, putCellCap_emits cells i c, fun _ hw => cellToken_length (cells i) ▸ chunk_bounds hw⟩

theorem putRanCap_within (ran : Nat → EpRanDet) (i c : Nat) :
    ∃ ws, Emits (putRanCap host ran i c) () ws ∧ ∀ w ∈ ws, c ≤ w.1 ∧ w.1 < c + 24 :=
  ⟨_, putRanCap_emits ran i c, fun _ hw => ranToken_length (ran i) ▸ chunk_bounds hw⟩

theorem fillTokens_fit {width : Nat} {put : Nat → Nat → Code Unit}
    (each : ∀ i c, ∃ ws, Emits (put i c) () ws ∧ ∀ w ∈ ws, c ≤ w.1 ∧ w.1 < c + width)
    (p : Nat) {s d : Nat} (used : d ≤ s) (k i : Nat) :
    ∃ ws, Emits (fillTokens width put (p + s) k i (p + d))
        (if d + width * k ≤ s then some (p + (d + width * k)) else none) ws ∧
      ∀ w ∈ ws, p + d ≤ w.1 ∧ w.1 < p + s := by
  obtain ⟨ws, emits, inside⟩ := fillTokens_within each (p + s) k i (p + d)
  have same : (k = 0 ∨ p + d + width * k ≤ p + s) ↔ d + width * k ≤ s := by
    rcases Nat.eq_zero_or_pos k with rfl | pos
    · simp [used]
    · omega
  rw [tokensEnd, if_congr same rfl rfl, Nat.add_assoc] at emits
  exact ⟨ws, emits, inside⟩

theorem formatRrcs_fit {α : Type} {width : Nat} {put : Nat → Nat → Code Unit}
    (each : ∀ i c, ∃ ws, Emits (put i c) () ws ∧ ∀ w ∈ ws, c ≤ w.1 ∧ w.1 < c + width)
    (small : width ≤ 16) (rep : CountedArray α) :
    BodyFit (formatRrcs width put rep p size) p size.toNat
      (width * min 8 rep.count.toNat) := by
  have eight : min rep.count.toNat epUeRrcMeasMax.toNat = min 8 rep.count.toNat :=
    Nat.min_comm _ 8
  have bound : width * min 8 rep.count.toNat ≤ 16 * 8 :=
    Nat.mul_le_mul small (Nat.min_le_left _ _)
  obtain ⟨ws, emits, inside⟩ := fillTokens_fit each p (Nat.zero_le size.toNat)
    (min 8 rep.count.toNat) 0
  rw [Nat.add_zero, Nat.zero_add] at emits
  refine ⟨ws, ?_, inside⟩
  rw [formatRrcs, eight]
  refine Emits.of_eq (emits.bind ?_) (List.append_nil ws)
  by_cases fits : width * min 8 rep.count.toNat ≤ size.toNat
  · have length : toInt32 ((p + width * min 8 rep.count.toNat - p : Nat) : Int) =
        ((width * min 8 rep.count.toNat : Nat) : Int) := by
      rw [Nat.add_sub_cancel_left]
      exact toInt32_of_lt (by omega) (by omega)
    rw [if_pos fits, if_pos fits, ← length]
    exact .pure _
  · rw [if_neg fits, if_neg fits]
    exact .pure _

theorem epfEcapRep_fit (det : EpEnbDet) :
    BodyFit (epfEcapRep host (some det) p size) p size.toNat
      (18 * min 8 det.nofCells.toNat + 24 * min 8 det.nofRan.toNat) := by
  have cells : min det.nofCells.toNat epEcapCellMax.toNat = min 8 det.nofCells.toNat :=
    Nat.min_comm _ 8
  have rans : min det.nofRan.toNat epEcapCellMax.toNat = min 8 det.nofRan.toNat :=
    Nat.min_comm _ 8
  have few : min 8 det.nofCells.toNat ≤ 8 := Nat.min_le_left _ _
  have few' : min 8 det.nofRan.toNat ≤ 8 := Nat.min_le_left _ _
  rw [epfEcapRep, cells, rans]
  generalize min 8 det.nofCells.toNat = k at *
  generalize min 8 det.nofRan.toNat = l at *
  have cell := @putCellCap_within host det.cells
  have ran := @putRanCap_within host det.ran
  obtain ⟨vs, first, inside⟩ := fillTokens_fit cell p (Nat.zero_le size.toNat) k 0
  rw [Nat.add_zero, Nat.zero_add] at first
  by_cases fit : 18 * k ≤ size.toNat
  · rw [if_pos fit] at first
    obtain ⟨ws, second, behind⟩ := fillTokens_fit ran p fit l 0
    refine ⟨vs ++ ws, first.bind (Emits.of_eq (second.bind ?_) (List.append_nil ws)),
      fun w hw => ?_⟩
    · by_cases fits : 18 * k + 24 * l ≤ size.toNat
      · have length : toInt32 ((p + (18 * k + 24 * l) - p : Nat) : Int) =
            ((18 * k + 24 * l : Nat) : Int) := by
          rw [Nat.add_sub_cancel_left]
          exact toInt32_of_lt (by omega) (by omega)
        rw [if_pos fits, if_pos fits, ← length]
        exact .pure _
      · rw [if_neg fits, if_neg fits]
        exact .pure _
    · rcases List.mem_append.mp hw with hw | hw
      · exact inside w hw
      · have := behind w hw
        omega
  · rw [if_neg fit] at first
    refine ⟨vs, ?_, inside⟩
    rw [if_neg (by omega)]
    exact Emits.of_eq (first.bind (.pure _)) (List.append_nil vs)

theorem epfRanEup_fit (det : EpRanDet) :
    BodyFit (epfRanEup host det p size) p size.toNat
      (12 + if det.sliceSched ≠ epRanSchedInvalid then 8 else 0) := by
  rw [← encode_macSchedTokens_length]
  by_cases fits : 12 + (encode (macSchedTokens det.sliceSched)).length ≤ size.toNat
  · refine ⟨_, by rw [if_pos fits]; exact epfRanEup_emits fits, fun w hw => ?_⟩
    have := chunk_bounds hw
    rw [List.length_append, setupBytes_length] at this
    omega
  by_cases masks : 12 ≤ size.toNat
  · refine ⟨_, by rw [if_neg fits]; exact epfRanEup_cut masks (Nat.lt_of_not_le fits),
      fun w hw => ?_⟩
    have := chunk_bounds hw
    rw [setupBytes_length] at this
    omega
  · refine ⟨[], ?_, by simp⟩
    rw [if_neg fits, epfRanEup, if_pos (Nat.lt_of_not_le masks)]
    exact .pure _

end Bodies

/-- The formatters of lists and of an optional token are exact for every size. -/
theorem countedMessages_exactFit (host : ByteOrder) (b : Nat) (size : UInt32) (ids : EpHdrId)
    (m : Mem) :
    (∀ det : EpEnbDet,
      ExactFit ((epfSingleEcapRep host (some b) size ids (some det)).run m) b size.toNat
        (27 + (18 * min 8 det.nofCells.toNat + 24 * min 8 det.nofRan.toNat))) ∧
    (∀ rep : EpUeReport,
      ExactFit ((epfTriggerUemeasRep host (some b) size ids (some rep)).run m) b size.toNat
        (27 + 12 * min 8 rep.count.toNat)) ∧
    (∀ (op : EpOpType) (meas : EpUeMeas),
      ExactFit ((epfTriggerUemeasReq host (some b) size ids op (some meas)).run m) b size.toNat
        (27 + 16 * min 8 meas.count.toNat)) ∧
    (∀ det : EpRanDet,
      ExactFit ((epfSingleRanSetupRep host (some b) size ids (some det)).run m) b size.toNat
        (27 + (12 + if det.sliceSched ≠ epRanSchedInvalid then 8 else 0))) := by
  have space (h : 27 ≤ size.toNat) : (size - UInt32.ofNat 27).toNat = size.toNat - 27 :=
    uint32_sub_toNat h
  refine ⟨fun det => ?_, fun rep => ?_, fun op meas => ?_, fun det => ?_⟩
  · exact formatMessage_exactFit (fun h => space h ▸ epfEcapRep_fit det) (by omega)
  · exact formatMessage_exactFit (fun h => space h ▸
      formatRrcs_fit (putRrcReport_within rep.entry) (by decide) rep) (by omega)
  · exact formatMessage_exactFit (fun h => space h ▸
      formatRrcs_fit (putRrcMeas_within meas.entry) (by decide) meas) (by omega)
  · exact formatMessage_exactFit (fun h => space h ▸ epfRanEup_fit det) (by split <;> omega)

/-! Cell measurement reports. -/

section CellReport
variable {host : ByteOrder} {b : Nat} {size : UInt32} {ids : EpHdrId} {m : Mem}

def EpCellRep.carries (info : EpCellRep) : Prop := info.prb.dlPrbs ≠ 0 ∨ info.prb.ulPrbs ≠ 0

/-- A formatter's run into the `size` bytes at `b` that writes there only, returns no more
than `size`, and fails if a token has to be carried for which there is no room. -/
def CellReportFits (run : Option (Int × Trace)) (b size : Nat) (info : EpCellRep) : Prop :=
  ∃ ret es, run = some (ret, es) ∧ es.WritesIn b (b + size) ∧ (0 ≤ ret → ret ≤ size) ∧
    (info.carries → size < 27 + 14 → ret < 0)

theorem Emits.cellReportFits {c : Code Int} {ret : Int} {ws : List (Nat × UInt8)} {n : Nat}
    {info : EpCellRep} (h : Emits c ret ws) (within : ∀ w ∈ ws, b ≤ w.1 ∧ w.1 < b + n)
    (fits : 0 ≤ ret → ret ≤ n) (fails : info.carries → n < 27 + 14 → ret < 0) :
    CellReportFits (c.run m) b n info := by
  obtain ⟨es, hrun, stores⟩ := h m
  exact ⟨ret, es, hrun, by rwa [Trace.WritesIn, stores], fits, fails⟩

theorem epfTriggerCellMeasRep_emits (info : EpCellRep) (headers : 27 ≤ size.toNat) :
    ∃ (n : Nat) (ws : List (Nat × UInt8)),
      Emits (epfTriggerCellMeasRep host (some b) size ids (some info)) n ws ∧
      (∀ w ∈ ws, b ≤ w.1 ∧ w.1 < b + n) ∧ (info.carries → n = 27 + 14) ∧
      (¬ info.carries → n = 27) := by
  by_cases token : info.carries
  · obtain ⟨ws, emits, -, inside⟩ : ∃ ws,
        Emits (epfTriggerCellMeasRep host (some b) size ids (some info)) ((27 + 14 : Nat) : Int)
          ws ∧
        (∀ m : Mem, (m.patch ws).Holds (b + 27) (prbReportBytes info.prb)) ∧
        ∀ w ∈ ws, b ≤ w.1 ∧ w.1 < b + (27 + 14) :=
      formatMessage_body headers (epfCellMeasRep_emits _ token) (Lays.chunk _ _) rfl (by decide)
    exact ⟨_, ws, emits, inside, fun _ => rfl, fun quiet => absurd token quiet⟩
  · have empty : epfCellMeasRep host info (b + 27) (size - UInt32.ofNat 27) = pure 0 := if_neg token
    obtain ⟨ws, emits, -, inside⟩ : ∃ ws,
        Emits (epfTriggerCellMeasRep host (some b) size ids (some info)) ((27 + 0 : Nat) : Int) ws ∧
        (∀ m : Mem, (m.patch ws).Holds (b + 27) []) ∧ ∀ w ∈ ws, b ≤ w.1 ∧ w.1 < b + (27 + 0) :=
      formatMessage_body headers (empty ▸ .pure 0) (Lays.chunk _ []) rfl (by decide)
    exact ⟨_, ws, emits, inside, fun some => absurd some token, fun _ => rfl⟩

/-- The report formatter is safe unless a token has to be carried and the headers, but not
the token behind them, fit. -/
theorem cellReport_fits_iff (host : ByteOrder) (b : Nat) (size : UInt32) (ids : EpHdrId)
    (info : EpCellRep) (m : Mem) :
    CellReportFits ((epfTriggerCellMeasRep host (some b) size ids (some info)).run m) b size.toNat
        info ↔
      (info.prb.dlPrbs = 0 ∧ info.prb.ulPrbs = 0) ∨ size.toNat < 27 ∨ 27 + 14 ≤ size.toNat := by
  have quiet : (info.prb.dlPrbs = 0 ∧ info.prb.ulPrbs = 0) ↔ ¬ info.carries := by
    rw [EpCellRep.carries, not_or, not_not, not_not]
  rw [quiet]
  by_cases headers : size.toNat < 27
  · obtain ⟨ws, emits, within⟩ : ∃ ws,
        Emits (epfTriggerCellMeasRep host (some b) size ids (some info)) (-1) ws ∧
        ∀ w ∈ ws, b ≤ w.1 ∧ w.1 < b + size.toNat := formatMessage_headers_fail headers
    exact iff_of_true (emits.cellReportFits within (by omega) fun _ _ => by decide)
      (.inr (.inl headers))
  obtain ⟨n, ws, emits, inside, carried, plain⟩ : ∃ (n : Nat) (ws : List (Nat × UInt8)),
      Emits (epfTriggerCellMeasRep host (some b) size ids (some info)) n ws ∧
      (∀ w ∈ ws, b ≤ w.1 ∧ w.1 < b + n) ∧ (info.carries → n = 27 + 14) ∧
      (¬ info.carries → n = 27) := epfTriggerCellMeasRep_emits info (Nat.le_of_not_lt headers)
  have room (fits : n ≤ size.toNat) (full : info.carries → 27 + 14 ≤ size.toNat) :
      CellReportFits ((epfTriggerCellMeasRep host (some b) size ids (some info)).run m) b
        size.toNat info := by
    refine emits.cellReportFits (fun w hw => ?_) (by omega) fun some short => ?_
    · have := inside w hw
      omega
    · have := full some
      omega
  by_cases token : info.carries
  · have length := carried token
    by_cases fits : 27 + 14 ≤ size.toNat
    · exact iff_of_true (room (by omega) fun _ => fits) (.inr (.inr fits))
    · refine iff_of_false (fun safe => ?_) (by simp [token, headers]; omega)
      obtain ⟨es, hrun, -⟩ := emits m
      have := ((Code.exists_run_iff hrun _).mp safe).2.1
      omega
  · have length := plain token
    exact iff_of_true (room (by omega) fun some => absurd some token) (.inl token)

def busyCell : EpCellRep := ⟨⟨25, 10, 25, 5⟩⟩

/-- In 30 bytes the token is written over the end, and 41 is returned. -/
theorem busyCell_not_cellReportFits :
    ¬ CellReportFits ((epfTriggerCellMeasRep .little (some 0) 30 ⟨1, 2, 3⟩ (some busyCell)).run
      (Mem.ofBytes [])) 0 30 busyCell := by
  obtain ⟨n, ws, emits, -, carried, -⟩ : ∃ (n : Nat) (ws : List (Nat × UInt8)),
      Emits (epfTriggerCellMeasRep .little (some 0) 30 ⟨1, 2, 3⟩ (some busyCell)) n ws ∧
      (∀ w ∈ ws, 0 ≤ w.1 ∧ w.1 < 0 + n) ∧ (busyCell.carries → n = 27 + 14) ∧
      (¬ busyCell.carries → n = 27) := epfTriggerCellMeasRep_emits busyCell (by decide)
  obtain ⟨es, hrun, -⟩ := emits (Mem.ofBytes [])
  intro safe
  have length := carried (.inl (by decide))
  have := ((Code.exists_run_iff hrun _).mp safe).2.1
  omega

end CellReport

/-! UE reports. -/

section UeReport
variable {host : ByteOrder} {ues : Nat → EpUeDetails} {fin k i c : Nat} {s : Int}

/-- Unless 19 to 22 bytes are left over, the loop stops in front of the token that does
not fit. -/
theorem uerepFill_stops (behind : c ≤ fin) (short : fin < c + 23 * (withRnti ues i k).length)
    (rest : (fin - c) % 23 < 19) :
    ∃ ws, Emits (uerepFill host fin (some ues) k i c s) (-1) ws ∧
      ∀ w ∈ ws, c ≤ w.1 ∧ w.1 < fin := by
  induction k generalizing i c s with
  | zero => exact absurd short (by simp [withRnti]; omega)
  | succ k ih =>
    by_cases skip : (ues i).rnti = 0
    · rw [withRnti_skip skip] at short
      obtain ⟨ws, stops, inside⟩ := ih (s := s) behind short rest
      exact ⟨ws, uerepFill_skip skip stops, inside⟩
    · rw [withRnti_take skip, List.length_cons] at short
      by_cases full : c + 19 > fin
      · exact ⟨[], uerepFill_full skip full, by simp⟩
      obtain ⟨ws, stops, inside⟩ : ∃ ws, Emits (uerepFill host fin (some ues) k (i + 1) (c + 23)
          (toInt32 (s + 23))) (-1) ws ∧ ∀ w ∈ ws, c + 23 ≤ w.1 ∧ w.1 < fin :=
        ih (by omega) (by omega) (by omega)
      refine ⟨_, uerepFill_store skip (by omega) stops, fun w hw => ?_⟩
      rcases List.mem_append.mp hw with hw | hw
      · have := chunk_bounds hw
        rw [ueToken_length] at this
        omega
      · have := inside w hw
        omega

theorem uerepFill_overruns (behind : c ≤ fin) (short : fin < c + 23 * (withRnti ues i k).length)
    (rest : 19 ≤ (fin - c) % 23) :
    ∃ r ws, Emits (uerepFill host fin (some ues) k i c s) r ws ∧ ∃ w ∈ ws, fin ≤ w.1 := by
  induction k generalizing i c s with
  | zero => exact absurd short (by simp [withRnti]; omega)
  | succ k ih =>
    by_cases skip : (ues i).rnti = 0
    · rw [withRnti_skip skip] at short
      obtain ⟨r, ws, emits, outside⟩ := ih (s := s) behind short rest
      exact ⟨r, ws, uerepFill_skip skip emits, outside⟩
    · rw [withRnti_take skip, List.length_cons] at short
      by_cases last : fin < c + 23
      · obtain ⟨r, ws, emits, -⟩ : Fills (uerepFill host fin (some ues) k (i + 1) (c + 23)
            (toInt32 (s + 23))) (c + 23) IsInt32 _ := uerepFill_fills (isInt32_toInt32 _)
        obtain ⟨w, hw, place⟩ := (Stores.chunk c (ueToken (ues i)).bytes).covers (c + 22) (by omega)
          (by rw [ueToken_length]; omega)
        exact ⟨r, _, uerepFill_store skip (by omega) emits, w, List.mem_append_left _ hw, by omega⟩
      · obtain ⟨r, ws, emits, w, hw, outside⟩ : ∃ r ws, Emits (uerepFill host fin (some ues) k
            (i + 1) (c + 23) (toInt32 (s + 23))) r ws ∧ ∃ w ∈ ws, fin ≤ w.1 :=
          ih (by omega) (by omega) (by omega)
        exact ⟨r, _, uerepFill_store skip (by omega) emits, w, List.mem_append_right _ hw, outside⟩

end UeReport

/-- A formatter's run into the `size` bytes at `p` for `k` UEs: it writes there only,
returns their length exactly if there is room, else -1. -/
def ReportFits (run : Option (Int × Trace)) (p size k : Nat) : Prop :=
  ∃ ret es, run = some (ret, es) ∧ es.WritesIn p (p + size) ∧
    (ret = ((23 * k : Nat) : Int) ↔ 23 * k ≤ size) ∧ (size < 23 * k → ret = -1)

section
variable {host : ByteOrder} {nofUes maxUes : UInt32} {ues : Nat → EpUeDetails} {p : Nat}
  {size : UInt32} {m : Mem}

theorem epfUerepRep_fits (room : 23 * (reported nofUes maxUes ues).length ≤ size.toNat)
    (int : 23 * (reported nofUes maxUes ues).length < 2147483648) :
    ReportFits ((epfUerepRep host nofUes maxUes (some ues) p size).run m) p size.toNat
      (reported nofUes maxUes ues).length := by
  have fits : p + 23 * (reported nofUes maxUes ues).length ≤ p + size.toNat := by omega
  have bound : 0 + 23 * (reported nofUes maxUes ues).length < 2147483648 := by omega
  obtain ⟨es, hrun, stores⟩ : ∃ es, (epfUerepRep host nofUes maxUes (some ues) p size).run m =
      some (((0 + 23 * (reported nofUes maxUes ues).length : Nat) : Int), es) ∧
      es.stores = chunk p (encode ((reported nofUes maxUes ues).map ueToken)) :=
    uerepFill_emits fits bound m
  rw [Nat.zero_add] at hrun
  refine ⟨_, es, hrun, fun w hw => ?_, iff_of_true rfl room, by omega⟩
  have := chunk_bounds (stores ▸ hw)
  rw [encode_ueTokens_length] at this
  omega

theorem epfUerepRep_wraps (room : 23 * (reported nofUes maxUes ues).length ≤ size.toNat)
    (int : 2147483648 ≤ 23 * (reported nofUes maxUes ues).length) :
    ¬ ReportFits ((epfUerepRep host nofUes maxUes (some ues) p size).run m) p size.toNat
      (reported nofUes maxUes ues).length := by
  intro fits
  obtain ⟨ws, emits⟩ := epfUerepRep_returns host nofUes maxUes ues p size
  rw [if_pos (by omega)] at emits
  obtain ⟨es, hrun, -⟩ := emits m
  have value := ((Code.exists_run_iff hrun _).mp fits).2.1.mpr room
  have := size.toNat_lt
  have negative : toInt32 ((23 * (reported nofUes maxUes ues).length : Nat) : Int) < 0 :=
    toInt32_neg (by omega) (by omega)
  omega

theorem epfUerepRep_stops (short : size.toNat < 23 * (reported nofUes maxUes ues).length)
    (rest : size.toNat % 23 < 19) :
    ReportFits ((epfUerepRep host nofUes maxUes (some ues) p size).run m) p size.toNat
      (reported nofUes maxUes ues).length := by
  have short' : p + size.toNat < p + 23 * (reported nofUes maxUes ues).length := by omega
  have rest' : (p + size.toNat - p) % 23 < 19 := by rwa [Nat.add_sub_cancel_left]
  obtain ⟨ws, emits, inside⟩ : ∃ ws,
      Emits (epfUerepRep host nofUes maxUes (some ues) p size) (-1) ws ∧
        ∀ w ∈ ws, p ≤ w.1 ∧ w.1 < p + size.toNat :=
    uerepFill_stops (Nat.le_add_right _ _) short' rest'
  obtain ⟨es, hrun, stores⟩ := emits m
  exact ⟨_, es, hrun, by rwa [Trace.WritesIn, stores], iff_of_false (by omega) (by omega),
    fun _ => rfl⟩

theorem epfUerepRep_overruns
    (short : size.toNat < 23 * (reported nofUes maxUes ues).length)
    (rest : 19 ≤ size.toNat % 23) :
    ¬ ReportFits ((epfUerepRep host nofUes maxUes (some ues) p size).run m) p size.toNat
      (reported nofUes maxUes ues).length := by
  intro fits
  have short : p + size.toNat < p + 23 * (reported nofUes maxUes ues).length := by omega
  have rest : 19 ≤ (p + size.toNat - p) % 23 := by rwa [Nat.add_sub_cancel_left]
  obtain ⟨r, ws, emits, w, hw, outside⟩ : ∃ r ws,
      Emits (epfUerepRep host nofUes maxUes (some ues) p size) r ws ∧
        ∃ w ∈ ws, p + size.toNat ≤ w.1 := uerepFill_overruns (Nat.le_add_right _ _) short rest
  obtain ⟨es, hrun, stores⟩ := emits m
  have inside := ((Code.exists_run_iff hrun _).mp fits).1 w (stores ▸ hw)
  omega

end

/-- The space test of the UE report leaves out the header of the token: the report is
written as it should unless 19 to 22 bytes are left over by the last whole token, or
the length is no `int`. -/
theorem ueReport_fits_iff (host : ByteOrder) (nofUes maxUes : UInt32) (ues : Nat → EpUeDetails)
    (p : Nat) (size : UInt32) (m : Mem) :
    ReportFits ((epfUerepRep host nofUes maxUes (some ues) p size).run m) p size.toNat
        (reported nofUes maxUes ues).length ↔
      (23 * (reported nofUes maxUes ues).length ≤ size.toNat ∧
        23 * (reported nofUes maxUes ues).length < 2147483648) ∨
      (size.toNat < 23 * (reported nofUes maxUes ues).length ∧ size.toNat % 23 < 19) := by
  by_cases room : 23 * (reported nofUes maxUes ues).length ≤ size.toNat
  · by_cases int : 23 * (reported nofUes maxUes ues).length < 2147483648
    · exact iff_of_true (epfUerepRep_fits room int) (.inl ⟨room, int⟩)
    · exact iff_of_false (epfUerepRep_wraps room (Nat.le_of_not_lt int)) (by omega)
  · have short := Nat.lt_of_not_le room
    by_cases rest : size.toNat % 23 < 19
    · exact iff_of_true (epfUerepRep_stops short rest) (.inr ⟨short, rest⟩)
    · exact iff_of_false (epfUerepRep_overruns short (Nat.le_of_not_lt rest)) (by omega)

/-- The report about one UE is written into 19 bytes, four of it behind them. -/
theorem ueReport_not_reportFits :
    ¬ ReportFits ((epfUerepRep .little 1 1 (some oneUe) 0 19).run (Mem.ofBytes [])) 0
      (19 : UInt32).toNat (reported 1 1 oneUe).length :=
  epfUerepRep_overruns (by decide) (by decide)

end Emproto
