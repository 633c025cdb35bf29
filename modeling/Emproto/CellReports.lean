import Emproto.ExactFits
import Emproto.WireRoundTrips

/-! Cell measurement reports over both carriers. The headers in front of the report differ
in length; a report of a cell without resources has no token. -/

namespace Emproto

def prbBytes (prb : EpCellPrbInfo) : List UInt8 :=
  [prb.dlPrbs] ++ (Word.bytes .big prb.dlPrbsUsed ++ ([prb.ulPrbs] ++
    Word.bytes .big prb.ulPrbsUsed))

theorem prb_short (prb : EpCellPrbInfo) : (prbBytes prb).length < 65536 := by
  simp [prbBytes, Word.width]

def prbToken (prb : EpCellPrbInfo) : Token where
  type := EpTLVType.cellPrbReport.code
  body := prbBytes prb
  short := prb_short prb

namespace EpCellRep

instance (info : EpCellRep) : Decidable info.carries := inferInstanceAs (Decidable (_ ∨ _))

def tokens (info : EpCellRep) : List Token := if info.carries then [prbToken info.prb] else []

def carried (info : EpCellRep) : EpCellRep := if info.carries then info else zero

theorem encode_tokens_length (info : EpCellRep) :
    (encode info.tokens).length = if info.carries then 14 else 0 := by
  unfold tokens
  split
  · simp [Token.bytes, prbToken, prbBytes, Word.width]
  · rfl

end EpCellRep

section Body
variable {host : ByteOrder} {m : Mem} {p : Nat} {size : UInt32} {info : EpCellRep}

theorem epfCellMeasRep_tokens (s : UInt32) (info : EpCellRep) :
    Emits (epfCellMeasRep host info p s) ((encode info.tokens).length : Int)
      (chunk p (encode info.tokens)) := by
  rw [EpCellRep.encode_tokens_length, EpCellRep.tokens]
  by_cases some : info.carries
  · rw [if_pos some, if_pos some, encode_cons, encode_nil, List.append_nil]
    exact epfCellMeasRep_emits s some
  · have none : ¬ (info.prb.dlPrbs ≠ 0 ∨ info.prb.ulPrbs ≠ 0) := some
    rw [if_neg some, if_neg some, epfCellMeasRep, if_neg none]
    exact .pure 0

theorem prbStep_prbToken {prb : EpCellPrbInfo} (h : m.Holds p (prbToken prb).bytes)
    (rep : EpCellRep) : prbStep m p rep = ⟨prb⟩ := by
  obtain ⟨type, -, body⟩ := Token.holds_bytes.mp h
  have body : m.Holds (p + 4) (prbBytes prb) := body
  simp only [prbBytes, Mem.holds_append, Word.bytes_length, Word.width, List.length_singleton,
    Nat.add_assoc, Nat.reduceAdd] at body
  obtain ⟨dl, dlUsed, ul, ulUsed⟩ := body
  have dl : m (p + 4) = prb.dlPrbs := (List.cons.inj dl).1
  have dlUsed : m.be (p + 5) = prb.dlPrbsUsed := Mem.word_of_holds dlUsed
  have ul : m (p + 9) = prb.ulPrbs := (List.cons.inj ul).1
  have ulUsed : m.be (p + 10) = prb.ulPrbsUsed := Mem.word_of_holds ulUsed
  rw [prbStep, type, dl, dlUsed, ul, ulUsed]
  rfl

theorem result_eppCellMeasRep (held : m.Holds p (encode info.tokens))
    (hsize : size.toNat = (encode info.tokens).length) (old : EpCellRep) :
    (eppCellMeasRep host (some p) size (some old)).result m =
      some (epSuccess, some info.carried) := by
  have walked : (m.walker false (p + size.toNat)).walk p = starts p info.tokens :=
    walk_encode_all held (by omega)
  rw [Code.result_of m (run_eppCellMeasRep m p size old), walked, EpCellRep.carried]
  unfold EpCellRep.tokens at held ⊢
  by_cases some : info.carries
  · rw [if_pos some] at held
    rw [encode_cons, encode_nil, List.append_nil] at held
    rw [if_pos some, if_pos some]
    rw [starts, starts, runSteps_cons, runSteps_nil, prbStep_prbToken held]
  · rw [if_neg some, if_neg some]
    rfl

end Body

/-- Both carriers deliver the report, or zeros for one that is not sent, whatever the record
held before; the scheduled one delivers the interval too. -/
theorem cellMeasRep_roundTrips (host host' : ByteOrder) (b : Nat) (size : UInt32)
    (room : 64 ≤ size.toNat) (ids : EpHdrId) (interval : UInt32) (info old : EpCellRep) (m : Mem) :
    RoundTrips (epfSchedCellMeasRep host (some b) size ids interval (some info)) b m
      (fun b' n => do
        let interval ← eppSchedInterval host' b' n
        let (status, rep) ← eppSchedCellMeasRep host' (some b') n (some old)
        pure (status, rep, interval)) (some info.carried, interval) ∧
    RoundTrips (epfTriggerCellMeasRep host (some b) size ids (some info)) b m
      (fun b' n => eppTriggerCellMeasRep host' (some b') n (some old)) (some info.carried) := by
  have small : (encode info.tokens).length ≤ 14 := by
    rw [info.encode_tokens_length]
    split <;> omega
  -- what the parsers leave for the body is the length of its tokens
  have whole (k : Nat) (hk : k ≤ 7) : (UInt32.ofNat (24 + k + (encode info.tokens).length)).toNat =
      24 + k + (encode info.tokens).length := uint32_toNat_ofNat (by omega)
  have rest (k : Nat) (hk : k ≤ 7) : (UInt32.ofNat (24 + k + (encode info.tokens).length) -
      UInt32.ofNat (24 + k)).toNat = (encode info.tokens).length := by
    rw [uint32_sub_toNat (by rw [whole k hk]; omega), whole k hk, Nat.add_sub_cancel_left]
  have space : (size - UInt32.ofNat 24).toNat = size.toNat - 24 := uint32_sub_toNat (by omega)
  apply And.intro
  · obtain ⟨es, hrun, arrived⟩ : ∃ es, (epfSchedCellMeasRep host (some b) size ids interval
        (some info)).run m = some (((24 + 7 + (encode info.tokens).length : Nat) : Int), es) ∧ _ :=
      formatMessage_arrives (encode info.tokens).length (scheduleBytes_length _ _ interval) rfl
        (by omega) (epfSchedule_emits (by omega)) (epfCellMeasRep_tokens _ info) (by omega) m
    refine ⟨_, es, hrun, fun m' b' received => ?_⟩
    obtain ⟨event, body⟩ := arrived m' b' received
    have value : m'.be (b' + 27) = interval := by
      rw [scheduleBytes, Mem.holds_append, eventBytes_length] at event
      exact Mem.word_of_holds event.2
    have report : (eppSchedCellMeasRep host' (some b') (UInt32.ofNat (24 + 7 +
        (encode info.tokens).length)) (some old)).result m' = some (epSuccess, some info.carried) :=
      result_eppCellMeasRep body (rest 7 le_rfl) old
    rw [Code.result_bind m' (run_eppSchedInterval m' b' _) (schedIntervalTrace_plain b' _).stores,
      schedInterval, if_neg (by rw [whole 7 le_rfl]; omega), value]
    refine (Code.result_bind_pure m' _ fun r : Int × Option EpCellRep =>
      (r.1, r.2, interval)).trans ?_
    rw [report]
    rfl
  · exact singleMessage_roundTrips (encode info.tokens).length rfl (by omega)
      (epfCellMeasRep_tokens _ info) (by omega)
      (fun m' b' held => result_eppCellMeasRep held (rest 3 (by decide)) old) m

theorem cellMeasRep_roundTrips_busy :
    RoundTrips (epfSchedCellMeasRep .little (some 0) 64 ⟨1, 2, 3⟩ 500 (some ⟨⟨100, 7, 0, 0⟩⟩)) 0
        (Mem.ofBytes []) (fun b' n => do
          let interval ← eppSchedInterval .big b' n
          let (status, rep) ← eppSchedCellMeasRep .big (some b') n (some ⟨⟨25, 1, 25, 1⟩⟩)
          pure (status, rep, interval)) (some ⟨⟨100, 7, 0, 0⟩⟩, 500) ∧
      RoundTrips (epfTriggerCellMeasRep .little (some 0) 64 ⟨1, 2, 3⟩ (some ⟨⟨0, 7, 0, 9⟩⟩)) 0
        (Mem.ofBytes []) (fun b' n => eppTriggerCellMeasRep .big (some b') n
          (some ⟨⟨25, 1, 25, 1⟩⟩)) (some .zero) :=
  ⟨(cellMeasRep_roundTrips .little .big 0 64 (by decide) ⟨1, 2, 3⟩ 500 ⟨⟨100, 7, 0, 0⟩⟩
      ⟨⟨25, 1, 25, 1⟩⟩ _).1,
    (cellMeasRep_roundTrips .little .big 0 64 (by decide) ⟨1, 2, 3⟩ 500 ⟨⟨0, 7, 0, 9⟩⟩
      ⟨⟨25, 1, 25, 1⟩⟩ _).2⟩

end Emproto
