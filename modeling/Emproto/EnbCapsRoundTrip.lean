import Emproto.EnbCapsRun
import Emproto.TokenBytes

/-! eNB capabilities from formatter to parser. The parser cuts the number of
slices, and, as it is given the size of the whole message for its body, it goes on
with the 27 bytes behind the message. -/

namespace Emproto

theorem cutSlices_little (n : UInt16) : cutSlices .little n = 0 := by
  have high (w : UInt16) : (ntohl .little w.toUInt32).toUInt16 = 0 := by
    have short : w.toUInt32.toNat < 65536 := w.toNat_lt
    have top : w.toUInt32.toNat / 256 / 256 = 0 := by omega
    apply UInt16.toNat_inj.mp
    change (UInt32.ofNat (ofLittleBytes (littleBytes 4 w.toUInt32.toNat).reverse)).toNat % 65536 = 0
    simp only [littleBytes, top, Nat.zero_div, List.reverse_cons, List.reverse_nil,
      List.nil_append, List.cons_append, ofLittleBytes, UInt32.toNat_ofNat', UInt8.toNat_ofNat']
    omega
  exact high _

theorem cutSlices_big (n : UInt16) : cutSlices .big n = n := by
  rw [cutSlices, htons, hton_big, ntohl, ntoh_big]
  simp

theorem cutSlices_eq_iff (host : ByteOrder) (n : UInt16) :
    cutSlices host n = n ↔ (host = .little → n = 0) := by
  cases host with
  | little =>
    rw [cutSlices_little, eq_comm]
    simp
  | big => simp [cutSlices_big]

def EpRanDet.cut (host : ByteOrder) (ran : EpRanDet) : EpRanDet :=
  { ran with maxSlices := cutSlices host ran.maxSlices }

theorem EpRanDet.cut_eq_iff (host : ByteOrder) (ran : EpRanDet) :
    ran.cut host = ran ↔ (host = .little → ran.maxSlices = 0) := by
  rw [← cutSlices_eq_iff]
  apply Iff.intro
  · intro h
    exact congrArg EpRanDet.maxSlices h
  · intro h
    rw [EpRanDet.cut, h]

section Tokens
variable {m : Mem} {c : Nat}

theorem cell_of_cellToken {cell : EpCellDet} (h : m.Holds c (cellToken cell).bytes) :
    IsCellCap m c ∧ cellAt m c = cell := by
  obtain ⟨type, _, body⟩ := Token.holds_bytes.mp h
  simp only [cellToken, Mem.holds_append, Word.bytes_length, Word.width, Nat.add_assoc,
    Nat.reduceAdd] at body
  obtain ⟨pci, feat, dlEarfcn, dlPrbs, ulEarfcn, ulPrbs, maxUes⟩ := body
  refine ⟨type, ?_⟩
  rw [cellAt, Mem.be, Mem.word_of_holds pci, Mem.be, Mem.word_of_holds feat, Mem.be,
    Mem.word_of_holds dlEarfcn, Mem.be, Mem.word_of_holds ulEarfcn, Mem.be,
    Mem.word_of_holds maxUes, ← Mem.word_uint8 m .big, Mem.word_of_holds dlPrbs,
    ← Mem.word_uint8 m .big, Mem.word_of_holds ulPrbs]

theorem ran_of_ranToken {ran : EpRanDet} (host : ByteOrder) (h : m.Holds c (ranToken ran).bytes) :
    IsRanCap m c ∧ ranAt m host c = ran.cut host := by
  obtain ⟨type, _, body⟩ := Token.holds_bytes.mp h
  simp only [ranToken, Mem.holds_append, Word.bytes_length, Word.width, Nat.add_assoc,
    Nat.reduceAdd] at body
  obtain ⟨pci, l1, l2, l3, sched, slices⟩ := body
  refine ⟨type, ?_⟩
  rw [ranAt, Mem.be, Mem.word_of_holds pci, Mem.be, Mem.word_of_holds l1, Mem.be,
    Mem.word_of_holds l2, Mem.be, Mem.word_of_holds l3, Mem.be, Mem.word_of_holds sched, Mem.be,
    Mem.word_of_holds slices, EpRanDet.cut]

theorem cellsFound_starts {det : EpEnbDet} (h : m.Holds c (encode (capTokens det))) :
    cellsFound m (starts c (capTokens det)) = det.cellArray.list := by
  rw [capTokens, encode_append] at h
  obtain ⟨cells, rans⟩ := Mem.holds_append.mp h
  have first : cellsFound m (starts c (det.cellArray.list.map cellToken)) =
      det.cellArray.list.filterMap some := by
    refine filterMap_starts (fun cell _ c held => ?_) cells
    have token := cell_of_cellToken held
    rw [if_pos token.1, token.2]
  have second (c : Nat) (h : m.Holds c (encode (det.ranArray.list.map ranToken))) :
      cellsFound m (starts c (det.ranArray.list.map ranToken)) =
        det.ranArray.list.filterMap fun _ => none := by
    refine filterMap_starts (fun ran _ c held => ?_) h
    have token := (ran_of_ranToken .big held).1
    rw [if_neg fun cell => ranCap_ne_cellCap (token.symm.trans cell)]
  rw [capTokens, starts_append, cellsFound, List.filterMap_append]
  change cellsFound m _ ++ cellsFound m _ = _
  rw [first, second _ rans]
  simp

theorem ransFound_starts (host : ByteOrder) {det : EpEnbDet}
    (h : m.Holds c (encode (capTokens det))) :
    ransFound m host (starts c (capTokens det)) = det.ranArray.list.map (EpRanDet.cut host) := by
  rw [capTokens, encode_append] at h
  obtain ⟨cells, rans⟩ := Mem.holds_append.mp h
  have first : ransFound m host (starts c (det.cellArray.list.map cellToken)) =
      det.cellArray.list.filterMap fun _ => none := by
    refine filterMap_starts (fun cell _ c held => ?_) cells
    have token := (cell_of_cellToken held).1
    rw [if_neg fun ran => ranCap_ne_cellCap (ran.symm.trans token)]
  have second (c : Nat) (h : m.Holds c (encode (det.ranArray.list.map ranToken))) :
      ransFound m host (starts c (det.ranArray.list.map ranToken)) =
        det.ranArray.list.filterMap (some ∘ EpRanDet.cut host) := by
    refine filterMap_starts (fun ran _ c held => ?_) h
    have token := ran_of_ranToken host held
    rw [if_pos token.1, token.2]
    rfl
  rw [capTokens, starts_append, ransFound, List.filterMap_append]
  change ransFound m host _ ++ ransFound m host _ = _
  rw [first, second _ rans, List.filterMap_eq_map]
  simp

end Tokens

theorem cut_list_eq_iff (host : ByteOrder) (det : EpEnbDet) :
    det.ranArray.list.map (EpRanDet.cut host) = det.ranArray.list ↔
      (host = .little → ∀ i < det.nofRan.toNat, (det.ran i).maxSlices = 0) := by
  have all : det.ranArray.list.map (EpRanDet.cut host) = det.ranArray.list ↔
      ∀ ran ∈ det.ranArray.list, ran.cut host = ran := by
    conv_lhs => rw [← List.map_id det.ranArray.list, List.map_map]
    exact List.map_inj_left
  rw [all, CountedArray.list, List.forall_mem_map]
  simp only [EpRanDet.cut_eq_iff, List.mem_range]
  exact ⟨fun h little i hi => h i hi little, fun h i hi little => h little i hi⟩

/-- The run succeeds and leaves the cells and RAN entries of `det`, in order. -/
def EnbRestores (run : Option ((Int × Option EpEnbDet) × Trace)) (det : EpEnbDet) : Prop :=
  ∃ det' es, run = some ((epSuccess, some det'), es) ∧
    det'.cellArray.Same det.cellArray ∧ det'.ranArray.Same det.ranArray

/-- The tokens found in the 27 bytes behind a message of `n` bytes. -/
def behind (m : Mem) (b n : Nat) : List Nat := (m.walker true (b + n + 27)).walk (b + n)

theorem walk_received {m : Mem} {b n : Nat} {det : EpEnbDet}
    (h : m.Holds (b + 27) (encode (capTokens det)))
    (hn : n = 27 + (encode (capTokens det)).length) :
    (m.walker true (b + 24 + 3 + n)).walk (b + 24 + 3) =
      starts (b + 27) (capTokens det) ++ behind m b n := by
  have stop : b + 27 + (encode (capTokens det)).length = b + n := by omega
  rw [show b + 24 + 3 + n = b + n + 27 by omega, show b + 24 + 3 = b + 27 by omega,
    walk_encode h (by rw [if_pos rfl]; omega), stop]
  rfl

theorem enbRestores_iff {m : Mem} {b n : Nat} {det : EpEnbDet} {host : ByteOrder}
    (h : m.Holds (b + 27) (encode (capTokens det))) (hn : n = 27 + (encode (capTokens det)).length)
    (cells : det.nofCells ≤ epEcapCellMax) (rans : det.nofRan ≤ epEcapCellMax) (old : EpEnbDet) :
    EnbRestores ((eppSingleEcapRep host (some b) (UInt32.ofNat n) (some old)).run m) det ↔
      (host = .little → ∀ i < det.nofRan.toNat, (det.ran i).maxSlices = 0) ∧
      (cellsFound m (behind m b n) = [] ∨ det.nofCells = epEcapCellMax) ∧
      (ransFound m host (behind m b n) = [] ∨ det.nofRan = epEcapCellMax) := by
  have few : det.nofCells.toNat ≤ 8 := UInt32.le_iff_toNat_le.mp cells
  have few' : det.nofRan.toNat ≤ 8 := UInt32.le_iff_toNat_le.mp rans
  have len := encode_capTokens_length det
  have size : (UInt32.ofNat n).toNat = n := uint32_toNat_ofNat (by omega)
  have run : (eppEcapRep host (b + 24 + 3) (UInt32.ofNat n) (some old)).run m = _ :=
    run_eppEcapRep m (b + 24 + 3) (UInt32.ofNat n) old
  rw [size, walk_received h hn] at run
  set os := starts (b + 27) (capTokens det) ++ behind m b n with hos
  set empty : EpEnbDet := { old with nofCells := 0, nofRan := 0 }
  set final := runSteps (ecapStep m host) os empty
  have arrays := runSteps_ecapStep m host os empty
  have found : cellsFound m os = det.cellArray.list ++ cellsFound m (behind m b n) := by
    rw [← cellsFound_starts h, hos, cellsFound, List.filterMap_append]
    rfl
  have found' : ransFound m host os =
      det.ranArray.list.map (EpRanDet.cut host) ++ ransFound m host (behind m b n) := by
    rw [← ransFound_starts host h, hos, ransFound, List.filterMap_append]
    rfl
  have cellsSame : final.cellArray.Same det.cellArray ↔
      cellsFound m (behind m b n) = [] ∨ det.nofCells = epEcapCellMax := by
    rw [arrays.1, found, CountedArray.same_foldl_push_iff rfl (CountedArray.list_length _) cells,
      and_iff_right rfl]
    rfl
  have ransSame : final.ranArray.Same det.ranArray ↔
      (host = .little → ∀ i < det.nofRan.toNat, (det.ran i).maxSlices = 0) ∧
        (ransFound m host (behind m b n) = [] ∨ det.nofRan = epEcapCellMax) := by
    rw [arrays.2, found', CountedArray.same_foldl_push_iff rfl (by simp) rans, cut_list_eq_iff]
    rfl
  have restored : EnbRestores ((eppSingleEcapRep host (some b) (UInt32.ofNat n)
      (some old)).run m) det ↔ final.cellArray.Same det.cellArray ∧
        final.ranArray.Same det.ranArray := by
    apply Iff.intro
    · intro h
      obtain ⟨det', es, hrun, same⟩ := h
      cases run.symm.trans hrun
      exact same
    · intro same
      exact ⟨final, _, run, same⟩
  rw [restored, cellsSame, ransSame, and_left_comm]

theorem epfSingleEcapRep_emits (host : ByteOrder) (b : Nat) (size : UInt32) (ids : EpHdrId)
    {det : EpEnbDet} (cells : det.nofCells ≤ epEcapCellMax) (rans : det.nofRan ≤ epEcapCellMax)
    (room : 27 + 18 * det.nofCells.toNat + 24 * det.nofRan.toNat ≤ size.toNat) :
    ∃ ws, Emits (epfSingleEcapRep host (some b) size ids (some det))
        ((27 + (encode (capTokens det)).length : Nat) : Int) ws ∧
      ∀ m : Mem, (m.patch ws).Holds (b + 27) (encode (capTokens det)) := by
  have few : det.nofCells.toNat ≤ 8 := UInt32.le_iff_toNat_le.mp cells
  have few' : det.nofRan.toNat ≤ 8 := UInt32.le_iff_toNat_le.mp rans
  have len := encode_capTokens_length det
  have space : (size - UInt32.ofNat 27).toNat = size.toNat - 27 := uint32_sub_toNat (by omega)
  have body := epfEcapRep_emits host (b + 27) cells rans
    (show (encode (capTokens det)).length ≤ (size - UInt32.ofNat 27).toNat by omega)
  obtain ⟨ws, emits, holds, -⟩ := formatMessage_body (by omega) body (Lays.chunk _ _) rfl
    (by omega)
  exact ⟨ws, emits, holds⟩

/-- Capabilities that were formatted and received restore the record exactly if a
little-endian receiver is sent no number of slices but zero and the 27 bytes behind
the message, which the parser walks too, hold no cell and no RAN token for which
the record has room. -/
theorem enbCaps_restored_iff (host host' : ByteOrder) (b : Nat) (size : UInt32) (ids : EpHdrId)
    (det : EpEnbDet) (m : Mem) (cells : det.nofCells ≤ epEcapCellMax)
    (rans : det.nofRan ≤ epEcapCellMax)
    (room : 27 + 18 * det.nofCells.toNat + 24 * det.nofRan.toNat ≤ size.toNat) :
    ∃ (n : Nat) (es : Trace),
      (epfSingleEcapRep host (some b) size ids (some det)).run m = some ((n : Int), es) ∧
      ∀ (m' : Mem) (b' : Nat), (m.patch es.stores).Received b m' b' n → ∀ old : EpEnbDet,
        (EnbRestores ((eppSingleEcapRep host' (some b') (UInt32.ofNat n) (some old)).run m') det ↔
          (host' = .little → ∀ i < det.nofRan.toNat, (det.ran i).maxSlices = 0) ∧
          (cellsFound m' (behind m' b' n) = [] ∨ det.nofCells = epEcapCellMax) ∧
          (ransFound m' host' (behind m' b' n) = [] ∨ det.nofRan = epEcapCellMax)) := by
  obtain ⟨ws, emits, holds⟩ := epfSingleEcapRep_emits host b size ids cells rans room
  obtain ⟨es, hrun, stores⟩ := emits m
  refine ⟨_, es, hrun, fun m' b' received old => ?_⟩
  have body : m'.Holds (b' + 27) (encode (capTokens det)) :=
    (stores ▸ holds m).received received le_rfl
  exact enbRestores_iff body rfl cells rans old

def smallEnb (slices : UInt16) : EpEnbDet where
  cells := fun _ => ⟨3, 1, 1750, 19750, 50, 50, 30⟩
  nofCells := 1
  ran := fun _ => ⟨3, 1, 1, 0, 1, slices⟩
  nofRan := 1

theorem enbCaps_restored_smallEnb :
    ∃ (n : Nat) (es : Trace),
      (epfSingleEcapRep .little (some 0) 128 ⟨1, 2, 3⟩ (some (smallEnb 0))).run (fun _ => 0) =
        some ((n : Int), es) ∧
      ∀ (m' : Mem) (b' : Nat), (Mem.patch (fun _ => 0) es.stores).Received 0 m' b' n →
        behind m' b' n = [] → ∀ old : EpEnbDet,
        EnbRestores ((eppSingleEcapRep .little (some b') (UInt32.ofNat n) (some old)).run m')
          (smallEnb 0) := by
  obtain ⟨n, es, hrun, restored⟩ := enbCaps_restored_iff .little .little 0 128 ⟨1, 2, 3⟩
    (smallEnb 0) (fun _ => 0) (by decide) (by decide) (by decide)
  refine ⟨n, es, hrun, fun m' b' received quiet old => ?_⟩
  refine (restored m' b' received old).mpr ⟨fun _ _ _ => rfl, .inl ?_, .inl ?_⟩
  · rw [quiet]
    rfl
  · rw [quiet]
    rfl

/-- Four slices do not arrive at a little-endian host. -/
theorem enbCaps_smallEnb_not_restored :
    ∃ (n : Nat) (es : Trace),
      (epfSingleEcapRep .little (some 0) 128 ⟨1, 2, 3⟩ (some (smallEnb 4))).run (fun _ => 0) =
        some ((n : Int), es) ∧
      ¬ EnbRestores ((eppSingleEcapRep .little (some 0) (UInt32.ofNat n) (some (smallEnb 0))).run
        (Mem.patch (fun _ => 0) es.stores)) (smallEnb 4) := by
  obtain ⟨ws, emits, holds⟩ := epfSingleEcapRep_emits .little 0 128 ⟨1, 2, 3⟩
    (show (smallEnb 4).nofCells ≤ epEcapCellMax by decide)
    (show (smallEnb 4).nofRan ≤ epEcapCellMax by decide) (by decide)
  obtain ⟨es, hrun, stores⟩ := emits fun _ => 0
  refine ⟨_, es, hrun, fun restored => ?_⟩
  have slices := ((enbRestores_iff (stores ▸ holds _) rfl (by decide) (by decide) _).mp
    restored).1 rfl 0 (by decide)
  exact absurd slices (by decide)

end Emproto
