import Emproto.EnbCaps
import Emproto.CountedArray

/-! Runs of the capabilities formatter and parser in closed form. The parser
appends to the two lists of its record, each up to eight entries. -/

namespace Emproto

section Format
variable {host : ByteOrder}

def cellToken (cell : EpCellDet) : Token where
  type := EpTLVType.cellCap.code
  body := Word.bytes .big cell.pci ++ (Word.bytes .big cell.feat ++
    (Word.bytes .big cell.dlEarfcn ++ (Word.bytes .big cell.dlPrbs ++
      (Word.bytes .big cell.ulEarfcn ++ (Word.bytes .big cell.ulPrbs ++
        Word.bytes .big cell.maxUes)))))
  short := by simp [Word.width]

def ranToken (ran : EpRanDet) : Token where
  type := EpTLVType.ranCap.code
  body := Word.bytes .big ran.pci ++ (Word.bytes .big ran.l1Mask ++
    (Word.bytes .big ran.l2Mask ++ (Word.bytes .big ran.l3Mask ++
      (Word.bytes .big ran.sliceSched ++ Word.bytes .big ran.maxSlices))))
  short := by simp [Word.width]

@[simp] theorem cellToken_length (cell : EpCellDet) : (cellToken cell).bytes.length = 18 := by
  simp [Token.bytes, cellToken, Word.width]

@[simp] theorem ranToken_length (ran : EpRanDet) : (ranToken ran).bytes.length = 24 := by
  simp [Token.bytes, ranToken, Word.width]

theorem putCellCap_emits (cells : Nat → EpCellDet) (i c : Nat) :
    Emits (putCellCap host cells i c) () (chunk c (cellToken (cells i)).bytes) := by
  refine Emits.of_eq (Emits.store.bind <| Emits.store.bind <| Emits.store.bind <|
    Emits.store.bind <| Emits.store.bind <| Emits.store.bind <| Emits.store.bind <|
    Emits.store.bind Emits.store) ?_
  simp [Token.bytes, tokenBytes, cellToken, chunk_append, chunk, Word.width, bytes_uint8,
    Nat.add_assoc]

theorem putRanCap_emits (ran : Nat → EpRanDet) (i c : Nat) :
    Emits (putRanCap host ran i c) () (chunk c (ranToken (ran i)).bytes) := by
  refine Emits.of_eq (Emits.store.bind <| Emits.store.bind <| Emits.store.bind <|
    Emits.store.bind <| Emits.store.bind <| Emits.store.bind <| Emits.store.bind Emits.store) ?_
  simp [Token.bytes, tokenBytes, ranToken, chunk_append, Word.width, Nat.add_assoc]

end Format

def EpEnbDet.cellArray (det : EpEnbDet) : CountedArray EpCellDet := ⟨det.cells, det.nofCells⟩

def EpEnbDet.ranArray (det : EpEnbDet) : CountedArray EpRanDet := ⟨det.ran, det.nofRan⟩

def capTokens (det : EpEnbDet) : List Token :=
  det.cellArray.list.map cellToken ++ det.ranArray.list.map ranToken

theorem encode_capTokens_length (det : EpEnbDet) :
    (encode (capTokens det)).length = 18 * det.nofCells.toNat + 24 * det.nofRan.toNat := by
  rw [capTokens, encode_append, List.length_append, encode_length_const cellToken_length,
    encode_length_const ranToken_length, CountedArray.list_length, CountedArray.list_length]
  rfl

theorem epfEcapRep_emits (host : ByteOrder) (buf : Nat) {size : UInt32} {det : EpEnbDet}
    (cells : det.nofCells ≤ epEcapCellMax) (ran : det.nofRan ≤ epEcapCellMax)
    (fits : (encode (capTokens det)).length ≤ size.toNat) :
    Emits (epfEcapRep host (some det) buf size) ((encode (capTokens det)).length : Int)
      (chunk buf (encode (capTokens det))) := by
  have cells' : det.nofCells.toNat ≤ epEcapCellMax.toNat := UInt32.le_iff_toNat_le.mp cells
  have ran' : det.nofRan.toNat ≤ epEcapCellMax.toNat := UInt32.le_iff_toNat_le.mp ran
  have len := encode_capTokens_length det
  have eight : epEcapCellMax.toNat = 8 := rfl
  have first : Emits (fillTokens 18 (putCellCap host det.cells) (buf + size.toNat)
      det.nofCells.toNat 0 buf) (some (buf + 18 * det.nofCells.toNat))
      (chunk buf (encode (det.cellArray.list.map cellToken))) := by
    rw [CountedArray.list, List.range_eq_range', List.map_map]
    exact fillTokens_emits (putCellCap_emits det.cells) (fun _ => cellToken_length _) (by omega)
  have second : Emits (fillTokens 24 (putRanCap host det.ran) (buf + size.toNat)
      det.nofRan.toNat 0 (buf + 18 * det.nofCells.toNat))
      (some (buf + 18 * det.nofCells.toNat + 24 * det.nofRan.toNat))
      (chunk (buf + 18 * det.nofCells.toNat) (encode (det.ranArray.list.map ranToken))) := by
    rw [CountedArray.list, List.range_eq_range', List.map_map]
    exact fillTokens_emits (putRanCap_emits det.ran) (fun _ => ranToken_length _) (by omega)
  have total : buf + 18 * det.nofCells.toNat + 24 * det.nofRan.toNat - buf =
      (encode (capTokens det)).length := by omega
  have done : Emits (pure (toInt32 ((buf + 18 * det.nofCells.toNat + 24 * det.nofRan.toNat - buf :
      Nat) : Int)) : Code Int) ((encode (capTokens det)).length : Int) [] := by
    rw [total, toInt32_of_lt (by omega) (by omega)]
    exact .pure _
  rw [epfEcapRep, Nat.min_eq_left cells', Nat.min_eq_left ran']
  refine Emits.of_eq (first.bind (second.bind done)) ?_
  rw [List.append_nil, capTokens, encode_append, chunk_append,
    encode_length_const cellToken_length, CountedArray.list_length]
  rfl

section Parse
variable {host : ByteOrder} (m : Mem)

abbrev IsCellCap (c : Nat) : Prop := m.be c = EpTLVType.cellCap.code

abbrev IsRanCap (c : Nat) : Prop := m.be c = EpTLVType.ranCap.code

def cellAt (c : Nat) : EpCellDet where
  pci := m.be (c + 4)
  feat := m.be (c + 6)
  dlEarfcn := m.be (c + 10)
  ulEarfcn := m.be (c + 13)
  dlPrbs := m (c + 12)
  ulPrbs := m (c + 15)
  maxUes := m.be (c + 16)

/-- What the parser on the given host makes of a number of slices. -/
def cutSlices (host : ByteOrder) (n : UInt16) : UInt16 :=
  (ntohl host (htons host n).toUInt32).toUInt16

def ranAt (host : ByteOrder) (c : Nat) : EpRanDet where
  pci := m.be (c + 4)
  l1Mask := m.be (c + 6)
  l2Mask := m.be (c + 10)
  l3Mask := m.be (c + 14)
  sliceSched := m.be (c + 18)
  maxSlices := cutSlices host (m.be (c + 22))

/-- Effect of `epp_ecap_single_TLV` at `c`. -/
def ecapStep (host : ByteOrder) (c : Nat) (det : EpEnbDet) : EpEnbDet :=
  if IsCellCap m c then
    let cells := det.cellArray.push epEcapCellMax (cellAt m c)
    { det with cells := cells.entry, nofCells := cells.count }
  else if IsRanCap m c then
    let ran := det.ranArray.push epEcapCellMax (ranAt m host c)
    { det with ran := ran.entry, nofRan := ran.count }
  else det

def ecapTrace (c : Nat) (det : EpEnbDet) : Trace :=
  .call c :: (Code.loadTrace c 2 ++
    if IsCellCap m c then
      if det.nofCells ≥ epEcapCellMax then []
      else Code.loadTrace (c + 4) 2 ++ (Code.loadTrace (c + 6) 4 ++ (Code.loadTrace (c + 10) 2 ++
        (Code.loadTrace (c + 12) 1 ++ (Code.loadTrace (c + 13) 2 ++ (Code.loadTrace (c + 15) 1 ++
          Code.loadTrace (c + 16) 2)))))
    else if IsRanCap m c then
      if det.nofRan ≥ epEcapCellMax then []
      else Code.loadTrace (c + 4) 2 ++ (Code.loadTrace (c + 6) 4 ++ (Code.loadTrace (c + 10) 4 ++
        (Code.loadTrace (c + 14) 4 ++ (Code.loadTrace (c + 22) 2 ++ Code.loadTrace (c + 18) 4))))
    else [])

theorem ecapTrace_handles (c : Nat) (det : EpEnbDet) : (ecapTrace m c det).Handles c := by
  refine Trace.Plain.handles ?_ c
  split_ifs <;> simp

theorem run_eppEcapSingleTLV (c : Nat) (det : EpEnbDet) :
    (eppEcapSingleTLV host c det).run m =
      some ((0, ecapStep m host c det), ecapTrace m c det) := by
  rw [eppEcapSingleTLV, Code.run_note_bind m rfl, Code.run_load_bind]
  simp only [Mem.ntoh_word]
  by_cases cell : m.be c = EpTLVType.cellCap.code
  · rw [if_pos cell, ecapStep, if_pos cell, ecapTrace, if_pos cell]
    by_cases full : det.nofCells ≥ epEcapCellMax
    · have kept : det.cellArray.push epEcapCellMax (cellAt m c) = det.cellArray := if_pos full
      rw [if_pos full, if_pos full, kept]
      rfl
    · have grown : det.cellArray.push epEcapCellMax (cellAt m c) =
          ⟨Function.update det.cells det.nofCells.toNat (cellAt m c), det.nofCells + 1⟩ :=
        if_neg full
      rw [if_neg full, if_neg full, grown]
      simp only [Code.run_load_bind, Mem.ntoh_word, Mem.word_uint8]
      rfl
  · rw [if_neg cell, ecapStep, if_neg cell, ecapTrace, if_neg cell]
    by_cases ran : m.be c = EpTLVType.ranCap.code
    · rw [if_pos ran, if_pos ran, if_pos ran]
      by_cases full : det.nofRan ≥ epEcapCellMax
      · have kept : det.ranArray.push epEcapCellMax (ranAt m host c) = det.ranArray := if_pos full
        rw [if_pos full, if_pos full, kept]
        rfl
      · have grown : det.ranArray.push epEcapCellMax (ranAt m host c) =
            ⟨Function.update det.ran det.nofRan.toNat (ranAt m host c), det.nofRan + 1⟩ :=
          if_neg full
        rw [if_neg full, if_neg full, grown]
        have slices : htons host (m.be (c + 22)) = m.word host (c + 22) :=
          (Mem.word_eq_hton m host (c + 22)).symm
        simp only [Code.run_load_bind, Mem.ntoh_word, ranAt, cutSlices, slices]
        rfl
    · rw [if_neg ran, if_neg ran, if_neg ran]
      rfl

theorem run_eppEcapRep (buf : Nat) (size : UInt32) (det : EpEnbDet) :
    (eppEcapRep host buf size (some det)).run m =
      some ((0, some (runSteps (ecapStep m host)
          ((m.walker true (buf + size.toNat)).walk buf) { det with nofCells := 0, nofRan := 0 })),
        .enter buf size.toNat :: loopTrace (m.walker true (buf + size.toNat)) (ecapStep m host)
          (ecapTrace m) buf { det with nofCells := 0, nofRan := 0 }) := by
  rw [eppEcapRep, Code.run_note_bind m rfl]
  dsimp only
  rw [run_tokenLoop_bind (ecapStep m host) (run_eppEcapSingleTLV m)
    (fun c det => (ecapTrace_handles m c det).stores) (by omega)]
  simp

def cellsFound (os : List Nat) : List EpCellDet :=
  os.filterMap fun o => if IsCellCap m o then some (cellAt m o) else none

def ransFound (host : ByteOrder) (os : List Nat) : List EpRanDet :=
  os.filterMap fun o => if IsRanCap m o then some (ranAt m host o) else none

theorem ranCap_ne_cellCap : EpTLVType.ranCap.code ≠ EpTLVType.cellCap.code := by decide

theorem ecapStep_arrays (host : ByteOrder) (c : Nat) (det : EpEnbDet) :
    (ecapStep m host c det).cellArray =
        (if IsCellCap m c then det.cellArray.push epEcapCellMax (cellAt m c) else det.cellArray) ∧
      (ecapStep m host c det).ranArray =
        (if IsRanCap m c then det.ranArray.push epEcapCellMax (ranAt m host c)
          else det.ranArray) := by
  unfold ecapStep
  by_cases cell : IsCellCap m c
  · have other : ¬ IsRanCap m c := fun ran => ranCap_ne_cellCap (ran.symm.trans cell)
    rw [if_pos cell, if_pos cell, if_neg other]
    exact ⟨rfl, rfl⟩
  · by_cases ran : IsRanCap m c
    · rw [if_neg cell, if_pos ran, if_neg cell, if_pos ran]
      exact ⟨rfl, rfl⟩
    · rw [if_neg cell, if_neg ran, if_neg cell, if_neg ran]
      exact ⟨rfl, rfl⟩

theorem runSteps_ecapStep (host : ByteOrder) (os : List Nat) (det : EpEnbDet) :
    (runSteps (ecapStep m host) os det).cellArray =
        (cellsFound m os).foldl (CountedArray.push epEcapCellMax) det.cellArray ∧
      (runSteps (ecapStep m host) os det).ranArray =
        (ransFound m host os).foldl (CountedArray.push epEcapCellMax) det.ranArray := by
  induction os generalizing det with
  | nil => exact ⟨rfl, rfl⟩
  | cons o os ih =>
    have step := ecapStep_arrays m host o det
    have rest := ih (ecapStep m host o det)
    rw [runSteps_cons, rest.1, rest.2, step.1, step.2, cellsFound, cellsFound, ransFound,
      ransFound, List.filterMap_cons, List.filterMap_cons]
    refine ⟨?_, ?_⟩ <;> split_ifs <;> rfl

end Parse

end Emproto
