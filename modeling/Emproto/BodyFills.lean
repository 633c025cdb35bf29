import Emproto.Fills
import Emproto.Hello
import Emproto.Handover
import Emproto.CellMeas
import Emproto.UeMeas
import Emproto.UeReport
import Emproto.EnbCaps

/-! The bodies of the messages as filled ranges. Every body formatter stores from its
own first byte on; all but the one of the measurement request leave no byte of
their result out. -/

namespace Emproto

def IsInt32 (r : Int) : Prop := -2147483648 ≤ r ∧ r < 2147483648

instance (r : Int) : Decidable (IsInt32 r) := inferInstanceAs (Decidable (_ ∧ _))

theorem isInt32_toInt32 (x : Int) : IsInt32 (toInt32 x) := by
  have low := Int.le_bmod (x := x) (m := 4294967296) (by decide)
  have high := Int.bmod_lt (x := x) (m := 4294967296) (by decide)
  exact ⟨by simpa [toInt32] using low, by simpa [toInt32] using high⟩

theorem toInt32_le {x : Int} (h : -2147483648 ≤ x) : toInt32 x ≤ x := by
  by_cases small : x < 2147483648
  · rw [toInt32_of_lt h small]
  · have := (isInt32_toInt32 x).2
    omega

theorem toInt32_neg {x : Int} (low : 2147483648 ≤ x) (high : x < 4294967296) :
    toInt32 x < 0 := by
  unfold toInt32
  rw [Int.bmod_def]
  split <;> omega

theorem toInt32_of_nonneg {x : Int} (low : 0 ≤ x) (high : x < 4294967296)
    (nonneg : 0 ≤ toInt32 x) : toInt32 x = x := by
  by_cases small : x < 2147483648
  · exact toInt32_of_lt (by omega) small
  · have := toInt32_neg (Int.le_of_not_gt small) high
    omega

/-- A body at `p` that ends with an `int` after stores from `p` on, which leave no byte
of the result out if `whole`. -/
def FillsBody (whole : Bool) (c : Code Int) (p : Nat) : Prop :=
  Fills c p IsInt32 fun r => p + if whole then r.toNat else 0

section Bodies
variable {host : ByteOrder} {p : Nat} {size : UInt32}

theorem pure_fills {r : Int} (hr : IsInt32 r) (h : r ≤ 0) : FillsBody true (pure r) p :=
  .pure hr (by simp; omega)

theorem guarded_fills {c : Prop} [Decidable c] {x : Code Int}
    (hx : Fills x p IsInt32 fun r => p + r.toNat) :
    FillsBody true (if c then pure (-1) else x) p :=
  .ite (fun _ => .pure (by decide) le_rfl) fun _ => hx

theorem formatHello_fills (id : UInt32) : FillsBody true (formatHello host id p size) p := by
  rw [formatHello]
  exact guarded_fills (.store_bind (.pure (by decide) le_rfl))

theorem epfHoRep_fills (originENB : UInt64) (originPci originRnti targetRnti : UInt16) :
    FillsBody true (epfHoRep host originENB originPci originRnti targetRnti p size) p := by
  rw [epfHoRep]
  exact guarded_fills <| .store_bind <| .store_bind <| .store_bind <| .store_bind <|
    .pure (by decide) le_rfl

theorem epfHoReq_fills (rnti : UInt16) (enb : UInt64) (pci : UInt16) (cause : UInt8) :
    FillsBody true (epfHoReq host rnti enb pci cause p size) p := by
  rw [epfHoReq]
  exact guarded_fills <| .store_bind <| .store_bind <| .store_bind <| .store_bind <|
    .pure (by decide) le_rfl

theorem epfCellMeasReq_fills : FillsBody true (epfCellMeasReq host p size) p := by
  rw [epfCellMeasReq]
  exact guarded_fills <| .store_bind <| .store_bind <| .pure (by decide) le_rfl

theorem epfCellMeasRep_fills (size : UInt32) (rep : EpCellRep) :
    FillsBody true (epfCellMeasRep host rep p size) p := by
  rw [epfCellMeasRep]
  refine .ite (fun _ => ?_) fun _ => .pure (by decide) le_rfl
  exact .store_bind <| .store_bind <| .store_bind <| .store_bind <| .store_bind <|
    .store_bind <| .pure (by decide) le_rfl

theorem epfUerepReq_fills : FillsBody true (epfUerepReq host p size) p := by
  rw [epfUerepReq]
  exact guarded_fills (.store_bind (.pure (by decide) le_rfl))

theorem formatSliceId_fills (id : UInt64) : FillsBody true (formatSliceId host id p size) p := by
  rw [formatSliceId]
  exact guarded_fills (.store_bind (.pure (by decide) le_rfl))

theorem epfRanEup_fills (det : EpRanDet) : FillsBody true (epfRanEup host det p size) p := by
  rw [epfRanEup]
  refine guarded_fills <| .store_bind <| .store_bind <| .store_bind <|
    .ite (fun _ => .ite (fun _ => .pure (by decide) (Nat.le_add_right p 12)) fun _ => ?_)
      fun _ => .pure (by decide) le_rfl
  exact .store_bind <| .store_bind <| .store_bind <| .pure (by decide) le_rfl

/-! Loops over an array of the caller. -/

theorem putCellCap_fills (cells : Nat → EpCellDet) (i c : Nat) :
    Fills (putCellCap host cells i c) c (fun _ => True) fun _ => c + 18 :=
  .store_bind <| .store_bind <| .store_bind <| .store_bind <| .store_bind <| .store_bind <|
    .store_bind <| .store_bind .store

theorem putRanCap_fills (ran : Nat → EpRanDet) (i c : Nat) :
    Fills (putRanCap host ran i c) c (fun _ => True) fun _ => c + 24 :=
  .store_bind <| .store_bind <| .store_bind <| .store_bind <| .store_bind <| .store_bind <|
    .store_bind .store

theorem swapped_fills (c : Nat) (v w : UInt16) :
    Fills (do
      Code.store host (c + 2) w
      Code.store host c v) c (fun _ => True) fun _ => c + 4 := by
  refine ⟨(), _, Emits.store.bind .store, trivial, ?_⟩
  have first : Stores (chunk c (Word.bytes host v)) c (c + 2) := by
    simpa [Word.width] using Stores.chunk c (Word.bytes host v)
  have second : Stores (chunk (c + 2) (Word.bytes host w)) (c + 2) (c + 2 + 2) := by
    simpa [Word.width] using Stores.chunk (c + 2) (Word.bytes host w)
  exact (first.append second (by omega)).perm List.perm_append_comm

theorem putRrcReport_fills (rrc : Nat → EpUeRRCReport) (i c : Nat) :
    Fills (putRrcReport host rrc i c) c (fun _ => True) fun _ => c + 12 :=
  .store_bind <| .store_bind <| .store_bind <| .store_bind <| swapped_fills (c + 8) _ _

theorem putRrcMeas_fills (rrc : Nat → EpUeRRCMeas) (i c : Nat) :
    Fills (putRrcMeas host rrc i c) c (fun _ => True) fun _ => c := by
  refine .store_behind le_rfl <| .store_behind (by omega) <| .store_behind (by omega) <|
    .store_behind (by omega) <| .store_behind (by omega) <| .store_behind (by omega) <|
    Fills.store.mono (by omega) fun _ _ => ⟨trivial, ?_, .inr le_rfl⟩
  omega

theorem formatRrcs_fills {α : Type} {width : Nat} {put : Nat → Nat → Code Unit} (whole : Bool)
    (each : ∀ i c, Fills (put i c) c (fun _ => True) fun _ => if whole then c + width else c)
    (rep : CountedArray α) : FillsBody whole (formatRrcs width put rep p size) p := by
  refine (fillTokens_fills whole each).bind fun r hr => ⟨?_, ?_⟩
  · cases whole with
    | false => simp
    | true =>
      cases r with
      | none => simp
      | some e => simpa using le_of_tokensEnd hr.symm
  · cases r with
    | none => exact .pure (by decide) (by cases whole <;> simp)
    | some e =>
      have behind := le_of_tokensEnd hr.symm
      have := toInt32_le (x := ((e - p : Nat) : Int)) (by omega)
      refine .pure (isInt32_toInt32 _) ?_
      cases whole with
      | false => simp
      | true =>
        simp only [if_true, Option.getD_some]
        omega

theorem epfUemeasRep_fills (rep : EpUeReport) : FillsBody true (epfUemeasRep host rep p size) p :=
  formatRrcs_fills true (putRrcReport_fills rep.entry) rep

theorem epfUemeasReq_fills (meas : EpUeMeas) :
    FillsBody false (epfUemeasReq host (some meas) p size) p :=
  formatRrcs_fills false (putRrcMeas_fills meas.entry) meas

theorem epfEcapRep_fills (det : EpEnbDet) :
    FillsBody true (epfEcapRep host (some det) p size) p := by
  refine (fillTokens_fills true (putCellCap_fills det.cells)).bind fun r hr => ?_
  cases r with
  | none => exact ⟨by simp, .pure (by decide) (by simp)⟩
  | some c =>
    have first := le_of_tokensEnd hr.symm
    refine ⟨by simpa using first, (fillTokens_fills true
      (putRanCap_fills det.ran)).bind fun r hr' => ?_⟩
    cases r with
    | none => exact ⟨by simp, .pure (by decide) (by simpa using first)⟩
    | some e =>
      have second := le_of_tokensEnd hr'.symm
      have := toInt32_le (x := ((e - p : Nat) : Int)) (by omega)
      refine ⟨by simpa using second, .pure (isInt32_toInt32 _) ?_⟩
      simp only [if_true, Option.getD_some]
      omega

theorem uerepFill_fills {us : Nat → EpUeDetails} {fin k i c : Nat} {s : Int} (hs : IsInt32 s) :
    Fills (uerepFill host fin (some us) k i c s) c IsInt32
      fun r => c + (r.toNat - s.toNat) := by
  induction k generalizing i c s with
  | zero => exact .pure hs (by omega)
  | succ k ih =>
    have grow := toInt32_le (x := s + 23) (by have := hs.1; omega)
    refine .note_bind rfl (.ite (fun _ => ih hs) fun _ => ?_)
    refine .ite (fun _ => .pure (by decide) ?_) fun _ => ?_
    · have : (-1 : Int).toNat = 0 := rfl
      omega
    · refine .store_bind <| .store_bind <| .store_bind <| .store_bind <| .store_bind <|
        .store_bind <| .store_bind <| (ih (isInt32_toInt32 _)).mono le_rfl fun r hr =>
          ⟨hr, ?_, .inl rfl⟩
      show c + (r.toNat - s.toNat) ≤ c + 23 + (r.toNat - (toInt32 (s + 23)).toNat)
      omega

theorem epfUerepRep_fills (nofUes maxUes : UInt32) (us : Nat → EpUeDetails) :
    FillsBody true (epfUerepRep host nofUes maxUes (some us) p size) p := by
  refine (uerepFill_fills (by decide)).mono le_rfl fun r hr => ⟨hr, ?_, .inl rfl⟩
  exact le_rfl

theorem epfUerepRep_fills_none {nofUes : UInt32} (none : nofUes = 0) (maxUes : UInt32)
    (ues : Option (Nat → EpUeDetails)) :
    FillsBody true (epfUerepRep host nofUes maxUes ues p size) p := by
  subst none
  have empty : epfUerepRep host 0 maxUes ues p size = pure 0 := by
    simp [epfUerepRep, uerepFill]
  rw [empty]
  exact pure_fills (by decide) le_rfl

/-! The tokens of a slice. -/

theorem rntiFill_fills (host : ByteOrder) (rntis : Nat → UInt16) (fin n i cur : Nat) :
    Fills (rntiFill host fin rntis n i cur) cur (fun r => ∀ e ∈ r, cur ≤ e)
      fun r => r.getD cur := by
  induction n generalizing i cur with
  | zero => exact .pure (by simp) (by simp)
  | succ n ih =>
    refine .ite (fun _ => .pure (by simp) (by simp)) fun _ => ?_
    refine .note_bind rfl (.store_bind ((ih _ _).mono le_rfl fun r hr => ?_))
    cases r with
    | none => exact ⟨by simp, by simp, .inl rfl⟩
    | some e =>
      have := hr e rfl
      exact ⟨by simp; omega, by simp, .inl rfl⟩

theorem epfTLVRntiReport_fills (rntis : Nat → UInt16) (nofRntis : UInt32) :
    Fills (epfTLVRntiReport host p size rntis nofRntis) p IsInt32 fun r => p + r.toNat := by
  obtain ⟨r, ws, emits, hr, stores⟩ := rntiFill_fills host rntis (p + size.toNat)
    nofRntis.toNat 0 (p + 4)
  have type : Stores (chunk p (Word.bytes host (htons host EpTLVType.rntiReport.code))) p
      (p + 2) := by
    simpa [Word.width] using Stores.chunk p (Word.bytes host (htons host EpTLVType.rntiReport.code))
  cases r with
  | none =>
    refine ⟨-1, _, Emits.store.bind (emits.bind (.pure _)), by decide, ?_⟩
    exact type.append (q := p + 2) (by
      rw [List.append_nil]
      exact stores.shrink (by omega) (by simp) (.inr (by simp))) (by omega)
  | some e =>
    have behind := hr e rfl
    have := toInt32_le (x := ((e - p : Nat) : Int)) (by omega)
    have length : Stores (chunk (p + 2)
        (Word.bytes host (htons host (UInt16.ofNat (e - (p + 4)))))) (p + 2) (p + 2 + 2) := by
      simpa [Word.width] using
        Stores.chunk (p + 2) (Word.bytes host (htons host (UInt16.ofNat (e - (p + 4)))))
    refine ⟨_, _, Emits.store.bind (emits.bind (Emits.store.bind (.pure _))), isInt32_toInt32 _, ?_⟩
    rw [List.append_nil]
    have rest := (length.append stores (by omega)).perm List.perm_append_comm
    exact (type.append rest (by omega)).shrink le_rfl (by simp; omega) (.inl rfl)

theorem epfRanTLVUsr_fills (det : EpRanSliceDet) (s : Int) {c : Nat} (hc : p ≤ c) :
    Fills (epfRanTLVUsr host p size det s c) c IsInt32 fun r => p + r.toNat := by
  refine .ite (fun _ => ?_) fun _ => ?_
  · refine (epfTLVRntiReport_fills det.users det.nofUsers).bind fun r hr => ⟨by omega, ?_⟩
    refine .ite (fun neg => .pure hr (by omega)) fun _ => .pure (isInt32_toInt32 _) ?_
    have := toInt32_le (x := ((c + r.toNat - p : Nat) : Int)) (by omega)
    omega
  · have := toInt32_le (x := ((c - p : Nat) : Int)) (by omega)
    exact .pure (isInt32_toInt32 _) (by omega)

theorem epfRanTLV_fills (det : EpRanSliceDet) :
    Fills (epfRanTLV host p size det) p IsInt32 fun r => p + r.toNat := by
  refine .ite (fun _ => .pure (by decide) le_rfl) fun _ => ?_
  refine .store_bind <| .store_bind <| .store_bind <|
    .ite (fun _ => epfRanTLVUsr_fills det 6 (by omega)) fun _ => ?_
  refine .ite (fun _ => .pure (by decide) (Nat.le_add_right p 6)) fun _ => ?_
  exact .store_bind <| .store_bind <| .store_bind <| epfRanTLVUsr_fills det 14 (by omega)

theorem slice_fills (id : UInt64) (det : EpRanSliceDet) :
    Fills (do
      Code.store host p (htobe64 host id)
      let s ← epfRanTLV host (p + 8) (size - UInt32.ofNat 8) det
      pure (toInt32 (8 + s))) p IsInt32 fun r => p + r.toNat := by
  refine .store_bind ((epfRanTLV_fills det).bind fun s hs => ⟨?_, ?_⟩)
  · exact Nat.le_add_right _ _
  · have := toInt32_le (x := 8 + s) (by have := hs.1; omega)
    exact .pure (isInt32_toInt32 _) (by omega)

theorem formatSlice_fills (id : UInt64) (det : Option EpRanSliceDet) :
    FillsBody true (formatSlice host id det p size) p := by
  cases det with
  | none => exact guarded_fills (.store_bind (.pure (by decide) le_rfl))
  | some det => exact guarded_fills (slice_fills id det)

theorem epfRanSup_fills (id : UInt64) (det : Option EpRanSliceDet) :
    FillsBody true (epfRanSup host id det p size) p := by
  cases det with
  | none => exact .store_bind (.pure (by decide) le_rfl)
  | some det => exact slice_fills id det

end Bodies

end Emproto
