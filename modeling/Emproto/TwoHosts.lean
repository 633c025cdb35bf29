import Emproto.Redelivery
import Emproto.NullOutputs
import Emproto.EnbCapsRoundTrip

/-! One message on hosts of different byte orders. Code that takes what it loads out of the order
of the network runs alike on both; what is left are the flags of the main header and the number of
slices in the eNB capabilities. -/

namespace Emproto

/-- The two codes have the same runs in every memory. -/
def Alike {α : Type} (c c' : Code α) : Prop := ∀ m, c.run m = c'.run m

namespace Alike
variable {α β : Type} {host host' : ByteOrder} {p : Nat}

theorem refl (c : Code α) : Alike c c := fun _ => rfl

theorem bind {x x' : Code α} {f f' : α → Code β} (hx : Alike x x') (hf : ∀ a, Alike (f a) (f' a)) :
    Alike (x >>= f) (x' >>= f') := by
  intro m
  rw [Code.run_bind, Code.run_bind, hx m]
  cases x'.run m with
  | none => rfl
  | some r =>
    simp only [Option.bind_some]
    rw [hf r.1]

theorem load {W : Type} [Word W] {f f' : W → Code β}
    (hf : ∀ w, Alike (f (hton host w)) (f' (hton host' w))) :
    Alike (Code.load host p >>= f) (Code.load host' p >>= f') := by
  intro m
  rw [Code.run_load_bind, Code.run_load_bind, Mem.word_eq_hton, Mem.word_eq_hton,
    hf (m.be p) m]

theorem loadByte : Alike (Code.load host p : Code UInt8) (Code.load host' p) := by
  intro m
  rw [Code.run_load, Code.run_load, Mem.word_uint8, Mem.word_uint8]

theorem byte {f f' : UInt8 → Code β} (hf : ∀ v, Alike (f v) (f' v)) :
    Alike (Code.load host p >>= f) (Code.load host' p >>= f') := loadByte.bind hf

theorem ite {c : Prop} [Decidable c] {x x' y y' : Code α} (hx : Alike x x') (hy : Alike y y') :
    Alike (if c then x else y) (if c then x' else y') := by
  split
  · exact hx
  · exact hy

theorem fetch {W : Type} [Word W] : Alike (Code.fetch host p : Code W) (Code.fetch host' p) :=
  fun m => (Code.run_fetch m p host).trans (Code.run_fetch m p host').symm

theorem assign {value value' : Code α} (h : Alike value value') (out : Option α) :
    Alike (Code.assign out value) (Code.assign out value') := by
  cases out with
  | none => exact .refl _
  | some _ => exact h.bind fun v => .refl _

theorem tokenLoop {σ : Type} {strict checked : Bool} {handle handle' : Nat → σ → Code (Int × σ)}
    {fin : Nat} (each : ∀ c s, Alike (handle c s) (handle' c s)) (fuel c : Nat) (s : σ) :
    Alike (tokenLoop host strict checked handle fin fuel c s)
      (tokenLoop host' strict checked handle' fin fuel c s) := by
  induction fuel generalizing c s with
  | zero => exact .refl _
  | succ fuel ih =>
    refine .ite (.load fun length => ?_) (.refl _)
    simp only [ntoh_hton]
    -- the length is loaded once more behind the handler, which may have changed the memory
    refine .ite (.refl _) ((each c s).bind fun r => .ite (.refl _) (.load fun length => ?_))
    simp only [ntoh_hton]
    exact ih _ _

theorem result_eq {c c' : Code α} (h : Alike c c') (m : Mem) : c.result m = c'.result m := by
  rw [Code.result, Code.result, h m]

end Alike

section Handlers
variable {host host' : ByteOrder} (c : Nat)

theorem rntiCopy_alike (n i : Nat) (rntis : Nat → UInt16) :
    Alike (rntiCopy host n i c rntis) (rntiCopy host' n i c rntis) := by
  induction n generalizing i c rntis with
  | zero => exact .refl _
  | succ n ih =>
    refine .load fun rnti => .bind (.refl _) fun _ => ?_
    simp only [ntoh_hton]
    exact ih _ _ _

theorem eppRanTLV_alike (det : Option EpRanSliceDet) :
    Alike (eppRanTLV host c det) (eppRanTLV host' c det) := by
  refine .bind (.refl _) fun _ => .load fun type => ?_
  simp only [ntoh_hton]
  cases det with
  | none => exact .refl _
  | some det =>
    refine .ite ?_ (.ite (.load fun rbgs => ?_) (.ite (.load fun usched => ?_) (.refl _)))
    · refine .bind (.load fun length => ?_) fun _ => .refl _
      simp only [ntoh_hton]
      exact (rntiCopy_alike _ _ _ _).bind fun _ => .refl _
    · simp only [ntoh_hton]
      exact .refl _
    · simp only [ntoh_hton]
      exact .refl _

theorem eppRanEupTLV_alike (det : EpRanDet) :
    Alike (eppRanEupTLV host c det) (eppRanEupTLV host' c det) := by
  refine .bind (.refl _) fun _ => .load fun type => ?_
  simp only [ntoh_hton]
  refine .ite (.load fun sched => ?_) (.refl _)
  simp only [ntoh_hton]
  exact .refl _

theorem eppCellMeasRepTLV_alike (rep : EpCellRep) :
    Alike (eppCellMeasRepTLV host c rep) (eppCellMeasRepTLV host' c rep) := by
  refine .bind (.refl _) fun _ => .load fun type => ?_
  simp only [ntoh_hton]
  refine .ite (.byte fun _ => .load fun dlUsed => .byte fun _ => .load fun ulUsed => ?_) (.refl _)
  simp only [ntoh_hton]
  exact .refl _

theorem eppCellMeasReqTLV_alike (s : Unit) :
    Alike (eppCellMeasReqTLV host c s) (eppCellMeasReqTLV host' c s) := by
  refine .load fun type => ?_
  simp only [ntoh_hton]
  exact .refl _

theorem parseRrcTLV_alike {α : Type} {code : UInt16} {body body' : Nat → Code α}
    (each : ∀ c, Alike (body c) (body' c)) (rep : CountedArray α) :
    Alike (parseRrcTLV host code body c rep) (parseRrcTLV host' code body' c rep) := by
  refine .bind (.refl _) fun _ => .load fun type => ?_
  simp only [ntoh_hton]
  exact .ite (.ite (.refl _) ((each c).bind fun _ => .refl _)) (.refl _)

theorem rrcReportBody_alike : Alike (rrcReportBody host c) (rrcReportBody host' c) := by
  refine .load fun measId => .load fun pci => .load fun rsrp => .load fun rsrq => ?_
  simp only [ntoh_hton]
  exact .refl _

theorem rrcMeasBody_alike : Alike (rrcMeasBody host c) (rrcMeasBody host' c) := by
  refine .load fun measId => .load fun rnti => .load fun earfcn => .load fun interval =>
    .load fun maxCells => .load fun maxMeas => ?_
  simp only [ntoh_hton]
  exact .refl _

theorem selectSlot_alike (ues : Int → EpUeDetails) (k i : Nat) (j : Int) (nofUes : UInt32) :
    Alike (selectSlot host c ues k i j nofUes) (selectSlot host' c ues k i j nofUes) := by
  induction k generalizing i j nofUes with
  | zero => exact .refl _
  | succ k ih =>
    refine .bind (.refl _) fun _ => .load fun rnti => ?_
    simp only [ntoh_hton]
    exact .ite (.refl _) (ih _ _ _)

theorem eppUerepRepTLV_alike (maxUes : UInt32) (s : (Int → EpUeDetails) × UInt32) :
    Alike (eppUerepRepTLV host maxUes c s) (eppUerepRepTLV host' maxUes c s) := by
  refine .bind (.refl _) fun _ => .load fun type => ?_
  simp only [ntoh_hton]
  refine .ite ((selectSlot_alike c _ _ _ _ _).bind fun slot => ?_) (.refl _)
  refine .load fun rnti => .load fun plmn => .load fun imsi => .load fun tmsi => ?_
  simp only [ntoh_hton]
  exact .refl _

end Handlers

section Bodies
variable {host host' : ByteOrder} {p : Nat} {size : UInt32}

theorem parseHello_alike (id : Option UInt32) :
    Alike (parseHello host p size id) (parseHello host' p size id) :=
  .bind (.refl _) fun _ =>
    .ite (.refl _) (.bind (.assign .fetch id) fun _ => .refl _)

theorem parseSliceId_alike (id : Option UInt64) :
    Alike (parseSliceId host p size id) (parseSliceId host' p size id) :=
  .bind (.refl _) fun _ => .ite (.refl _) (.bind (.assign .fetch id) fun _ => .refl _)

theorem eppHoRep_alike (out : HoRepOut) :
    Alike (eppHoRep host p size out) (eppHoRep host' p size out) := by
  refine .bind (.refl _) fun _ => .ite (.refl _) ?_
  exact .bind (.assign .fetch _) fun _ => .bind (.assign .fetch _) fun _ =>
    .bind (.assign .fetch _) fun _ => .bind (.assign .fetch _) fun _ => .refl _

theorem eppHoReq_alike (out : HoReqOut) :
    Alike (eppHoReq host p size out) (eppHoReq host' p size out) := by
  refine .bind (.refl _) fun _ => .ite (.refl _) ?_
  exact .bind (.assign .fetch _) fun _ => .bind (.assign .fetch _) fun _ =>
    .bind (.assign .fetch _) fun _ => .bind (.assign .loadByte _) fun _ => .refl _

theorem eppRanEup_alike (det : Option EpRanDet) :
    Alike (eppRanEup host p size det) (eppRanEup host' p size det) := by
  refine .bind (.refl _) fun _ => .ite (.refl _) ?_
  cases det with
  | none => exact .refl _
  | some det =>
    refine .load fun l1 => .load fun l2 => .load fun l3 => ?_
    simp only [ntoh_hton]
    exact .bind (.tokenLoop eppRanEupTLV_alike _ _ _) fun _ => .refl _

theorem parseSlice_alike {checked : Bool} (id : Option UInt64) (det : Option EpRanSliceDet) :
    Alike (parseSlice host checked p size id det) (parseSlice host' checked p size id det) := by
  refine .bind (.refl _) fun _ => .ite (.refl _) ?_
  refine .bind (.assign .fetch id) fun _ => ?_
  exact .bind (.tokenLoop eppRanTLV_alike _ _ _) fun _ => .refl _

theorem eppCellMeasRep_alike (rep : Option EpCellRep) :
    Alike (eppCellMeasRep host (some p) size rep) (eppCellMeasRep host' (some p) size rep) := by
  refine .bind (.refl _) fun _ => ?_
  cases rep with
  | none => exact .refl _
  | some rep => exact .bind (.tokenLoop eppCellMeasRepTLV_alike _ _ _) fun _ => .refl _

theorem eppCellMeasReq_alike :
    Alike (eppCellMeasReq host (some p) size) (eppCellMeasReq host' (some p) size) :=
  .bind (.refl _) fun _ => .bind (.tokenLoop eppCellMeasReqTLV_alike _ _ _) fun _ => .refl _

theorem parseRrcs_alike {α : Type} {code : UInt16} {body body' : Nat → Code α}
    {zero : CountedArray α} (each : ∀ c, Alike (body c) (body' c))
    (rep : Option (CountedArray α)) :
    Alike (parseRrcs host code body zero (some p) size rep)
      (parseRrcs host' code body' zero (some p) size rep) := by
  refine .bind (.refl _) fun _ => ?_
  cases rep with
  | none => exact .refl _
  | some rep =>
    exact .bind (.tokenLoop (fun c rep => parseRrcTLV_alike c each rep) _ _ _) fun _ => .refl _

theorem eppUerepRep_alike (nofUes : Option UInt32) (maxUes : UInt32)
    (ues : Option (Int → EpUeDetails)) :
    Alike (eppUerepRep host (some p) size nofUes maxUes ues)
      (eppUerepRep host' (some p) size nofUes maxUes ues) := by
  refine .bind (.refl _) fun _ => ?_
  cases ues with
  | none => exact .refl _
  | some ues =>
    cases nofUes with
    | none => exact .refl _
    | some nofUes =>
      exact .bind (.tokenLoop (fun c s => eppUerepRepTLV_alike c maxUes s) _ _ _) fun _ => .refl _

end Bodies

namespace CountedArray
variable {α : Type} {cap : UInt32} {a : CountedArray α}

theorem foldl_push_eq_iff (empty : a.count = 0) (xs ys : List α) :
    xs.foldl (push cap) a = ys.foldl (push cap) a ↔ xs.take cap.toNat = ys.take cap.toNat := by
  rw [← list_foldl_push_empty empty xs, ← list_foldl_push_empty empty ys]
  apply Iff.intro
  · intro h
    rw [h]
  · intro h
    have same := same_iff.mpr h
    refine eq_of_parts (funext fun i => ?_) same.1
    by_cases used : i < (ys.foldl (push cap) a).count.toNat
    · exact same.2 i used
    · rw [entry_foldl_push_unused xs (by rw [same.1]; omega),
        entry_foldl_push_unused ys (by omega)]

end CountedArray

theorem Mem.word_portable_iff (m : Mem) (p : Nat) :
    (m.word .little p : UInt16) = m.word .big p ↔ m p = m (p + 1) := by
  have low := (m p).toNat_lt
  have high := (m (p + 1)).toNat_lt
  rw [← UInt16.toNat_inj, ← UInt8.toNat_inj]
  simp only [Mem.word, Mem.slice, Word.ofBytes, ByteOrder.value, ofLittleBytes, Word.ofNat,
    Word.width, List.reverse_cons, List.reverse_nil, List.nil_append, List.cons_append,
    UInt16.toNat_ofNat']
  omega

section Capabilities
variable (m : Mem) {host : ByteOrder}

theorem cutSlices_portable_iff (n : UInt16) :
    cutSlices .little n = cutSlices .big n ↔ n = 0 := by
  rw [cutSlices_little, cutSlices_big, eq_comm]

theorem ranAt_portable_iff (c : Nat) :
    ranAt m .little c = ranAt m .big c ↔ m.be (c + 22) = (0 : UInt16) := by
  rw [← cutSlices_portable_iff]
  apply Iff.intro
  · intro h
    exact congrArg EpRanDet.maxSlices h
  · intro h
    rw [ranAt, ranAt, h]

theorem ransFound_eq_map (os : List Nat) :
    ransFound m host os = (os.filter (IsRanCap m)).map (ranAt m host) := by
  rw [ransFound, ← List.filterMap_eq_map, List.filterMap_filter]
  simp

theorem EpEnbDet.eq_iff_arrays {det det' : EpEnbDet} :
    det = det' ↔ det.cellArray = det'.cellArray ∧ det.ranArray = det'.ranArray := by
  cases det
  cases det'
  simp [EpEnbDet.cellArray, EpEnbDet.ranArray, and_assoc]

theorem runSteps_ecapStep_portable_iff (os : List Nat) {det : EpEnbDet} (empty : det.nofRan = 0) :
    runSteps (ecapStep m .little) os det = runSteps (ecapStep m .big) os det ↔
      ∀ c ∈ (os.filter (IsRanCap m)).take epEcapCellMax.toNat, m.be (c + 22) = (0 : UInt16) := by
  have little := runSteps_ecapStep m .little os det
  have big := runSteps_ecapStep m .big os det
  have ran : det.ranArray.count = 0 := empty
  rw [EpEnbDet.eq_iff_arrays, little.1, big.1, little.2, big.2, and_iff_right rfl,
    CountedArray.foldl_push_eq_iff ran, ransFound_eq_map, ransFound_eq_map, ← List.map_take,
    ← List.map_take, List.map_inj_left]
  simp only [ranAt_portable_iff]

end Capabilities

namespace PublicParser

/-- The order of the host does not show: no flags are taken over, or their bytes are equal, and no
RAN entry for which the capabilities have room names a number of slices. -/
def HostFree (m : Mem) (b : Nat) (size : UInt32) : (p : PublicParser) → p.Out → Prop
  | head, (out : HeadOut) =>
    size.toNat < 24 ∨ m (b + 1) ≠ empowerProtocolVers ∨ out.flags = none ∨
      m (b + 16) = m (b + 17)
  | singleEcapRep, (out : Option EpEnbDet) =>
    out = none ∨
      ∀ c ∈ (((m.walker true (b + 24 + 3 + size.toNat)).walk (b + 24 + 3)).filter
        (IsRanCap m)).take epEcapCellMax.toNat, m.be (c + 22) = (0 : UInt16)
  | _, _ => True

variable {b : Nat} {size : UInt32} {m : Mem}

theorem eppEcapRep_portable_iff (p : Nat) (det : Option EpEnbDet) :
    (eppEcapRep .little p size det).result m = (eppEcapRep .big p size det).result m ↔
      det = none ∨ ∀ c ∈ (((m.walker true (p + size.toNat)).walk p).filter
        (IsRanCap m)).take epEcapCellMax.toNat, m.be (c + 22) = (0 : UInt16) := by
  cases det with
  | none => exact iff_of_true rfl (.inl rfl)
  | some det =>
    have empty : ({ det with nofCells := 0, nofRan := 0 } : EpEnbDet).nofRan = 0 := rfl
    rw [Code.result_of m (run_eppEcapRep m p size det),
      Code.result_of m (run_eppEcapRep m p size det),
      ← runSteps_ecapStep_portable_iff m ((m.walker true (p + size.toNat)).walk p) empty]
    simp

theorem eppHead_portable_iff (out : HeadOut) :
    (eppHead .little (some b) size out).result m = (eppHead .big (some b) size out).result m ↔
      HostFree m b size head out := by
  by_cases short : size.toNat < 24
  · rw [eppHead, eppHead, if_pos short, if_pos short]
    exact iff_of_true rfl (.inl short)
  · by_cases vers : m (b + 1) = empowerProtocolVers
    · have long : 24 ≤ size.toNat := Nat.le_of_not_lt short
      rw [result_eppHead m long vers, result_eppHead m long vers]
      change _ ↔ _ ∨ _ ∨ _
      rw [or_iff_right short, or_iff_right (not_not_intro vers), ← Mem.word_portable_iff]
      cases hflags : out.flags with
      | none => simp [HeadOut.assign, hflags]
      | some _ => simp [HeadOut.assign, hflags]
    · have other (host : ByteOrder) :
          (eppHead host (some b) size out).result m = some (epWrongVersion, out) := by
        rw [eppHead, if_neg short, Code.result_load_bind, Mem.word_uint8, if_pos vers]
        rfl
      rw [other, other]
      exact iff_of_true rfl (.inr (.inl vers))

/-- Every other parser runs alike on any two hosts. -/
theorem parse_alike (host host' : ByteOrder) (b : Nat) (size : UInt32) {p : PublicParser}
    (notHead : p ≠ head) (notCaps : p ≠ singleEcapRep) (out : p.Out) :
    Alike (p.parse host b size out) (p.parse host' b size out) := by
  cases p with
  | head => exact absurd rfl notHead
  | singleEcapRep => exact absurd rfl notCaps
  | singleHelloReq | singleHelloRep | schedHelloReq | schedHelloRep =>
    exact parseHello_alike out
  | singleHoReq => exact eppHoReq_alike out
  | singleHoRep => exact eppHoRep_alike out
  | singleEcapReq | triggerUerepReq | singleRanSetupReq => exact .refl _
  | triggerUerepRep maxUes => exact eppUerepRep_alike out.2 maxUes out.1
  | triggerUemeasReq => exact parseRrcs_alike rrcMeasBody_alike out
  | triggerUemeasRep =>
    cases (out : Option EpUeReport) with
    | none => exact .refl _
    | some rep => exact parseRrcs_alike rrcReportBody_alike (some rep)
  | schedCellMeasReq =>
    refine .bind (.ite (.refl _) .fetch) fun value => ?_
    cases (out : Option UInt32) with
    | none => exact .refl _
    | some _ => exact eppCellMeasReq_alike.bind fun _ => .refl _
  | schedCellMeasRep | triggerCellMeasRep =>
    cases (out : Option EpCellRep) with
    | none => exact .refl _
    | some rep => exact eppCellMeasRep_alike (some rep)
  | triggerCellMeasReq => exact eppCellMeasReq_alike.bind fun _ => .refl _
  | singleRanSetupRep => exact eppRanEup_alike out
  | singleRanSliceReq | singleRanSliceRem => exact parseSliceId_alike out
  | singleRanSliceRep | singleRanSliceAdd | singleRanSliceSet =>
    exact parseSlice_alike out.1 out.2

end PublicParser

/-- A little-endian and a big-endian host make the same status and the same outputs of the same
bytes, whichever parser they are given to, unless the parser takes over flags with two different
bytes, or a RAN entry with a number of slices among the first eight. -/
theorem PublicParser.parse_portable_iff (b : Nat) (size : UInt32) (m : Mem) (p : PublicParser)
    (out : p.Out) :
    (p.parse .little b size out).result m = (p.parse .big b size out).result m ↔
      p.HostFree m b size out := by
  by_cases isHead : p = head
  · subst isHead
    exact eppHead_portable_iff out
  · by_cases isCaps : p = singleEcapRep
    · subst isCaps
      exact eppEcapRep_portable_iff (b + 24 + 3) out
    · have free : p.HostFree m b size out := by
        cases p <;> first | contradiction | exact trivial
      exact iff_of_true ((parse_alike .little .big b size isHead isCaps out).result_eq m) free

end Emproto
