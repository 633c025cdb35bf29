import Emproto.EnbCaps
import Emproto.UeMeas
import Emproto.RanSlice

/-! Which elements of the caller's arrays the body formatters read. The counts are the
caller's, and nothing was looked at before: a loop stays inside its array if its own
condition names the capacity. -/

namespace Emproto

/-- Whatever the memory, `c` ends with `a` and has read the elements `is`. -/
def Consults {α : Type} (c : Code α) (a : α) (is : List Int) : Prop :=
  ∀ m, ∃ t, c.run m = some (a, t) ∧ t.gets = is

namespace Consults
variable {α β : Type}

theorem pure (a : α) : Consults (Pure.pure a) a [] := fun _ => ⟨[], rfl, rfl⟩

theorem bind {x : Code α} {f : α → Code β} {a : α} {b : β} {is js : List Int}
    (hx : Consults x a is) (hf : Consults (f a) b js) : Consults (x >>= f) b (is ++ js) := by
  intro m
  obtain ⟨t, hrun, ht⟩ := hx m
  obtain ⟨u, hrun', hu⟩ := hf (m.patch t.stores)
  refine ⟨t ++ u, ?_, by rw [Trace.gets_append, ht, hu]⟩
  rw [Code.run_bind_of m hrun, hrun']
  rfl

theorem bind_quiet {x : Code α} {f : α → Code β} {a : α} {b : β} {is : List Int}
    (hx : Consults x a is) (hf : Consults (f a) b []) : Consults (x >>= f) b is := by
  have both := hx.bind hf
  rwa [List.append_nil] at both

theorem get (i : Int) : Consults (Code.note (.get i)) () [i] := fun _ => ⟨_, rfl, rfl⟩

theorem store {W : Type} [Word W] {host : ByteOrder} {p : Nat} {w : W} :
    Consults (Code.store host p w) () [] := by
  intro m
  refine ⟨_, rfl, ?_⟩
  generalize Word.bytes host w = bs
  induction bs generalizing p with
  | nil => rfl
  | cons b bs ih => exact ih

theorem store_bind {W : Type} [Word W] {host : ByteOrder} {p : Nat} {w : W} {f : Unit → Code β}
    {b : β} {is : List Int} (hf : Consults (f ()) b is) :
    Consults (Code.store host p w >>= f) b is :=
  store.bind hf

end Consults

def ReadsBelow (run : Option (Int × Trace)) (cap : Nat) : Prop :=
  ∃ ret es, run = some (ret, es) ∧ ∀ i ∈ es.gets, 0 ≤ i ∧ i < cap

theorem Consults.readsBelow_iff {c : Code Int} {ret : Int} {is : List Int} {m : Mem}
    (h : Consults c ret is) (cap : Nat) :
    ReadsBelow (c.run m) cap ↔ ∀ i ∈ is, 0 ≤ i ∧ i < cap := by
  obtain ⟨es, hrun, rfl⟩ := h m
  exact Code.exists_run_iff hrun fun _ es => ∀ i ∈ es.gets, 0 ≤ i ∧ i < (cap : Int)

def elements (i k : Nat) : List Int := (List.range' i k).map Int.ofNat

theorem mem_elements {i k : Nat} {j : Int} : j ∈ elements i k ↔ (i : Int) ≤ j ∧ j < i + k := by
  simp only [elements, List.mem_map, List.mem_range'_1, Int.ofNat_eq_natCast]
  apply Iff.intro
  · rintro ⟨e, bounds, rfl⟩
    omega
  · intro bounds
    exact ⟨j.toNat, by omega, by omega⟩

theorem elements_succ (i k : Nat) : elements i (k + 1) = [(i : Int)] ++ elements (i + 1) k := by
  rw [elements, List.range'_succ, List.map_cons]
  rfl

/-! Loops whose condition names the capacity. -/

section Loops
variable {width : Nat} {put : Nat → Nat → Code Unit}

theorem fillTokens_consults (each : ∀ i c, Consults (put i c) () []) (fin k i c : Nat) :
    ∃ r n, Consults (fillTokens width put fin k i c) r (elements i n) ∧ n ≤ k := by
  induction k generalizing i c with
  | zero => exact ⟨_, 0, .pure _, le_rfl⟩
  | succ k ih =>
    rw [fillTokens]
    by_cases full : c + width > fin
    · rw [if_pos full]
      exact ⟨_, 0, .pure _, Nat.zero_le _⟩
    · obtain ⟨r, n, rest, bound⟩ := ih (i + 1) (c + width)
      rw [if_neg full]
      refine ⟨r, n + 1, ?_, Nat.succ_le_succ bound⟩
      rw [elements_succ]
      exact (Consults.get i).bind ((each i c).bind rest)

theorem formatRrcs_readsBelow {α : Type} (each : ∀ i c, Consults (put i c) () [])
    (rep : CountedArray α) (buf : Nat) (size : UInt32) (m : Mem) :
    ReadsBelow ((formatRrcs width put rep buf size).run m) epUeRrcMeasMax.toNat := by
  obtain ⟨r, n, loop, bound⟩ : ∃ r n, Consults (fillTokens width put (buf + size.toNat)
      (min rep.count.toNat epUeRrcMeasMax.toNat) 0 buf) r (elements 0 n) ∧
        n ≤ min rep.count.toNat epUeRrcMeasMax.toNat := fillTokens_consults each _ _ _ _
  have run : ∃ ret, Consults (formatRrcs width put rep buf size) ret (elements 0 n) := by
    cases r with
    | none => exact ⟨_, loop.bind_quiet (.pure _)⟩
    | some c => exact ⟨_, loop.bind_quiet (.pure _)⟩
  obtain ⟨ret, consults⟩ := run
  rw [consults.readsBelow_iff]
  intro i hi
  have := mem_elements.mp hi
  omega

end Loops

section Bodies
variable {host : ByteOrder} {buf : Nat} {size : UInt32}

theorem putCellCap_consults (cells : Nat → EpCellDet) (i c : Nat) :
    Consults (putCellCap host cells i c) () [] :=
  .store_bind <| .store_bind <| .store_bind <| .store_bind <| .store_bind <| .store_bind <|
    .store_bind <| .store_bind .store

theorem putRanCap_consults (ran : Nat → EpRanDet) (i c : Nat) :
    Consults (putRanCap host ran i c) () [] :=
  .store_bind <| .store_bind <| .store_bind <| .store_bind <| .store_bind <| .store_bind <|
    .store_bind .store

theorem putRrcReport_consults (rrc : Nat → EpUeRRCReport) (i c : Nat) :
    Consults (putRrcReport host rrc i c) () [] :=
  .store_bind <| .store_bind <| .store_bind <| .store_bind <| .store_bind .store

theorem putRrcMeas_consults (rrc : Nat → EpUeRRCMeas) (i c : Nat) :
    Consults (putRrcMeas host rrc i c) () [] :=
  .store_bind <| .store_bind <| .store_bind <| .store_bind <| .store_bind <| .store_bind .store

theorem epfEcapRep_readsBelow (det : EpEnbDet) (m : Mem) :
    ReadsBelow ((epfEcapRep host (some det) buf size).run m) epEcapCellMax.toNat := by
  obtain ⟨r, n, cells, bound⟩ : ∃ r n, Consults (fillTokens 18 (putCellCap host det.cells)
      (buf + size.toNat) (min det.nofCells.toNat epEcapCellMax.toNat) 0 buf) r (elements 0 n) ∧
        n ≤ min det.nofCells.toNat epEcapCellMax.toNat :=
    fillTokens_consults (putCellCap_consults det.cells) _ _ _ _
  have run : ∃ ret k, Consults (epfEcapRep host (some det) buf size) ret
      (elements 0 n ++ elements 0 k) ∧ k ≤ epEcapCellMax.toNat := by
    cases r with
    | none => exact ⟨_, 0, cells.bind (.pure _), Nat.zero_le _⟩
    | some c =>
      obtain ⟨r', k, ran, bound'⟩ : ∃ r k, Consults (fillTokens 24 (putRanCap host det.ran)
          (buf + size.toNat) (min det.nofRan.toNat epEcapCellMax.toNat) 0 c) r (elements 0 k) ∧
            k ≤ min det.nofRan.toNat epEcapCellMax.toNat :=
        fillTokens_consults (putRanCap_consults det.ran) _ _ _ _
      have inside : k ≤ epEcapCellMax.toNat := bound'.trans (min_le_right _ _)
      cases r' with
      | none => exact ⟨_, k, cells.bind (ran.bind_quiet (.pure _)), inside⟩
      | some e => exact ⟨_, k, cells.bind (ran.bind_quiet (.pure _)), inside⟩
  obtain ⟨ret, k, consults, bound'⟩ := run
  rw [consults.readsBelow_iff]
  intro i hi
  rcases List.mem_append.mp hi with hi | hi <;> have := mem_elements.mp hi <;> omega

end Bodies

/-! The container goes on until the list or the space ends. -/

section Container
variable {host : ByteOrder} {rntis : Nat → UInt16}

theorem rntiFill_consults (fin n i cur : Nat) :
    ∃ r, Consults (rntiFill host fin rntis n i cur) r (elements i (min n ((fin - cur) / 2))) := by
  induction n generalizing i cur with
  | zero =>
    rw [Nat.zero_min]
    exact ⟨_, .pure _⟩
  | succ n ih =>
    rw [rntiFill]
    by_cases full : cur + 2 > fin
    · have stop : min (n + 1) ((fin - cur) / 2) = 0 := by omega
      rw [if_pos full, stop]
      exact ⟨_, .pure _⟩
    · obtain ⟨r, rest⟩ := ih (i + 1) (cur + 2)
      have step : min (n + 1) ((fin - cur) / 2) = min n ((fin - (cur + 2)) / 2) + 1 := by omega
      rw [if_neg full, step, elements_succ]
      exact ⟨r, (Consults.get i).bind (.store_bind rest)⟩

theorem epfTLVRntiReport_consults (buf : Nat) (size nofRntis : UInt32) :
    ∃ ret, Consults (epfTLVRntiReport host buf size rntis nofRntis) ret
      (elements 0 (min nofRntis.toNat ((size.toNat - 4) / 2))) := by
  obtain ⟨r, fill⟩ : ∃ r, Consults (rntiFill host (buf + size.toNat) rntis nofRntis.toNat 0
      (buf + 4)) r (elements 0 (min nofRntis.toNat ((size.toNat - 4) / 2))) := by
    rw [show size.toNat - 4 = buf + size.toNat - (buf + 4) by omega]
    exact rntiFill_consults _ _ _ _
  cases r with
  | none => exact ⟨_, .store_bind (fill.bind_quiet (.pure _))⟩
  | some cur => exact ⟨_, .store_bind (fill.bind_quiet (.store_bind (.pure _)))⟩

end Container

section Slice
variable (host : ByteOrder) (buf : Nat) (size : UInt32) (det : EpRanSliceDet)

theorem epfRanTLVUsr_consults (s : Nat) (hs : s ≤ size.toNat) (c : Nat) :
    ∃ ret, Consults (epfRanTLVUsr host buf size det s c) ret
      (elements 0 (min det.nofUsers.toNat ((size.toNat - s - 4) / 2))) := by
  have space : (size - UInt32.ofNat s).toNat = size.toNat - s := uint32_sub_toNat hs
  rw [epfRanTLVUsr]
  by_cases some : 0 < det.nofUsers
  · obtain ⟨ret, token⟩ : ∃ ret, Consults (epfTLVRntiReport host c (size - UInt32.ofNat s)
        det.users det.nofUsers) ret (elements 0 (min det.nofUsers.toNat
          ((size.toNat - s - 4) / 2))) := by
      rw [← space]
      exact epfTLVRntiReport_consults _ _ _
    rw [if_pos some, uint32_ofInt_natCast]
    by_cases failed : ret < 0
    · exact ⟨_, token.bind_quiet (by rw [if_pos failed]; exact .pure _)⟩
    · exact ⟨_, token.bind_quiet (by rw [if_neg failed]; exact .pure _)⟩
  · have none : det.nofUsers.toNat = 0 := by
      simpa [UInt32.lt_iff_toNat_lt] using some
    rw [if_neg some, none, Nat.zero_min]
    exact ⟨_, .pure _⟩

theorem epfRanTLV_consults :
    ∃ ret, Consults (epfRanTLV host buf size det) ret
      (elements 0 (min det.nofUsers.toNat
        ((size.toNat - (6 + schedLength det.l2.usched) - 4) / 2))) := by
  rw [epfRanTLV]
  by_cases res : buf + 6 > buf + size.toNat
  · have stop : (size.toNat - (6 + schedLength det.l2.usched) - 4) / 2 = 0 := by omega
    rw [if_pos res, stop, Nat.min_zero]
    exact ⟨_, .pure _⟩
  rw [if_neg res]
  by_cases bypass : det.l2.usched = 0
  · have zero : schedLength det.l2.usched = 0 := by simp [schedLength, bypass]
    obtain ⟨ret, rest⟩ := epfRanTLVUsr_consults host buf size det 6 (by omega) (buf + 6)
    rw [if_pos bypass, zero]
    exact ⟨ret, .store_bind <| .store_bind <| .store_bind rest⟩
  have eight : schedLength det.l2.usched = 8 := by simp [schedLength, bypass]
  rw [if_neg bypass, eight]
  by_cases sched : buf + 6 + 8 > buf + size.toNat
  · have stop : (size.toNat - (6 + 8) - 4) / 2 = 0 := by omega
    rw [if_pos sched, stop, Nat.min_zero]
    exact ⟨_, .store_bind <| .store_bind <| .store_bind <| .pure _⟩
  · obtain ⟨ret, rest⟩ := epfRanTLVUsr_consults host buf size det 14 (by omega) (buf + 6 + 8)
    rw [if_neg sched]
    exact ⟨ret, .store_bind <| .store_bind <| .store_bind <| .store_bind <| .store_bind <|
      .store_bind rest⟩

/-- The users are bounded by the space only: the first one behind the array is read where
the token of 33 has room. -/
theorem epfRanTLV_readsBelow_iff (m : Mem) :
    ReadsBelow ((epfRanTLV host buf size det).run m) epRanUsersMax.toNat ↔
      det.nofUsers ≤ epRanUsersMax ∨ size.toNat < 6 + schedLength det.l2.usched + 70 := by
  obtain ⟨ret, consults⟩ := epfRanTLV_consults host buf size det
  have max : epRanUsersMax.toNat = 32 := rfl
  rw [consults.readsBelow_iff, UInt32.le_iff_toNat_le, max]
  apply Iff.intro
  · intro below
    by_contra both
    have read : (32 : Int) ∈ elements 0 (min det.nofUsers.toNat
        ((size.toNat - (6 + schedLength det.l2.usched) - 4) / 2)) :=
      mem_elements.mpr (by omega)
    have := below 32 read
    omega
  · intro bounded i hi
    have := mem_elements.mp hi
    omega

end Slice

/-- The loops over cells, RAN entries and measurements read their own arrays only, for any
count. The users of a slice are read beyond theirs exactly if there are more of them and
the buffer has room for one too many. -/
theorem formatters_readBelow_iff (host : ByteOrder) (buf : Nat) (size : UInt32) (m : Mem) :
    (∀ det : EpEnbDet, ReadsBelow ((epfEcapRep host (some det) buf size).run m)
      epEcapCellMax.toNat) ∧
    (∀ rep : EpUeReport, ReadsBelow ((epfUemeasRep host rep buf size).run m)
      epUeRrcMeasMax.toNat) ∧
    (∀ meas : EpUeMeas, ReadsBelow ((epfUemeasReq host (some meas) buf size).run m)
      epUeRrcMeasMax.toNat) ∧
    ∀ det : EpRanSliceDet, ReadsBelow ((epfRanTLV host buf size det).run m) epRanUsersMax.toNat ↔
      det.nofUsers ≤ epRanUsersMax ∨ size.toNat < 6 + schedLength det.l2.usched + 70 :=
  ⟨fun det => epfEcapRep_readsBelow det m,
    fun rep => formatRrcs_readsBelow (putRrcReport_consults rep.entry) rep buf size m,
    fun meas => formatRrcs_readsBelow (putRrcMeas_consults meas.entry) meas buf size m,
    fun det => epfRanTLV_readsBelow_iff host buf size det m⟩

/-- A record that counts 33 users, in a buffer of 76 bytes. -/
theorem epfRanTLV_not_readsBelow :
    ¬ ReadsBelow ((epfRanTLV .little 0 76 ⟨33, fun _ => 7, ⟨0, 1⟩⟩).run (Mem.ofBytes []))
      epRanUsersMax.toNat := by
  rw [epfRanTLV_readsBelow_iff]
  decide

end Emproto
