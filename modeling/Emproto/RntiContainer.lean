import Emproto.RntiReport
import Emproto.Fills

/-! The RNTI container for lists of any length. The space is looked for entry by entry,
and never for the token header; the byte length goes through a field of 16 bits. -/

namespace Emproto

/-- A formatter's run into the `size` bytes at `buf`, for a token of `length` bytes: it
writes there only, and returns -1 exactly if there is no room. -/
def RefusesExactly (run : Option (Int × Trace)) (buf size length : Nat) : Prop :=
  ∃ ret es, run = some (ret, es) ∧ es.WritesIn buf (buf + size) ∧ (ret = -1 ↔ size < length)

theorem Emits.refusesExactly_iff {c : Code Int} {ret : Int} {ws : List (Nat × UInt8)} {m : Mem}
    (h : Emits c ret ws) (buf size length : Nat) :
    RefusesExactly (c.run m) buf size length ↔
      (∀ w ∈ ws, buf ≤ w.1 ∧ w.1 < buf + size) ∧ (ret = -1 ↔ size < length) := by
  obtain ⟨es, hrun, rfl⟩ := h m
  exact Code.exists_run_iff hrun fun ret es =>
    es.WritesIn buf (buf + size) ∧ (ret = -1 ↔ size < length)

theorem toInt32_even_ne (n : Nat) : toInt32 ((4 + 2 * n : Nat) : Int) ≠ -1 := by
  have reduced := Int.bmod_emod (x := ((4 + 2 * n : Nat) : Int)) (m := 4294967296)
  rw [toInt32]
  omega

section Format
variable {rntis : Nat → UInt16}

/-- The space of an empty list is not looked for at all, and the type of any list is
stored before the first look. -/
theorem epfTLVRntiReport_refusesExactly_iff (host : ByteOrder) (rntis : Nat → UInt16) (buf : Nat)
    (size nofRntis : UInt32) (m : Mem) :
    RefusesExactly ((epfTLVRntiReport host buf size rntis nofRntis).run m) buf size.toNat
        (4 + 2 * nofRntis.toNat) ↔
      4 ≤ size.toNat ∨ (0 < nofRntis.toNat ∧ 2 ≤ size.toNat) := by
  by_cases whole : nofRntis.toNat = 0 ∨ 4 + 2 * nofRntis.toNat ≤ size.toNat
  · obtain ⟨ws, emits, lays⟩ := epfTLVRntiReport_lays buf size nofRntis whole
    rw [emits.refusesExactly_iff]
    have accepted := toInt32_even_ne nofRntis.toNat
    apply Iff.intro
    · rintro ⟨-, refused⟩
      omega
    · intro room
      refine ⟨fun w hw => ?_, by omega⟩
      have := lays.within w hw
      rw [rntiReportBytes_length] at this
      omega
  · obtain ⟨ws, emits, behind⟩ := epfTLVRntiReport_stops buf size nofRntis (by omega) (by omega)
    rw [emits.refusesExactly_iff]
    have type := Stores.chunk buf (Word.bytes .big EpTLVType.rntiReport.code)
    apply Iff.intro
    · rintro ⟨within, -⟩
      obtain ⟨w, hw, second⟩ := type.covers (buf + 1) (by omega) (by simp [Word.width])
      have := within w (List.mem_append_left _ hw)
      omega
    · intro room
      refine ⟨fun w hw => ?_, iff_of_true rfl (by omega)⟩
      rcases List.mem_append.mp hw with first | later
      · have := wordChunk_bounds first
        simp only [Word.width] at this
        omega
      · have := behind w later
        omega

/-- An empty list is written into a buffer of no bytes, and reported as four of them. -/
theorem epfTLVRntiReport_not_refusesExactly :
    ¬ RefusesExactly ((epfTLVRntiReport .little 0 0 (fun _ => 0) 0).run (Mem.ofBytes [])) 0
      (0 : UInt32).toNat (4 + 2 * (0 : UInt32).toNat) := by
  rintro ⟨ret, es, hrun, -, refused⟩
  have value : (epfTLVRntiReport .little 0 0 (fun _ => 0) 0).result (Mem.ofBytes []) = some 4 := by
    decide
  cases (Code.result_of _ hrun).symm.trans value
  exact absurd (refused.mpr (by decide)) (by decide)

end Format

section Parse
variable {host : ByteOrder} {m : Mem} {rntis : Nat → UInt16} {n : Nat}

theorem rntiCopyTrace_sets (c i cur : Nat) :
    (rntiCopyTrace c i cur).sets = (List.range' i c).map Int.ofNat := by
  induction c generalizing i cur with
  | zero => rfl
  | succ c ih =>
    rw [rntiCopyTrace, Trace.sets_append, Code.sets_loadTrace, Trace.sets_cons, ih,
      List.range'_succ]
    rfl

theorem declared_of_rntiReport {buf : Nat} (held : m.Holds buf (rntiReportBytes rntis n)) :
    (m.be (buf + 2) : UInt16).toNat = 2 * n % 65536 := by
  rw [rntiReportBytes_eq, Mem.holds_append, Mem.holds_append] at held
  have length : m.be (buf + 2) = UInt16.ofNat (2 * n) := Mem.word_of_holds held.2.1
  rw [length, UInt16.toNat_ofNat']

theorem run_eppTLVRntiReport_held {buf : Nat} (held : m.Holds buf (rntiReportBytes rntis n))
    (fits : n < 32768) (old : Nat → UInt16) (cap : UInt32) :
    (eppTLVRntiReport host buf old cap).run m =
      some ((epSuccess, fun i => if i < min n cap.toNat then rntis i else old i,
          UInt32.ofNat (min n cap.toNat)),
        Code.loadTrace (buf + 2) 2 ++ rntiCopyTrace (min n cap.toNat) 0 (buf + 4)) := by
  have declared := declared_of_rntiReport held
  rw [Nat.mod_eq_of_lt (by omega)] at declared
  have count : rntiCount m buf cap.toNat = min n cap.toNat := by
    rw [rntiCount, declared, Nat.mul_div_cancel_left n (by decide)]
  rw [rntiReportBytes_eq, Mem.holds_append, Mem.holds_append] at held
  have entries : m.Holds (buf + 4) (rntiBytes rntis n 0) := by
    simpa [Word.width] using held.2.2
  have users : copied m (min n cap.toNat) 0 (buf + 4) old =
      fun i => if i < min n cap.toNat then rntis i else old i := by
    funext i
    rw [copied]
    by_cases stored : i < min n cap.toNat
    · have entry := be_of_rntiBytes entries (lt_of_lt_of_le stored (min_le_left _ _))
      rw [Nat.zero_add] at entry
      rw [if_pos (by omega), if_pos stored, Nat.sub_zero, entry]
    · rw [if_neg (by omega), if_neg stored]
  rw [run_eppTLVRntiReport, count, users]

end Parse

/-- What the formatter accepts it reports and declares with its true length, and wherever
the token is received it is parsed into the first entries, as many as there is room for,
with no other entry touched. -/
def ContainerRoundTrips (host : ByteOrder) (buf : Nat) (size : UInt32) (rntis : Nat → UInt16)
    (nofRntis : UInt32) (m : Mem) : Prop :=
  ∃ ret es, (epfTLVRntiReport host buf size rntis nofRntis).run m = some (ret, es) ∧
    (ret ≠ -1 → ret = ((4 + 2 * nofRntis.toNat : Nat) : Int) ∧
      ((m.patch es.stores).be (buf + 2) : UInt16).toNat = 2 * nofRntis.toNat ∧
      ∀ (m' : Mem) (buf' : Nat),
        (m.patch es.stores).Received buf m' buf' (4 + 2 * nofRntis.toNat) →
        ∀ (host' : ByteOrder) (cap : UInt32) (old : Nat → UInt16), ∃ t,
          (eppTLVRntiReport host' buf' old cap).run m' =
            some ((epSuccess,
              fun i => if i < min nofRntis.toNat cap.toNat then rntis i else old i,
              UInt32.ofNat (min nofRntis.toNat cap.toNat)), t) ∧
          t.sets = (List.range (min nofRntis.toNat cap.toNat)).map Int.ofNat)

section RoundTrip
variable {host : ByteOrder} {buf : Nat} {size nofRntis : UInt32} {rntis : Nat → UInt16} {m : Mem}

theorem ContainerRoundTrips.small (trips : ContainerRoundTrips host buf size rntis nofRntis m)
    (room : 4 + 2 * nofRntis.toNat ≤ size.toNat) : nofRntis.toNat < 32768 := by
  obtain ⟨ws, emits, lays⟩ : ∃ ws, Emits (epfTLVRntiReport host buf size rntis nofRntis)
      (toInt32 ((4 + 2 * nofRntis.toNat : Nat) : Int)) ws ∧
        Lays ws buf (rntiReportBytes rntis nofRntis.toNat) :=
    epfTLVRntiReport_lays buf size nofRntis (.inr room)
  obtain ⟨es, hrun, rfl⟩ := emits m
  have survives := (Code.exists_run_iff hrun _).mp trips
  have length := (survives (toInt32_even_ne nofRntis.toNat)).2.1
  have declared := declared_of_rntiReport (lays.holds m)
  omega

theorem containerRoundTrips_of_small (small : nofRntis.toNat < 32768)
    (whole : nofRntis.toNat = 0 ∨ 4 + 2 * nofRntis.toNat ≤ size.toNat) :
    ContainerRoundTrips host buf size rntis nofRntis m := by
  obtain ⟨ws, emits, lays⟩ : ∃ ws, Emits (epfTLVRntiReport host buf size rntis nofRntis)
      (toInt32 ((4 + 2 * nofRntis.toNat : Nat) : Int)) ws ∧
        Lays ws buf (rntiReportBytes rntis nofRntis.toNat) :=
    epfTLVRntiReport_lays buf size nofRntis whole
  obtain ⟨es, hrun, rfl⟩ := emits m
  have held := lays.holds m
  have declared := declared_of_rntiReport held
  refine ⟨_, es, hrun, fun _ => ⟨toInt32_of_lt (by omega) (by omega), by omega,
    fun m' buf' received host' cap old => ?_⟩⟩
  have arrived : m'.Holds buf' (rntiReportBytes rntis nofRntis.toNat) :=
    Mem.Holds.received (k := 0) held received (by simp)
  refine ⟨_, run_eppTLVRntiReport_held arrived small old cap, ?_⟩
  rw [Trace.sets_append, Code.sets_loadTrace, rntiCopyTrace_sets, List.nil_append,
    List.range_eq_range']

theorem containerRoundTrips_of_refused (pos : 0 < nofRntis.toNat)
    (short : size.toNat < 4 + 2 * nofRntis.toNat) :
    ContainerRoundTrips host buf size rntis nofRntis m := by
  obtain ⟨ws, emits⟩ : ∃ ws, Emits (epfTLVRntiReport host buf size rntis nofRntis) (-1) ws :=
    epfTLVRntiReport_short buf size nofRntis pos short
  obtain ⟨es, hrun, -⟩ := emits m
  exact ⟨-1, es, hrun, fun accepted => absurd rfl accepted⟩

end RoundTrip

/-- A list survives unless it is written and its byte length needs more than 16 bits. -/
theorem containerRoundTrips_iff (host : ByteOrder) (buf : Nat) (size : UInt32)
    (rntis : Nat → UInt16) (nofRntis : UInt32) (m : Mem) :
    ContainerRoundTrips host buf size rntis nofRntis m ↔
      nofRntis.toNat < 32768 ∨ size.toNat < 4 + 2 * nofRntis.toNat := by
  by_cases room : 4 + 2 * nofRntis.toNat ≤ size.toNat
  · apply Iff.intro
    · intro trips
      exact .inl (trips.small room)
    · intro small
      exact containerRoundTrips_of_small (by omega) (.inr room)
  · refine iff_of_true ?_ (.inr (by omega))
    by_cases empty : nofRntis.toNat = 0
    · exact containerRoundTrips_of_small (by omega) (.inl empty)
    · exact containerRoundTrips_of_refused (by omega) (by omega)

/-- A token of 32768 entries declares no bytes at all. -/
theorem not_containerRoundTrips :
    ¬ ContainerRoundTrips .little 0 65540 (fun _ => 7) 32768 (Mem.ofBytes []) := by
  intro trips
  exact absurd (trips.small (by decide)) (by decide)

end Emproto
