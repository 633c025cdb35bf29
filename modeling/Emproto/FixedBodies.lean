import Emproto.Hello
import Emproto.Handover
import Emproto.Ran
import Emproto.UeReport

/-! Public parsers of messages whose body has a fixed size. Each body parser guards
itself with the size it is given; what the public parsers give it decides which
messages they accept. -/

namespace Emproto

/-- A parser's run on a message of `size` bytes at `b`, of which it needs `full`: it
succeeds exactly if they are there, a failure leaves the outputs as they were, and
bytes of the message only are fetched. -/
def FixedExact {α : Type} (status : α → Int) (kept : α → Prop) (run : Option (α × Trace))
    (b size full : Nat) : Prop :=
  ∃ r es, run = some (r, es) ∧ (status r = epSuccess ↔ full ≤ size) ∧
    (status r ≠ epSuccess → status r < 0 ∧ kept r) ∧ es.ReadsIn b (b + size)

/-- A body parser's run that asks for `need` of the `n` bytes it is given at `p`. -/
structure Guarded {α : Type} (status : α → Int) (kept : α → Prop) (run : Option (α × Trace))
    (p n need : Nat) : Prop where
  short : n < need → ∃ r es, run = some (r, es) ∧ status r < 0 ∧ kept r ∧ es.loads = []
  long : need ≤ n → ∃ r es, run = some (r, es) ∧ status r = epSuccess ∧ es.ReadsIn p (p + need)

namespace Guarded
variable {α : Type} {status : α → Int} {kept : α → Prop} {run : Option (α × Trace)}
  {b p n need size full : Nat}

theorem exact_iff (guarded : Guarded status kept run p n need) (behind : b ≤ p)
    (inside : p + need ≤ b + full) :
    FixedExact status kept run b size full ↔ (need ≤ n ↔ full ≤ size) := by
  by_cases long : need ≤ n
  · obtain ⟨r, es, hrun, success, reads⟩ := guarded.long long
    refine (Code.exists_run_iff hrun _).trans ?_
    apply Iff.intro
    · intro exact
      exact iff_of_true long (exact.1.mp success)
    · intro same
      have room : full ≤ size := same.mp long
      refine ⟨iff_of_true success room, fun failed => absurd success failed, ?_⟩
      intro a ha
      have := reads a ha
      omega
  · obtain ⟨r, es, hrun, failed, outputs, silent⟩ := guarded.short (Nat.lt_of_not_le long)
    have error : status r ≠ epSuccess := ne_of_lt failed
    refine (Code.exists_run_iff hrun _).trans ?_
    apply Iff.intro
    · intro exact
      exact iff_of_false long (exact.1.not.mp error)
    · intro same
      have cut : ¬ full ≤ size := same.not.mp long
      refine ⟨iff_of_false error cut, fun _ => ⟨failed, outputs⟩, ?_⟩
      rw [Trace.ReadsIn, silent]
      simp

theorem whole_iff (guarded : Guarded status kept run p size need) (behind : b ≤ p)
    (inside : p + need ≤ b + full) (body : need ≤ full) :
    FixedExact status kept run b size full ↔ size < need ∨ full ≤ size := by
  rw [guarded.exact_iff behind inside]
  omega

theorem reduced_iff {size : UInt32} {h : Nat} (small : h + need ≤ 64)
    (guarded : Guarded status kept run p (size - UInt32.ofNat h).toNat need) (behind : b ≤ p)
    (inside : p + need ≤ b + (h + need)) :
    FixedExact status kept run b size.toNat (h + need) ↔ h ≤ size.toNat := by
  rw [guarded.exact_iff behind inside]
  by_cases fits : h ≤ size.toNat
  · rw [uint32_sub_toNat fits]
    omega
  · have := size.toNat_lt
    rw [uint32_sub_toNat_wrap (Nat.lt_of_not_le fits) (by omega)]
    omega

end Guarded

theorem epError_neg : epError < 0 := by decide

section Bodies
variable {host : ByteOrder} {m : Mem} {p : Nat} {size : UInt32}

theorem parseHello_guarded (id : Option UInt32) :
    Guarded Prod.fst (fun r => r.2 = id) ((parseHello host p size id).run m) p size.toNat 4 where
  short h := by
    rw [parseHello, Code.run_note_bind m rfl, if_pos h]
    exact ⟨_, _, rfl, epError_neg, rfl, rfl⟩
  long h := by
    rw [parseHello, Code.run_note_bind m rfl, if_neg (Nat.not_lt.mpr h),
      Code.run_assignFetch_bind m p host id]
    refine ⟨_, _, rfl, rfl, ?_⟩
    rw [Trace.readsIn_cons _ rfl, Trace.readsIn_append]
    exact ⟨Code.readsIn_assignTrace p 4 id le_rfl le_rfl, Trace.readsIn_nil _ _⟩

theorem parseSliceId_guarded (id : Option UInt64) :
    Guarded Prod.fst (fun r => r.2 = id) ((parseSliceId host p size id).run m) p size.toNat 8 where
  short h := by
    rw [parseSliceId, Code.run_note_bind m rfl, if_pos h]
    exact ⟨_, _, rfl, epError_neg, rfl, rfl⟩
  long h := by
    rw [parseSliceId, Code.run_note_bind m rfl, if_neg (Nat.not_lt.mpr h)]
    change ∃ r es, Option.map _ ((Code.assign id (Code.fetch host p) >>= _).run m) = _ ∧ _
    rw [Code.run_assignFetch_bind m p host id]
    refine ⟨_, _, rfl, rfl, ?_⟩
    rw [Trace.readsIn_cons _ rfl, Trace.readsIn_append]
    exact ⟨Code.readsIn_assignTrace p 8 id le_rfl le_rfl, Trace.readsIn_nil _ _⟩

theorem eppHoReq_guarded (out : HoReqOut) :
    Guarded Prod.fst (fun r => r.2 = out) ((eppHoReq host p size out).run m) p size.toNat 13 where
  short h := by
    rw [eppHoReq, Code.run_note_bind m rfl, if_pos h]
    exact ⟨_, _, rfl, epError_neg, rfl, rfl⟩
  long h := by
    have cause : (Code.assign out.cause (Code.load host (p + 12))).run m =
        some (out.cause.map fun _ => m.word host (p + 12), Code.assignTrace out.cause (p + 12) 1) :=
      Code.run_assign m (Code.run_load m host (p + 12)) (Code.stores_loadTrace _ _) out.cause
    rw [eppHoReq, Code.run_note_bind m rfl, if_neg (Nat.not_lt.mpr h),
      Code.run_assignFetch_bind m p host out.rnti,
      Code.run_assignFetch_bind m (p + 2) host out.enb,
      Code.run_assignFetch_bind m (p + 10) host out.pci,
      Code.run_bind_quiet m cause (Code.plain_assignTrace _ _ _).stores]
    refine ⟨_, _, rfl, rfl, ?_⟩
    simp only [Trace.readsIn_cons _ (rfl : (Event.enter p size.toNat).load? = none),
      Trace.readsIn_append]
    exact ⟨Code.readsIn_assignTrace p 2 _ (by omega) (by omega),
      Code.readsIn_assignTrace (p + 2) 8 _ (by omega) (by omega),
      Code.readsIn_assignTrace (p + 10) 2 _ (by omega) (by omega),
      Code.readsIn_assignTrace (p + 12) 1 _ (by omega) (by omega), Trace.readsIn_nil _ _⟩

theorem eppHoRep_guarded (out : HoRepOut) :
    Guarded Prod.fst (fun r => r.2 = out) ((eppHoRep host p size out).run m) p size.toNat 14 where
  short h := by
    rw [eppHoRep, Code.run_note_bind m rfl, if_pos h]
    exact ⟨_, _, rfl, epError_neg, rfl, rfl⟩
  long h := by
    rw [eppHoRep, Code.run_note_bind m rfl, if_neg (Nat.not_lt.mpr h),
      Code.run_assignFetch_bind m p host out.originENB,
      Code.run_assignFetch_bind m (p + 8) host out.originPci,
      Code.run_assignFetch_bind m (p + 10) host out.originRnti,
      Code.run_assignFetch_bind m (p + 12) host out.targetRnti]
    refine ⟨_, _, rfl, rfl, ?_⟩
    simp only [Trace.readsIn_cons _ (rfl : (Event.enter p size.toNat).load? = none),
      Trace.readsIn_append]
    exact ⟨Code.readsIn_assignTrace p 8 _ (by omega) (by omega),
      Code.readsIn_assignTrace (p + 8) 2 _ (by omega) (by omega),
      Code.readsIn_assignTrace (p + 10) 2 _ (by omega) (by omega),
      Code.readsIn_assignTrace (p + 12) 2 _ (by omega) (by omega), Trace.readsIn_nil _ _⟩

theorem eppUerepReq_guarded :
    Guarded id (fun _ => True) ((eppUerepReq p size).run m) p size.toNat 1 where
  short h := by
    rw [eppUerepReq, Code.run_note_bind m rfl, if_pos h]
    exact ⟨_, _, rfl, epError_neg, trivial, rfl⟩
  long h := by
    rw [eppUerepReq, Code.run_note_bind m rfl, if_neg (Nat.not_lt.mpr h)]
    exact ⟨_, _, rfl, rfl, (Trace.readsIn_cons _ rfl _ _).mpr (Trace.readsIn_nil _ _)⟩

end Bodies

/-- The size is compared with the body alone where it is passed on whole, and with
all parts, unless the difference wraps, where the headers are taken off. -/
theorem fixedBodies_exact_iff (host : ByteOrder) (m : Mem) (b : Nat) (size : UInt32) :
    (∀ id : Option UInt32, FixedExact Prod.fst (fun r => r.2 = id)
      ((eppSingleHelloReq host (some b) size id).run m) b size.toNat (24 + 3 + 4) ↔
        size.toNat < 4 ∨ 24 + 3 + 4 ≤ size.toNat) ∧
    (∀ id : Option UInt32, FixedExact Prod.fst (fun r => r.2 = id)
      ((eppSingleHelloRep host (some b) size id).run m) b size.toNat (24 + 3 + 4) ↔
        size.toNat < 4 ∨ 24 + 3 + 4 ≤ size.toNat) ∧
    (∀ id : Option UInt32, FixedExact Prod.fst (fun r => r.2 = id)
      ((eppSchedHelloReq host (some b) size id).run m) b size.toNat (24 + 7 + 4) ↔
        size.toNat < 4 ∨ 24 + 7 + 4 ≤ size.toNat) ∧
    (∀ id : Option UInt32, FixedExact Prod.fst (fun r => r.2 = id)
      ((eppSchedHelloRep host (some b) size id).run m) b size.toNat (24 + 7 + 4) ↔
        size.toNat < 4 ∨ 24 + 7 + 4 ≤ size.toNat) ∧
    (∀ out : HoReqOut, FixedExact Prod.fst (fun r => r.2 = out)
      ((eppSingleHoReq host (some b) size out).run m) b size.toNat (24 + 3 + 13) ↔
        size.toNat < 13 ∨ 24 + 3 + 13 ≤ size.toNat) ∧
    (∀ out : HoRepOut, FixedExact Prod.fst (fun r => r.2 = out)
      ((eppSingleHoRep host (some b) size out).run m) b size.toNat (24 + 3 + 14) ↔
        size.toNat < 14 ∨ 24 + 3 + 14 ≤ size.toNat) ∧
    (FixedExact id (fun _ => True) ((eppTriggerUerepReq (some b) size).run m) b size.toNat
      (24 + 3 + 1) ↔ size.toNat < 1 ∨ 24 + 3 + 1 ≤ size.toNat) ∧
    (∀ id : Option UInt64, FixedExact Prod.fst (fun r => r.2 = id)
      ((eppSingleRanSliceReq host (some b) size id).run m) b size.toNat (24 + 3 + 8) ↔
        24 + 3 ≤ size.toNat) ∧
    (∀ id : Option UInt64, FixedExact Prod.fst (fun r => r.2 = id)
      ((eppSingleRanSliceRem host (some b) size id).run m) b size.toNat (24 + 3 + 8) ↔
        24 + 3 ≤ size.toNat) :=
  ⟨fun id => (parseHello_guarded id).whole_iff (by omega) (by omega) (by decide),
    fun id => (parseHello_guarded id).whole_iff (by omega) (by omega) (by decide),
    fun id => (parseHello_guarded id).whole_iff (by omega) (by omega) (by decide),
    fun id => (parseHello_guarded id).whole_iff (by omega) (by omega) (by decide),
    fun out => (eppHoReq_guarded out).whole_iff (by omega) (by omega) (by decide),
    fun out => (eppHoRep_guarded out).whole_iff (by omega) (by omega) (by decide),
    eppUerepReq_guarded.whole_iff (by omega) (by omega) (by decide),
    fun id => (parseSliceId_guarded id).reduced_iff (by decide) (by omega) (by omega),
    fun id => (parseSliceId_guarded id).reduced_iff (by decide) (by omega) (by omega)⟩

/-- A hello request cut off after 20 bytes is accepted. -/
theorem cutHello_not_fixedExact :
    ¬ FixedExact Prod.fst (fun r => r.2 = some 0)
      ((eppSingleHelloReq .little (some 0) 20 (some 0)).run fun _ => 0) 0 (20 : UInt32).toNat
      (24 + 3 + 4) := by
  intro h
  obtain ⟨r, es, hrun, exact, -⟩ := h
  have run : ((eppSingleHelloReq .little (some 0) 20 (some 0)).run fun _ => 0).map
      (fun r => r.1.1) = some 0 := by
    decide +kernel
  rw [hrun] at run
  exact absurd (exact.mp (Option.some.inj run)) (by decide)

end Emproto
