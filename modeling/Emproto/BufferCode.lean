import Emproto.ByteOrder
import Mathlib.Logic.Function.Basic

/-! Straight-line code over one flat byte memory, with its trace.
Addresses are natural numbers, so a pointer sum never wraps. A run yields a
value together with the accesses it made, in order, or `none` where it would
dereference a null pointer. The memory after a run is the initial memory
patched by the stores of the trace. -/

namespace Emproto

abbrev Mem := Nat → UInt8

inductive Event
  | load (addr : Nat)
  | store (addr : Nat) (byte : UInt8)
  /-- An element of a caller's array is read. -/
  | get (index : Int)
  /-- An element of a caller's array is written. -/
  | set (index : Int)
  /-- A token handler is entered at the given address. -/
  | call (addr : Nat)
  /-- A body parser is entered with the given address and size. -/
  | enter (addr size : Nat)
deriving DecidableEq, Repr

namespace Event

def load? : Event → Option Nat
  | load addr => some addr
  | _ => none

def store? : Event → Option (Nat × UInt8)
  | store addr byte => some (addr, byte)
  | _ => none

def get? : Event → Option Int
  | get index => some index
  | _ => none

def set? : Event → Option Int
  | set index => some index
  | _ => none

def call? : Event → Option Nat
  | call addr => some addr
  | _ => none

def enter? : Event → Option (Nat × Nat)
  | enter addr size => some (addr, size)
  | _ => none

end Event

abbrev Trace := List Event

namespace Trace

def loads (t : Trace) : List Nat := t.filterMap Event.load?
def stores (t : Trace) : List (Nat × UInt8) := t.filterMap Event.store?
def gets (t : Trace) : List Int := t.filterMap Event.get?
def sets (t : Trace) : List Int := t.filterMap Event.set?
def calls (t : Trace) : List Nat := t.filterMap Event.call?
def enters (t : Trace) : List (Nat × Nat) := t.filterMap Event.enter?

def ReadsIn (t : Trace) (lo hi : Nat) : Prop := ∀ a ∈ t.loads, lo ≤ a ∧ a < hi

def WritesIn (t : Trace) (lo hi : Nat) : Prop := ∀ w ∈ t.stores, lo ≤ w.1 ∧ w.1 < hi

section
variable (s t : Trace)

@[simp] theorem loads_nil : loads [] = [] := rfl
@[simp] theorem stores_nil : stores [] = [] := rfl
@[simp] theorem gets_nil : gets [] = [] := rfl
@[simp] theorem sets_nil : sets [] = [] := rfl
@[simp] theorem calls_nil : calls [] = [] := rfl
@[simp] theorem enters_nil : enters [] = [] := rfl

@[simp] theorem loads_append : loads (s ++ t) = loads s ++ loads t := List.filterMap_append
@[simp] theorem stores_append : stores (s ++ t) = stores s ++ stores t := List.filterMap_append
@[simp] theorem gets_append : gets (s ++ t) = gets s ++ gets t := List.filterMap_append
@[simp] theorem sets_append : sets (s ++ t) = sets s ++ sets t := List.filterMap_append
@[simp] theorem calls_append : calls (s ++ t) = calls s ++ calls t := List.filterMap_append
@[simp] theorem enters_append : enters (s ++ t) = enters s ++ enters t := List.filterMap_append

@[simp] theorem loads_cons (e : Event) : loads (e :: t) = e.load?.toList ++ loads t := by
  cases e <;> rfl
@[simp] theorem stores_cons (e : Event) : stores (e :: t) = e.store?.toList ++ stores t := by
  cases e <;> rfl
@[simp] theorem gets_cons (e : Event) : gets (e :: t) = e.get?.toList ++ gets t := by
  cases e <;> rfl
@[simp] theorem sets_cons (e : Event) : sets (e :: t) = e.set?.toList ++ sets t := by
  cases e <;> rfl
@[simp] theorem calls_cons (e : Event) : calls (e :: t) = e.call?.toList ++ calls t := by
  cases e <;> rfl
@[simp] theorem enters_cons (e : Event) : enters (e :: t) = e.enter?.toList ++ enters t := by
  cases e <;> rfl

@[simp] theorem readsIn_nil (lo hi : Nat) : ReadsIn [] lo hi := by simp [ReadsIn]

@[simp] theorem readsIn_append (lo hi : Nat) :
    ReadsIn (s ++ t) lo hi ↔ ReadsIn s lo hi ∧ ReadsIn t lo hi := by
  simp only [ReadsIn, loads_append, List.forall_mem_append]

theorem readsIn_cons {e : Event} (quiet : e.load? = none) (lo hi : Nat) :
    ReadsIn (e :: t) lo hi ↔ ReadsIn t lo hi := by
  rw [ReadsIn, loads_cons, quiet]
  rfl

theorem readsIn_flatMap {α : Type} (xs : List α) (f : α → Trace) (lo hi : Nat) :
    ReadsIn (xs.flatMap f) lo hi ↔ ∀ x ∈ xs, ReadsIn (f x) lo hi := by
  induction xs with
  | nil => simp
  | cons x xs ih => rw [List.flatMap_cons, readsIn_append, ih, List.forall_mem_cons]

end

structure Plain (t : Trace) : Prop where
  stores : t.stores = []
  calls : t.calls = []
  enters : t.enters = []

/-- The trace of the token handler entered at `c`, which stores no byte and enters
nothing else. -/
structure Handles (t : Trace) (c : Nat) : Prop where
  stores : t.stores = []
  calls : t.calls = [c]
  enters : t.enters = []

section
variable {s t : Trace}

@[simp] theorem plain_nil : Plain [] := ⟨rfl, rfl, rfl⟩

@[simp] theorem plain_append : Plain (s ++ t) ↔ Plain s ∧ Plain t := by
  apply Iff.intro
  · intro h
    have stores := List.append_eq_nil_iff.mp ((stores_append s t).symm.trans h.stores)
    have calls := List.append_eq_nil_iff.mp ((calls_append s t).symm.trans h.calls)
    have enters := List.append_eq_nil_iff.mp ((enters_append s t).symm.trans h.enters)
    exact ⟨⟨stores.1, calls.1, enters.1⟩, ⟨stores.2, calls.2, enters.2⟩⟩
  · intro h
    exact ⟨by simp [h.1.stores, h.2.stores], by simp [h.1.calls, h.2.calls],
      by simp [h.1.enters, h.2.enters]⟩

@[simp] theorem plain_get (i : Int) : Plain (.get i :: t) ↔ Plain t :=
  ⟨fun h => ⟨h.stores, h.calls, h.enters⟩, fun h => ⟨h.stores, h.calls, h.enters⟩⟩

@[simp] theorem plain_set (i : Int) : Plain (.set i :: t) ↔ Plain t :=
  ⟨fun h => ⟨h.stores, h.calls, h.enters⟩, fun h => ⟨h.stores, h.calls, h.enters⟩⟩

theorem Plain.handles (h : t.Plain) (c : Nat) : Handles (.call c :: t) c :=
  ⟨h.stores, congrArg (c :: ·) h.calls, h.enters⟩

end

end Trace

def chunk : Nat → List UInt8 → List (Nat × UInt8)
  | _, [] => []
  | p, b :: bs => (p, b) :: chunk (p + 1) bs

theorem chunk_append (p : Nat) (xs ys : List UInt8) :
    chunk p (xs ++ ys) = chunk p xs ++ chunk (p + xs.length) ys := by
  induction xs generalizing p with
  | nil => rfl
  | cons x xs ih =>
    simp only [List.cons_append, chunk, ih, List.length_cons, Nat.add_assoc, Nat.add_comm 1]

theorem chunk_bounds {p : Nat} {bs : List UInt8} {w : Nat × UInt8} (h : w ∈ chunk p bs) :
    p ≤ w.1 ∧ w.1 < p + bs.length := by
  induction bs generalizing p with
  | nil => simp [chunk] at h
  | cons b bs ih =>
    rcases List.mem_cons.mp h with rfl | h
    · simp
    · have := ih h
      simp only [List.length_cons]
      omega

theorem wordChunk_bounds {W : Type} [Word W] {order : ByteOrder} {p : Nat} {x : W}
    {w : Nat × UInt8} (h : w ∈ chunk p (Word.bytes order x)) :
    p ≤ w.1 ∧ w.1 < p + Word.width W := by
  have bounds := chunk_bounds h
  rwa [Word.bytes_length] at bounds

namespace Mem

def ofBytes (bs : List UInt8) : Mem := fun a => bs.getD a 0

def slice (m : Mem) : Nat → Nat → List UInt8
  | _, 0 => []
  | p, n + 1 => m p :: slice m (p + 1) n

@[simp] theorem slice_length (m : Mem) (p n : Nat) : (m.slice p n).length = n := by
  induction n generalizing p with
  | zero => rfl
  | succ n ih => simp [slice, ih]

theorem slice_add (m : Mem) (p a b : Nat) :
    m.slice p (a + b) = m.slice p a ++ m.slice (p + a) b := by
  induction a generalizing p with
  | zero => simp [slice]
  | succ a ih =>
    rw [Nat.add_right_comm, slice, slice, ih, List.cons_append]
    simp only [Nat.add_assoc, Nat.add_comm 1]

theorem slice_congr {m m' : Mem} {p q n : Nat} (h : ∀ i < n, m (p + i) = m' (q + i)) :
    m.slice p n = m'.slice q n := by
  induction n generalizing p q with
  | zero => rfl
  | succ n ih =>
    rw [slice, slice, ih (p := p + 1) (q := q + 1)]
    · rw [show m p = m' q from h 0 (Nat.succ_pos n)]
    · intro i hi
      have := h (i + 1) (by omega)
      rwa [show p + 1 + i = p + (i + 1) by omega, show q + 1 + i = q + (i + 1) by omega]

def Holds (m : Mem) (p : Nat) (bs : List UInt8) : Prop := m.slice p bs.length = bs

theorem holds_append {m : Mem} {p : Nat} {xs ys : List UInt8} :
    m.Holds p (xs ++ ys) ↔ m.Holds p xs ∧ m.Holds (p + xs.length) ys := by
  simp only [Holds, List.length_append, slice_add]
  apply Iff.intro
  · intro h
    exact List.append_inj h (by simp)
  · rintro ⟨h, h'⟩
    rw [h, h']

theorem Holds.transport {m m' : Mem} {p q : Nat} {bs : List UInt8} (h : m.Holds p bs)
    (same : ∀ i < bs.length, m' (q + i) = m (p + i)) : m'.Holds q bs := by
  rw [Holds, slice_congr same]
  exact h

theorem Holds.same {m m' : Mem} {p q i : Nat} {bs : List UInt8} (h : m.Holds p bs)
    (h' : m'.Holds q bs) (hi : i < bs.length) : m (p + i) = m' (q + i) := by
  induction bs generalizing p q i with
  | nil => exact absurd hi (Nat.not_lt_zero i)
  | cons b bs ih =>
    obtain ⟨head, tail⟩ := List.cons.inj h
    obtain ⟨head', tail'⟩ := List.cons.inj h'
    cases i with
    | zero => exact head.trans head'.symm
    | succ i =>
      rw [Nat.add_comm i 1, ← Nat.add_assoc, ← Nat.add_assoc]
      exact ih tail tail' (Nat.lt_of_succ_lt_succ hi)

/-- The `n` bytes at `p` in `m` have been received at `q` in `m'`. -/
def Received (m : Mem) (p : Nat) (m' : Mem) (q n : Nat) : Prop :=
  ∀ i < n, m' (q + i) = m (p + i)

theorem Holds.received {m m' : Mem} {p q n k : Nat} {bs : List UInt8} (h : m.Holds (p + k) bs)
    (r : m.Received p m' q n) (hk : k + bs.length ≤ n) : m'.Holds (q + k) bs :=
  h.transport fun i hi => by
    rw [Nat.add_assoc, Nat.add_assoc]
    exact r (k + i) (by omega)

def word {W : Type} [Word W] (m : Mem) (order : ByteOrder) (p : Nat) : W :=
  Word.ofBytes order (m.slice p (Word.width W))

/-- The word that network byte order assigns to the bytes at `p`. -/
abbrev be {W : Type} [Word W] (m : Mem) (p : Nat) : W := m.word .big p

@[simp] theorem ntoh_word {W : Type} [Word W] (m : Mem) (host : ByteOrder) (p : Nat) :
    ntoh host (m.word host p : W) = m.be p :=
  ntoh_ofBytes host _ (slice_length m p _)

theorem word_eq_hton {W : Type} [Word W] (m : Mem) (host : ByteOrder) (p : Nat) :
    (m.word host p : W) = hton host (m.be p) := by
  rw [← ntoh_word m host p, hton_ntoh]

theorem holds_be {W : Type} [Word W] (m : Mem) (p : Nat) :
    m.Holds p (Word.bytes .big (m.be p : W)) := by
  rw [Holds, Word.bytes_length, be, word, Word.bytes_ofBytes _ _ (m.slice_length p _)]

theorem same_of_be {W : Type} [Word W] {m m' : Mem} {p q i : Nat} (h : (m.be p : W) = m'.be q)
    (inside : i < Word.width W) : m (p + i) = m' (q + i) := by
  have held : m'.Holds q (Word.bytes .big (m.be p : W)) := h ▸ m'.holds_be q
  exact (m.holds_be p).same held (by rwa [Word.bytes_length])

theorem Holds.word_same {W : Type} [Word W] {m m' : Mem} {p q k : Nat} {bs : List UInt8}
    (h : m.Holds p bs) (h' : m'.Holds q bs) (inside : k + Word.width W ≤ bs.length) :
    (m.be (p + k) : W) = m'.be (q + k) := by
  rw [be, be, word, word]
  congr 1
  refine slice_congr fun i hi => ?_
  rw [Nat.add_assoc, Nat.add_assoc]
  exact h.same h' (by omega)

theorem word_of_holds_bytes {W : Type} [Word W] {m : Mem} {order order' : ByteOrder} {p : Nat}
    {w : W} (h : m.Holds p (Word.bytes order w)) :
    m.word order' p = (Word.ofBytes order' (Word.bytes order w) : W) := by
  rw [Holds, Word.bytes_length] at h
  rw [word, h]

theorem word_of_holds {W : Type} [Word W] {m : Mem} {order : ByteOrder} {p : Nat} {w : W}
    (h : m.Holds p (Word.bytes order w)) : m.word order p = w := by
  rw [word_of_holds_bytes h, Word.ofBytes_bytes]

@[simp] theorem word_uint8 (m : Mem) (host : ByteOrder) (p : Nat) :
    (m.word host p : UInt8) = m p := by
  have held : m.Holds p (Word.bytes host (m p)) := by
    rw [bytes_uint8]
    rfl
  exact word_of_holds held

def patch (m : Mem) : List (Nat × UInt8) → Mem
  | [] => m
  | w :: ws => patch (Function.update m w.1 w.2) ws

@[simp] theorem patch_nil (m : Mem) : m.patch [] = m := rfl

theorem patch_append (m : Mem) (vs ws : List (Nat × UInt8)) :
    m.patch (vs ++ ws) = (m.patch vs).patch ws := by
  induction vs generalizing m with
  | nil => rfl
  | cons v vs ih => exact ih _

theorem patch_frame (m : Mem) {ws : List (Nat × UInt8)} {a : Nat} (h : ∀ w ∈ ws, w.1 ≠ a) :
    m.patch ws a = m a := by
  induction ws generalizing m with
  | nil => rfl
  | cons w ws ih =>
    rw [patch, ih _ (fun v hv => h v (List.mem_cons_of_mem _ hv)),
      Function.update_of_ne (h w List.mem_cons_self).symm]

theorem holds_patch_chunk (m : Mem) (p : Nat) (bs : List UInt8) :
    (m.patch (chunk p bs)).Holds p bs := by
  induction bs generalizing m p with
  | nil => rfl
  | cons b bs ih =>
    have head : (m.patch (chunk p (b :: bs))) p = b := by
      rw [chunk, patch, patch_frame]
      · simp
      · intro w hw
        have := chunk_bounds hw
        omega
    have tail := ih (Function.update m p b) (p + 1)
    rw [Holds, List.length_cons, slice, head]
    exact congrArg (b :: ·) tail

theorem Holds.patch {m : Mem} {p : Nat} {bs : List UInt8} (h : m.Holds p bs)
    {ws : List (Nat × UInt8)} (apart : ∀ w ∈ ws, w.1 < p ∨ p + bs.length ≤ w.1) :
    (m.patch ws).Holds p bs := by
  refine h.transport fun i hi => patch_frame m fun w hw => ?_
  have := apart w hw
  omega

end Mem

/-- A value and a trace computed from the memory, or a null dereference. -/
structure Code (α : Type) where
  run : Mem → Option (α × Trace)

namespace Code
variable {α β : Type}

instance : Monad Code where
  pure a := ⟨fun _ => some (a, [])⟩
  bind x f := ⟨fun m => (x.run m).bind fun r =>
    ((f r.1).run (m.patch r.2.stores)).map fun s => (s.1, r.2 ++ s.2)⟩

def note (e : Event) : Code Unit := ⟨fun _ => some ((), [e])⟩

def crash : Code α := ⟨fun _ => none⟩

def loadTrace (p : Nat) : Nat → Trace
  | 0 => []
  | n + 1 => .load p :: loadTrace (p + 1) n

def storeTrace (p : Nat) : List UInt8 → Trace
  | [] => []
  | b :: bs => .store p b :: storeTrace (p + 1) bs

def load {W : Type} [Word W] (host : ByteOrder) (p : Nat) : Code W :=
  ⟨fun m => some (m.word host p, loadTrace p (Word.width W))⟩

def store {W : Type} [Word W] (host : ByteOrder) (p : Nat) (w : W) : Code Unit :=
  ⟨fun _ => some ((), storeTrace p (Word.bytes host w))⟩

/-- `if(out) { *out = value; }` for an output pointer that may be null. -/
def assign (out : Option α) (value : Code α) : Code (Option α) :=
  match out with
  | none => pure none
  | some _ => do
    let v ← value
    pure (some v)

def fetch {W : Type} [Word W] (host : ByteOrder) (p : Nat) : Code W := do
  let w : W ← load host p
  pure (ntoh host w)

def assignTrace (out : Option α) (p n : Nat) : Trace :=
  if out.isSome then loadTrace p n else []

variable (m : Mem)

@[simp] theorem run_pure (a : α) : (pure a : Code α).run m = some (a, []) := rfl

theorem run_bind (x : Code α) (f : α → Code β) :
    (x >>= f).run m = (x.run m).bind fun r =>
      ((f r.1).run (m.patch r.2.stores)).map fun s => (s.1, r.2 ++ s.2) := rfl

theorem run_bind_of {x : Code α} {a : α} {t : Trace} (h : x.run m = some (a, t))
    (f : α → Code β) :
    (x >>= f).run m = ((f a).run (m.patch t.stores)).map fun s => (s.1, t ++ s.2) := by
  rw [run_bind, h, Option.bind_some]

@[simp] theorem run_note (e : Event) : (note e).run m = some ((), [e]) := rfl

@[simp] theorem run_crash : (crash : Code α).run m = none := rfl

@[simp] theorem run_load {W : Type} [Word W] (host : ByteOrder) (p : Nat) :
    (load host p : Code W).run m = some (m.word host p, loadTrace p (Word.width W)) := rfl

@[simp] theorem run_store {W : Type} [Word W] (host : ByteOrder) (p : Nat) (w : W) :
    (store host p w).run m = some ((), storeTrace p (Word.bytes host w)) := rfl

@[simp] theorem run_ite (c : Prop) [Decidable c] (x y : Code α) :
    (if c then x else y).run m = if c then x.run m else y.run m := by
  split <;> rfl

variable (p n : Nat) (bs : List UInt8)

@[simp] theorem loads_loadTrace : Trace.loads (loadTrace p n) = List.range' p n := by
  induction n generalizing p with
  | zero => rfl
  | succ n ih => simp [loadTrace, ih, Event.load?, List.range'_succ]

@[simp] theorem stores_loadTrace : Trace.stores (loadTrace p n) = [] := by
  induction n generalizing p with
  | zero => rfl
  | succ n ih => simp [loadTrace, ih, Event.store?]

@[simp] theorem gets_loadTrace : Trace.gets (loadTrace p n) = [] := by
  induction n generalizing p with
  | zero => rfl
  | succ n ih => simp [loadTrace, ih, Event.get?]

@[simp] theorem sets_loadTrace : Trace.sets (loadTrace p n) = [] := by
  induction n generalizing p with
  | zero => rfl
  | succ n ih => simp [loadTrace, ih, Event.set?]

@[simp] theorem calls_loadTrace : Trace.calls (loadTrace p n) = [] := by
  induction n generalizing p with
  | zero => rfl
  | succ n ih => simp [loadTrace, ih, Event.call?]

@[simp] theorem enters_loadTrace : Trace.enters (loadTrace p n) = [] := by
  induction n generalizing p with
  | zero => rfl
  | succ n ih => simp [loadTrace, ih, Event.enter?]

@[simp] theorem plain_loadTrace : Trace.Plain (loadTrace p n) :=
  ⟨stores_loadTrace p n, calls_loadTrace p n, enters_loadTrace p n⟩

@[simp] theorem stores_storeTrace : Trace.stores (storeTrace p bs) = chunk p bs := by
  induction bs generalizing p with
  | nil => rfl
  | cons b bs ih => simp [storeTrace, chunk, ih, Event.store?]

theorem readsIn_loadTrace {lo hi : Nat} :
    Trace.ReadsIn (loadTrace p n) lo hi ↔ n = 0 ∨ lo ≤ p ∧ p + n ≤ hi := by
  simp only [Trace.ReadsIn, loads_loadTrace, List.mem_range'_1]
  apply Iff.intro
  · intro h
    by_cases hn : n = 0
    · exact .inl hn
    · have first := h p (by omega)
      have last := h (p + n - 1) (by omega)
      omega
  · intro h a ha
    omega

theorem run_bind_quiet {x : Code α} {a : α} {t : Trace} (h : x.run m = some (a, t))
    (quiet : t.stores = []) (f : α → Code β) :
    (x >>= f).run m = ((f a).run m).map fun s => (s.1, t ++ s.2) := by
  rw [run_bind_of m h, quiet, Mem.patch_nil]

theorem run_note_bind {e : Event} (quiet : e.store? = none) (f : Unit → Code β) :
    (note e >>= f).run m = ((f ()).run m).map fun s => (s.1, e :: s.2) :=
  run_bind_quiet m (run_note m e) (by simp [quiet]) f

theorem run_load_bind {W : Type} [Word W] (host : ByteOrder) (f : W → Code β) :
    (load host p >>= f).run m =
      ((f (m.word host p)).run m).map fun s => (s.1, loadTrace p (Word.width W) ++ s.2) :=
  run_bind_quiet m (run_load m host p) (stores_loadTrace p _) f

theorem run_fetch {W : Type} [Word W] (host : ByteOrder) :
    (fetch host p : Code W).run m = some (m.be p, loadTrace p (Word.width W)) := by
  rw [fetch, run_load_bind, Mem.ntoh_word]
  simp

theorem run_assign {value : Code α} {a : α} {t : Trace} (h : value.run m = some (a, t))
    (quiet : t.stores = []) (out : Option α) :
    (assign out value).run m = some (out.map fun _ => a, if out.isSome then t else []) := by
  cases out with
  | none => rfl
  | some _ =>
    rw [assign, run_bind_quiet m h quiet]
    simp

theorem run_assignFetch {W : Type} [Word W] (host : ByteOrder) (out : Option W) :
    (assign out (fetch host p)).run m =
      some (out.map fun _ => m.be p, assignTrace out p (Word.width W)) :=
  run_assign m (run_fetch m p host) (stores_loadTrace p _) out

section
variable (out : Option α)

theorem plain_assignTrace : Trace.Plain (assignTrace out p n) := by
  unfold assignTrace
  split <;> simp

theorem run_assignFetch_bind {W : Type} [Word W] (host : ByteOrder) (out : Option W)
    (f : Option W → Code β) :
    (assign out (fetch host p) >>= f).run m =
      ((f (out.map fun _ => m.be p)).run m).map
        fun s => (s.1, assignTrace out p (Word.width W) ++ s.2) :=
  run_bind_quiet m (run_assignFetch m p host out) (plain_assignTrace p _ out).stores f

theorem readsIn_assignTrace {lo hi : Nat} (h : lo ≤ p) (h' : p + n ≤ hi) :
    Trace.ReadsIn (assignTrace out p n) lo hi := by
  unfold assignTrace
  split
  · exact (readsIn_loadTrace p n).mpr (.inr ⟨h, h'⟩)
  · exact Trace.readsIn_nil lo hi

end

section Result
variable (m : Mem) (p : Nat)

def result (c : Code α) (m : Mem) : Option α := (c.run m).map (·.1)

theorem result_of {c : Code α} {a : α} {t : Trace} (h : c.run m = some (a, t)) :
    c.result m = some a := by
  rw [result, h]
  rfl

@[simp] theorem result_pure (a : α) : (pure a : Code α).result m = some a := rfl

theorem result_bind {x : Code α} {a : α} {t : Trace} (h : x.run m = some (a, t))
    (quiet : t.stores = []) (f : α → Code β) : (x >>= f).result m = (f a).result m := by
  rw [result, run_bind_quiet m h quiet, Option.map_map]
  rfl

theorem result_bind_pure (c : Code α) (g : α → β) :
    (c >>= fun a => pure (g a)).result m = (c.result m).map g := by
  rw [result, result, run_bind]
  cases c.run m <;> rfl

@[simp] theorem result_load_bind {W : Type} [Word W] (host : ByteOrder) (f : W → Code β) :
    (load host p >>= f).result m = (f (m.word host p)).result m :=
  result_bind m (run_load m host p) (stores_loadTrace p _) f

theorem result_assign_bind {value : Code α} {a : α} {t : Trace} (h : value.run m = some (a, t))
    (quiet : t.stores = []) (out : Option α) (f : Option α → Code β) :
    (assign out value >>= f).result m = (f (out.map fun _ => a)).result m := by
  refine result_bind m (run_assign m h quiet out) ?_ f
  split
  · exact quiet
  · rfl

@[simp] theorem result_assignFetch_bind {W : Type} [Word W] (host : ByteOrder) (out : Option W)
    (f : Option W → Code β) :
    (assign out (fetch host p) >>= f).result m =
      (f (out.map fun _ => m.be p)).result m :=
  result_assign_bind m (run_fetch m p host) (stores_loadTrace p _) out f

@[simp] theorem result_assignLoad_bind {W : Type} [Word W] (host : ByteOrder) (out : Option W)
    (f : Option W → Code β) :
    (assign out (load host p) >>= f).result m =
      (f (out.map fun _ => m.word host p)).result m :=
  result_assign_bind m (run_load m host p) (stores_loadTrace p _) out f

@[simp] theorem result_assignCast_bind {W : Type} [Word W] (host : ByteOrder) (g : W → α)
    (out : Option α) (f : Option α → Code β) :
    (assign out (load host p >>= fun w => pure (g w)) >>= f).result m =
      (f (out.map fun _ => g (m.word host p))).result m := by
  have value : (load host p >>= fun w => (pure (g w) : Code α)).run m =
      some (g (m.word host p), loadTrace p (Word.width W)) := by
    rw [run_load_bind]
    simp
  exact result_assign_bind m value (stores_loadTrace p _) out f

end Result

theorem exists_run_iff {run : Option (α × Trace)} {r : α} {es : Trace} (hrun : run = some (r, es))
    (P : α → Trace → Prop) : (∃ r' es', run = some (r', es') ∧ P r' es') ↔ P r es := by
  apply Iff.intro
  · intro h
    obtain ⟨r', es', hrun', holds⟩ := h
    cases hrun.symm.trans hrun'
    exact holds
  · intro holds
    exact ⟨r, es, hrun, holds⟩

end Code

/-- Whatever the memory, `c` ends with `a` and its stores are `ws`. -/
def Emits {α : Type} (c : Code α) (a : α) (ws : List (Nat × UInt8)) : Prop :=
  ∀ m, ∃ t, c.run m = some (a, t) ∧ t.stores = ws

namespace Emits
variable {α β : Type}

theorem pure (a : α) : Emits (Pure.pure a) a [] := fun _ => ⟨[], rfl, rfl⟩

theorem bind {x : Code α} {f : α → Code β} {a : α} {b : β} {vs ws : List (Nat × UInt8)}
    (hx : Emits x a vs) (hf : Emits (f a) b ws) : Emits (x >>= f) b (vs ++ ws) := by
  intro m
  obtain ⟨t, hrun, ht⟩ := hx m
  obtain ⟨u, hrun', hu⟩ := hf (m.patch t.stores)
  refine ⟨t ++ u, ?_, by rw [Trace.stores_append, ht, hu]⟩
  rw [Code.run_bind_of m hrun, hrun']
  rfl

theorem store {W : Type} [Word W] {host : ByteOrder} {p : Nat} {w : W} :
    Emits (Code.store host p w) () (chunk p (Word.bytes host w)) :=
  fun _ => ⟨_, rfl, Code.stores_storeTrace _ _⟩

theorem note {e : Event} (h : e.store? = none) : Emits (Code.note e) () [] :=
  fun _ => ⟨_, rfl, by simp [h]⟩

theorem bind_none {x : Code α} {f : α → Code β} {a : α} {vs : List (Nat × UInt8)}
    (hx : Emits x a vs) (hf : ∀ m, (f a).run m = none) (m : Mem) : (x >>= f).run m = none := by
  obtain ⟨t, hrun, -⟩ := hx m
  rw [Code.run_bind_of m hrun, hf]
  rfl

theorem of_eq {c : Code α} {a : α} {vs ws : List (Nat × UInt8)} (h : Emits c a vs)
    (hw : vs = ws) : Emits c a ws := hw ▸ h

end Emits

/-- Patching by `ws` leaves `bs` at `p` and touches no byte elsewhere. -/
structure Lays (ws : List (Nat × UInt8)) (p : Nat) (bs : List UInt8) : Prop where
  holds : ∀ m : Mem, (m.patch ws).Holds p bs
  within : ∀ w ∈ ws, p ≤ w.1 ∧ w.1 < p + bs.length

namespace Lays

theorem chunk (p : Nat) (bs : List UInt8) : Lays (chunk p bs) p bs where
  holds m := m.holds_patch_chunk p bs
  within _ h := chunk_bounds h

theorem append {vs ws : List (Nat × UInt8)} {p : Nat} {xs ys : List UInt8}
    (hx : Lays vs p xs) (hy : Lays ws (p + xs.length) ys) : Lays (vs ++ ws) p (xs ++ ys) where
  holds m := by
    rw [Mem.patch_append, Mem.holds_append]
    exact ⟨(hx.holds m).patch fun w hw => .inr (hy.within w hw).1, hy.holds _⟩
  within w hw := by
    rw [List.length_append]
    rcases List.mem_append.mp hw with hw | hw
    · have := hx.within w hw
      omega
    · have := hy.within w hw
      omega

end Lays

def toInt32 (x : Int) : Int := x.bmod 4294967296

theorem toInt32_of_lt {x : Int} (h : -2147483648 ≤ x) (h' : x < 2147483648) : toInt32 x = x := by
  rw [toInt32, Int.bmod_eq_of_le_mul_two] <;> omega

theorem uint32_ofInt_natCast (n : Nat) : UInt32.ofInt n = UInt32.ofNat n := by
  apply UInt32.toNat_inj.mp
  rw [UInt32.ofInt, UInt32.toNat_ofNat', UInt32.toNat_ofNat']
  omega

theorem uint32_toNat_ofNat {n : Nat} (h : n < 4294967296) : (UInt32.ofNat n).toNat = n :=
  UInt32.toNat_ofNat_of_lt' h

theorem uint32_sub_toNat {size : UInt32} {k : Nat} (h : k ≤ size.toNat) :
    (size - UInt32.ofNat k).toNat = size.toNat - k := by
  have := size.toNat_lt
  rw [UInt32.toNat_sub, UInt32.toNat_ofNat']
  omega

theorem uint32_sub_toNat_wrap {size : UInt32} {k : Nat} (h : size.toNat < k) (hk : k < 2 ^ 32) :
    (size - UInt32.ofNat k).toNat = 2 ^ 32 + size.toNat - k := by
  rw [UInt32.toNat_sub, UInt32.toNat_ofNat']
  omega

end Emproto
