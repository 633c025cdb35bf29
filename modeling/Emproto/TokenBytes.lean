import Emproto.TokenWalk
import Mathlib.Data.List.Basic

/-! Encoded token sequences. A walk over memory that holds one visits its tokens
and goes on with what follows. -/

namespace Emproto

/-- A token whose body length fits the 16-bit length field. -/
structure Token where
  type : UInt16
  body : List UInt8
  short : body.length < 65536

def tokenBytes (type : UInt16) (body : List UInt8) : List UInt8 :=
  Word.bytes .big type ++ (Word.bytes .big (UInt16.ofNat body.length) ++ body)

@[simp] theorem tokenBytes_length (type : UInt16) (body : List UInt8) :
    (tokenBytes type body).length = 4 + body.length := by
  simp [tokenBytes, Word.width]
  omega

namespace Token

def bytes (t : Token) : List UInt8 := tokenBytes t.type t.body

theorem holds_bytes {m : Mem} {c : Nat} {t : Token} :
    m.Holds c t.bytes ↔ m.be c = t.type ∧ (m.be (c + 2) : UInt16).toNat = t.body.length ∧
      m.Holds (c + 4) t.body := by
  have short := t.short
  have same (p : Nat) (w : UInt16) : m.Holds p (Word.bytes .big w) ↔ m.be p = w :=
    ⟨Mem.word_of_holds, fun h => h ▸ m.holds_be p⟩
  have length : (m.be (c + 2) : UInt16) = UInt16.ofNat t.body.length ↔
      (m.be (c + 2) : UInt16).toNat = t.body.length := by
    rw [← UInt16.toNat_inj, UInt16.toNat_ofNat_of_lt' short]
  simp only [bytes, tokenBytes, Mem.holds_append, Word.bytes_length, same, Word.width, length,
    Nat.add_assoc, Nat.reduceAdd]

end Token

def encode (ts : List Token) : List UInt8 := ts.flatMap Token.bytes

@[simp] theorem encode_nil : encode [] = [] := rfl

@[simp] theorem encode_cons (t : Token) (ts : List Token) :
    encode (t :: ts) = t.bytes ++ encode ts := rfl

theorem encode_length_const {α : Type} {tok : α → Token} {width : Nat}
    (fixed : ∀ x, (tok x).bytes.length = width) (xs : List α) :
    (encode (xs.map tok)).length = width * xs.length := by
  induction xs with
  | nil => rfl
  | cons x xs ih =>
    rw [List.map_cons, encode_cons, List.length_append, ih, fixed, List.length_cons, Nat.mul_succ,
      Nat.add_comm]

theorem encode_append (ts us : List Token) : encode (ts ++ us) = encode ts ++ encode us :=
  List.flatMap_append

def starts : Nat → List Token → List Nat
  | _, [] => []
  | c, t :: ts => c :: starts (c + t.bytes.length) ts

section Walk
variable {m : Mem} {c fin : Nat} {strict : Bool} {t : Token} {ts : List Token}

theorem nextToken_of_holds (h : m.Holds c t.bytes) : m.nextToken c = c + t.bytes.length := by
  obtain ⟨-, length, -⟩ := Token.holds_bytes.mp h
  rw [Mem.nextToken, length, Token.bytes, tokenBytes_length, Nat.add_assoc]

theorem after_starts (h : m.Holds c (encode ts)) :
    (m.walker strict fin).after c (starts c ts) = c + (encode ts).length := by
  induction ts generalizing c with
  | nil => rfl
  | cons t ts ih =>
    obtain ⟨first, rest⟩ := Mem.holds_append.mp h
    have next : (m.walker strict fin).next c = c + t.bytes.length := nextToken_of_holds first
    change (m.walker strict fin).after ((m.walker strict fin).next c) (starts _ ts) = _
    rw [next, ih rest, encode_cons, List.length_append, Nat.add_assoc]

theorem chain_starts (h : m.Holds c (encode ts))
    (fits : ∀ e ≤ c + (encode ts).length, (m.walker strict fin).ok e = true) :
    (m.walker strict fin).Chain c (starts c ts) := by
  induction ts generalizing c with
  | nil => trivial
  | cons t ts ih =>
    obtain ⟨first, rest⟩ := Mem.holds_append.mp h
    have next : (m.walker strict fin).next c = c + t.bytes.length := nextToken_of_holds first
    rw [encode_cons, List.length_append, ← Nat.add_assoc] at fits
    refine ⟨rfl, ?_, ?_⟩ <;> rw [next]
    · exact fits _ (by omega)
    · exact ih rest fits

/-- The tokens that lie before the end are visited, then the walk continues. -/
theorem walk_encode (h : m.Holds c (encode ts))
    (fits : if strict then c + (encode ts).length < fin else c + (encode ts).length ≤ fin) :
    (m.walker strict fin).walk c =
      starts c ts ++ (m.walker strict fin).walk (c + (encode ts).length) := by
  have chain : (m.walker strict fin).Chain c (starts c ts) := by
    refine chain_starts h fun e he => ?_
    cases strict <;> simp only [Mem.walker, Bool.false_eq_true, if_false, if_true,
      decide_eq_true_eq] at fits ⊢ <;> omega
  rw [Walker.walk_of_chain _ chain, after_starts h]

theorem walk_encode_all (h : m.Holds c (encode ts)) (fits : c + (encode ts).length = fin) :
    (m.walker false fin).walk c = starts c ts := by
  have stopped : ¬ (m.walker false fin).ok ((m.walker false fin).next fin) = true := fun ok => by
    have := (m.walker false fin).bounded _ ok
    have := (m.walker false fin).advances fin
    simp only [Mem.walker] at *
    omega
  rw [walk_encode h (by simpa using fits.le), fits, Walker.walk_eq, if_neg stopped,
    List.append_nil]

theorem starts_append (us : List Token) :
    starts c (ts ++ us) = starts c ts ++ starts (c + (encode ts).length) us := by
  induction ts generalizing c with
  | nil => rfl
  | cons t ts ih =>
    rw [List.cons_append, starts, starts, ih, encode_cons, List.length_append, Nat.add_assoc,
      List.cons_append]

theorem starts_concat : starts c (ts ++ [t]) = starts c ts ++ [c + (encode ts).length] :=
  starts_append [t]

theorem holds_encode_concat : m.Holds c (encode (ts ++ [t])) ↔
    m.Holds c (encode ts) ∧ m.Holds (c + (encode ts).length) t.bytes := by
  rw [encode_append, encode_cons, encode_nil, List.append_nil, Mem.holds_append]

theorem filterMap_starts {α β : Type} {tok : α → Token} {xs : List α} {f : Nat → Option β}
    {g : α → Option β} (agree : ∀ x ∈ xs, ∀ c, m.Holds c (tok x).bytes → f c = g x)
    (h : m.Holds c (encode (xs.map tok))) :
    (starts c (xs.map tok)).filterMap f = xs.filterMap g := by
  induction xs generalizing c with
  | nil => rfl
  | cons x xs ih =>
    obtain ⟨first, rest⟩ := Mem.holds_append.mp h
    rw [List.map_cons, starts, List.filterMap_cons, List.filterMap_cons,
      agree x List.mem_cons_self c first, ih (fun y hy => agree y (List.mem_cons_of_mem _ hy)) rest]

theorem walk_encode_strict (h : m.Holds c (encode ts)) (fits : c + (encode ts).length = fin) :
    (m.walker true fin).walk c = starts c ts.dropLast := by
  rcases List.eq_nil_or_concat' ts with rfl | ⟨init, last, rfl⟩
  · have past : ¬ (m.walker true fin).ok ((m.walker true fin).next c) = true := fun ok => by
      have := (m.walker true fin).bounded _ ok
      have := (m.walker true fin).advances c
      rw [encode_nil, List.length_nil] at fits
      simp only [Mem.walker] at *
      omega
    rw [Walker.walk_eq, if_neg past]
    rfl
  · obtain ⟨front, back⟩ := holds_encode_concat.mp h
    rw [encode_append, encode_cons, encode_nil, List.append_nil, List.length_append] at fits
    have size : last.bytes.length = 4 + last.body.length := tokenBytes_length ..
    have ends : (m.walker true fin).next (c + (encode init).length) = fin := by
      rw [← fits, ← Nat.add_assoc]
      exact nextToken_of_holds back
    have refused : ¬ (m.walker true fin).ok fin = true := by simp [Mem.walker]
    rw [List.dropLast_concat, walk_encode front (by simp; omega), Walker.walk_eq, ends,
      if_neg refused, List.append_nil]

end Walk

section Same
variable {m m' : Mem} {c c' : Nat} {t : Token}

theorem Token.type_of_holds (h : m.Holds c t.bytes) : m.be c = t.type := (Token.holds_bytes.mp h).1

theorem Token.word_same {W : Type} [Word W] (h : m.Holds c t.bytes) (h' : m'.Holds c' t.bytes)
    {k : Nat} (inside : k + Word.width W ≤ 4 + t.body.length) :
    (m.be (c + k) : W) = m'.be (c' + k) := by
  have length : t.bytes.length = 4 + t.body.length := tokenBytes_length ..
  exact h.word_same h' (by omega)

end Same

/-! Handlers that look at their token only, and tokens that a handler passes over. -/

section Handlers
variable {σ : Type} {step : Mem → Nat → σ → σ} {P Q : Token → Prop}

def Local (step : Mem → Nat → σ → σ) (P : Token → Prop) : Prop :=
  ∀ t, P t → ∀ (m m' : Mem) (c c' : Nat), m.Holds c t.bytes → m'.Holds c' t.bytes →
    ∀ s, step m c s = step m' c' s

def Skips (step : Mem → Nat → σ → σ) (Q : Token → Prop) : Prop :=
  ∀ t, Q t → ∀ (m : Mem) (c : Nat), m.Holds c t.bytes → ∀ s, step m c s = s

variable {m m' : Mem} {c c' : Nat} {ts us : List Token} {u : Token}

theorem Local.runSteps_same (hstep : Local step P) (all : ∀ t ∈ ts, P t)
    (h : m.Holds c (encode ts)) (h' : m'.Holds c' (encode ts)) (s : σ) :
    runSteps (step m) (starts c ts) s = runSteps (step m') (starts c' ts) s := by
  induction ts generalizing c c' s with
  | nil => rfl
  | cons t ts ih =>
    obtain ⟨first, rest⟩ := Mem.holds_append.mp h
    obtain ⟨first', rest'⟩ := Mem.holds_append.mp h'
    obtain ⟨now, later⟩ := List.forall_mem_cons.mp all
    rw [starts, starts, runSteps_cons, runSteps_cons, hstep t now m m' c c' first first' s]
    exact ih later rest rest' _

theorem runSteps_starts_append (step : Nat → σ → σ) (s : σ) :
    runSteps step (starts c (ts ++ us)) s =
      runSteps step (starts (c + (encode ts).length) us) (runSteps step (starts c ts) s) := by
  rw [starts_append, runSteps, List.foldl_append]
  rfl

theorem runSteps_starts_concat (step : Nat → σ → σ) (s : σ) :
    runSteps step (starts c (ts ++ [u])) s =
      step (c + (encode ts).length) (runSteps step (starts c ts) s) := by
  rw [starts_concat, runSteps_concat]

theorem Local.runSteps_insert (hstep : Local step P) (skips : Skips step Q)
    (all : ∀ t ∈ ts ++ us, P t) (new : Q u) (h : m.Holds c (encode (ts ++ us)))
    (h' : m'.Holds c' (encode (ts ++ u :: us))) (s : σ) :
    runSteps (step m) (starts c (ts ++ us)) s =
      runSteps (step m') (starts c' (ts ++ u :: us)) s := by
  rw [encode_append] at h h'
  obtain ⟨front, back⟩ := Mem.holds_append.mp h
  obtain ⟨front', rest⟩ := Mem.holds_append.mp h'
  obtain ⟨middle, back'⟩ := Mem.holds_append.mp rest
  obtain ⟨before, after⟩ := List.forall_mem_append.mp all
  rw [runSteps_starts_append, runSteps_starts_append, starts, runSteps_cons,
    skips u new m' _ middle, hstep.runSteps_same before front front' s]
  exact hstep.runSteps_same after back back' _

end Handlers

/-- A formatting loop over `k` tokens of `width` bytes, from element `i` of a
caller's array on: the write pointer behind the last token, or `none` when a token
does not fit below `fin`. -/
def fillTokens (width : Nat) (put : Nat → Nat → Code Unit) (fin : Nat) :
    Nat → Nat → Nat → Code (Option Nat)
  | 0, _, c => pure (some c)
  | k + 1, i, c =>
    if c + width > fin then pure none
    else do
      Code.note (.get i)
      put i c
      fillTokens width put fin k (i + 1) (c + width)

theorem fillTokens_emits {width : Nat} {put : Nat → Nat → Code Unit} {tok : Nat → Token}
    (each : ∀ i c, Emits (put i c) () (chunk c (tok i).bytes))
    (fixed : ∀ i, (tok i).bytes.length = width) {fin k i c : Nat} (fits : c + width * k ≤ fin) :
    Emits (fillTokens width put fin k i c) (some (c + width * k))
      (chunk c (encode ((List.range' i k).map tok))) := by
  induction k generalizing i c with
  | zero => exact .pure _
  | succ k ih =>
    have grow : width * (k + 1) = width + width * k := by rw [Nat.mul_succ, Nat.add_comm]
    have rest : Emits (fillTokens width put fin k (i + 1) (c + width))
        (some (c + width * (k + 1)))
        (chunk (c + width) (encode ((List.range' (i + 1) k).map tok))) := by
      rw [grow, ← Nat.add_assoc]
      exact ih (by omega)
    rw [fillTokens, if_neg (by omega)]
    refine Emits.of_eq ((Emits.note rfl).bind ((each i c).bind rest)) ?_
    rw [List.range'_succ, List.map_cons, encode_cons, chunk_append, fixed, List.nil_append]

theorem Emits.wordToken {α W : Type} [Word W] {host : ByteOrder} {p : Nat} {type : UInt16} {w : W}
    {length : UInt16} {rest : Code α} {a : α} {ws : List (Nat × UInt8)}
    (hlength : length = UInt16.ofNat (Word.width W)) (hrest : Emits rest a ws) :
    Emits (do
      Code.store host p (hton host type)
      Code.store host (p + 2) (hton host length)
      Code.store host (p + 4) (hton host w)
      rest) a (chunk p (tokenBytes type (Word.bytes .big w)) ++ ws) := by
  refine Emits.of_eq (Emits.store.bind <| Emits.store.bind <| Emits.store.bind hrest) ?_
  subst hlength
  simp [tokenBytes, chunk_append, Nat.add_assoc, show Word.width UInt16 = 2 from rfl]

end Emproto
