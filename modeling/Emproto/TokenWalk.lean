import Emproto.BufferCode

/-! Walks over a memory area made of tokens, each of a four-byte header (type,
length) followed by the declared number of body bytes. `Walker` is the abstract
walk: where the next token starts and which token ends are accepted. `tokenLoop`
is the parsing loop over it, as code that fetches the declared lengths itself. -/

namespace Emproto

structure Walker where
  next : Nat → Nat
  ok : Nat → Bool
  fin : Nat
  advances : ∀ c, c < next c
  bounded : ∀ e, ok e = true → e ≤ fin

namespace Walker
variable (w : Walker)

def walkFrom : Nat → Nat → List Nat
  | 0, _ => []
  | fuel + 1, c => if w.ok (w.next c) then c :: walkFrom fuel (w.next c) else []

/-- Offsets of the accepted tokens from `c` on. -/
def walk (c : Nat) : List Nat := w.walkFrom (w.fin - c) c

def after (c : Nat) (os : List Nat) : Nat := os.foldl (fun _ o => w.next o) c

def stop (c : Nat) : Nat := w.after c (w.walk c)

theorem walkFrom_fuel {f g c : Nat} (hf : w.fin ≤ c + f) (hg : w.fin ≤ c + g) :
    w.walkFrom f c = w.walkFrom g c := by
  induction f generalizing g c with
  | zero =>
    cases g with
    | zero => rfl
    | succ g =>
      have past : ¬ w.ok (w.next c) := fun h => by
        have := w.bounded _ h
        have := w.advances c
        omega
      rw [walkFrom, walkFrom, if_neg past]
  | succ f ih =>
    have step := w.advances c
    cases g with
    | zero =>
      have past : ¬ w.ok (w.next c) := fun h => by
        have := w.bounded _ h
        omega
      rw [walkFrom, walkFrom, if_neg past]
    | succ g => rw [walkFrom, walkFrom, ih (g := g) (by omega) (by omega)]

theorem walk_eq (c : Nat) :
    w.walk c = if w.ok (w.next c) then c :: w.walk (w.next c) else [] := by
  have step := w.advances c
  rw [walk, w.walkFrom_fuel (g := w.fin - c + 1) (by omega) (by omega), walkFrom, walk,
    w.walkFrom_fuel (f := w.fin - c) (g := w.fin - w.next c) (by omega) (by omega)]

theorem stop_eq (c : Nat) : w.stop c = if w.ok (w.next c) then w.stop (w.next c) else c := by
  rw [stop, walk_eq]
  split <;> rfl

def Chain : Nat → List Nat → Prop
  | _, [] => True
  | c, o :: os => o = c ∧ w.ok (w.next c) = true ∧ Chain (w.next c) os

/-- The longest chain from `c`. -/
structure Longest (c : Nat) (os : List Nat) : Prop where
  chain : w.Chain c os
  maximal : ∀ os', w.Chain c os' → os'.length ≤ os.length

theorem chain_walkFrom (f c : Nat) : w.Chain c (w.walkFrom f c) := by
  induction f generalizing c with
  | zero => trivial
  | succ f ih =>
    rw [walkFrom]
    split
    · exact ⟨rfl, ‹_›, ih _⟩
    · trivial

theorem walk_of_chain {c : Nat} {os : List Nat} (h : w.Chain c os) :
    w.walk c = os ++ w.walk (w.after c os) := by
  induction os generalizing c with
  | nil => rfl
  | cons o os ih =>
    obtain ⟨rfl, hok, rest⟩ := h
    rw [walk_eq, if_pos hok, ih rest, List.cons_append]
    rfl

theorem chain_walk (c : Nat) : w.Chain c (w.walk c) := w.chain_walkFrom _ c

theorem longest_iff {c : Nat} {os : List Nat} : w.Longest c os ↔ os = w.walk c := by
  apply Iff.intro
  · rintro ⟨hc, hmax⟩
    have len := hmax _ (w.chain_walk c)
    have split := w.walk_of_chain hc
    have tail : w.walk (w.after c os) = [] := by
      apply List.eq_nil_of_length_eq_zero
      rw [split, List.length_append] at len
      omega
    rw [split, tail, List.append_nil]
  · intro same
    subst same
    refine ⟨w.chain_walk c, fun os' h => ?_⟩
    rw [w.walk_of_chain h, List.length_append]
    omega

theorem mem_walk {c o : Nat} (h : o ∈ w.walk c) : c ≤ o ∧ w.ok (w.next o) = true := by
  suffices ∀ f c, o ∈ w.walkFrom f c → c ≤ o ∧ w.ok (w.next o) = true from this _ c h
  intro f
  induction f with
  | zero => simp [walkFrom]
  | succ f ih =>
    intro c h
    rw [walkFrom] at h
    split at h
    · rcases List.mem_cons.mp h with rfl | h
      · exact ⟨le_rfl, ‹_›⟩
      · have step := w.advances c
        obtain ⟨lower, hok⟩ := ih _ h
        exact ⟨by omega, hok⟩
    · simp at h

theorem le_stop (c : Nat) : c ≤ w.stop c := by
  suffices ∀ f c, c ≤ w.after c (w.walkFrom f c) from this _ c
  intro f
  induction f with
  | zero => intro c; exact le_rfl
  | succ f ih =>
    intro c
    rw [walkFrom]
    split
    · exact (w.advances c).le.trans (ih _)
    · exact le_rfl

theorem walk_fin : w.walk w.fin = [] := by
  rw [walk, Nat.sub_self, walkFrom]

theorem le_after {c : Nat} {os : List Nat} (h : w.Chain c os) : c ≤ w.after c os := by
  induction os generalizing c with
  | nil => exact le_rfl
  | cons o os ih =>
    obtain ⟨rfl, -, rest⟩ := h
    exact (w.advances o).le.trans (ih rest)

theorem after_le_fin {c : Nat} {os : List Nat} (h : w.Chain c os) :
    os = [] ∨ w.after c os ≤ w.fin := by
  induction os generalizing c with
  | nil => exact .inl rfl
  | cons o os ih =>
    obtain ⟨rfl, hok, rest⟩ := h
    cases ih rest with
    | inl last =>
      subst last
      exact .inr (w.bounded _ hok)
    | inr inside => exact .inr inside

end Walker

section Visits
variable {σ : Type} (step : Nat → σ → σ)

/-- The offsets of a walk, each with the state its handler is entered in. -/
def visits : List Nat → σ → List (Nat × σ)
  | [], _ => []
  | c :: os, s => (c, s) :: visits os (step c s)

def runSteps (os : List Nat) (s : σ) : σ := os.foldl (fun s c => step c s) s

@[simp] theorem runSteps_nil (s : σ) : runSteps step [] s = s := rfl

@[simp] theorem runSteps_cons (c : Nat) (os : List Nat) (s : σ) :
    runSteps step (c :: os) s = runSteps step os (step c s) := rfl

theorem runSteps_concat (os : List Nat) (c : Nat) (s : σ) :
    runSteps step (os ++ [c]) s = step c (runSteps step os s) := by
  rw [runSteps, List.foldl_append]
  rfl

theorem mem_visits {os : List Nat} {s : σ} {v : Nat × σ} :
    v ∈ visits step os s ↔
      ∃ before rest, os = before ++ v.1 :: rest ∧ v.2 = runSteps step before s := by
  induction os generalizing s with
  | nil => simp [visits]
  | cons c os ih =>
    rw [visits, List.mem_cons, ih]
    apply Iff.intro
    · rintro (rfl | ⟨before, rest, rfl, hs⟩)
      · exact ⟨[], os, rfl, rfl⟩
      · exact ⟨c :: before, rest, rfl, hs⟩
    · rintro ⟨_ | ⟨b, before⟩, rest, hos, hs⟩
      · obtain ⟨rfl, rfl⟩ := List.cons.inj hos
        exact .inl (Prod.ext rfl hs)
      · obtain ⟨rfl, rfl⟩ := List.cons.inj hos
        exact .inr ⟨before, rest, rfl, hs⟩

theorem visits_map_fst (os : List Nat) (s : σ) : (visits step os s).map Prod.fst = os := by
  induction os generalizing s with
  | nil => rfl
  | cons c os ih => simp [visits, ih]

theorem forall_visits {P : Nat → Prop} (os : List Nat) (s : σ) :
    (∀ v ∈ visits step os s, P v.1) ↔ ∀ o ∈ os, P o := by
  conv_rhs => rw [← visits_map_fst step os s, List.forall_mem_map]

theorem forall_visits_room (is P : Nat → Prop) [DecidablePred is] (count : σ → Nat) {cap : Nat}
    (grows : ∀ c s, count (step c s) = if is c ∧ count s < cap then count s + 1 else count s)
    (os : List Nat) (s : σ) :
    (∀ v ∈ visits step os s, is v.1 ∧ count v.2 < cap → P v.1) ↔
      ∀ o ∈ (os.filter is).take (cap - count s), P o := by
  induction os generalizing s with
  | nil => simp [visits]
  | cons o os ih =>
    have rest := ih (step o s)
    rw [grows] at rest
    rw [visits, List.forall_mem_cons, rest]
    simp only [List.filter_cons, decide_eq_true_eq]
    by_cases picked : is o
    · rw [if_pos picked]
      by_cases room : count s < cap
      · have split : cap - count s = cap - (count s + 1) + 1 := by omega
        rw [if_pos ⟨picked, room⟩, split, List.take_succ_cons, List.forall_mem_cons]
        simp [picked, room]
      · have none : cap - count s = 0 := by omega
        simp [room, none]
    · simp [picked]

theorem runSteps_preserves {P : σ → Prop} (h : ∀ c s, P s → P (step c s)) (os : List Nat)
    {s : σ} (hs : P s) : P (runSteps step os s) := by
  induction os generalizing s with
  | nil => exact hs
  | cons c os ih => exact ih (h c s hs)

/-- The tokens that `picks` singles out assign the field, the others keep it. -/
structure Assigns {β : Type} (step : Nat → σ → σ) (picks : Nat → Prop) (field : σ → β) :
    Prop where
  assign : ∀ c, picks c → ∀ s s', field (step c s) = field (step c s')
  keep : ∀ c, ¬ picks c → ∀ s, field (step c s) = field s

namespace Assigns
variable {step} {β : Type} {picks : Nat → Prop} {field : σ → β}

theorem agree (h : Assigns step picks field) (os : List Nat) {s s' : σ}
    (same : field s = field s') : field (runSteps step os s) = field (runSteps step os s') := by
  induction os generalizing s s' with
  | nil => exact same
  | cons c os ih =>
    refine ih ?_
    by_cases picked : picks c
    · exact h.assign c picked s s'
    · rw [h.keep c picked, h.keep c picked, same]

theorem kept (h : Assigns step picks field) {os : List Nat} (none : ∀ c ∈ os, ¬ picks c) (s : σ) :
    field (runSteps step os s) = field s := by
  induction os generalizing s with
  | nil => rfl
  | cons c os ih =>
    obtain ⟨first, rest⟩ := List.forall_mem_cons.mp none
    rw [runSteps_cons, ih rest, h.keep c first]

theorem assigned (h : Assigns step picks field) {os : List Nat} (some : ∃ c ∈ os, picks c)
    (s s' : σ) : field (runSteps step os s) = field (runSteps step os s') := by
  induction os generalizing s s' with
  | nil => simp at some
  | cons c os ih =>
    by_cases picked : picks c
    · exact h.agree os (h.assign c picked s s')
    · obtain ⟨o, mem, later⟩ := some
      rcases List.mem_cons.mp mem with rfl | mem
      · exact absurd later picked
      · exact ih ⟨o, mem, later⟩ (step c s) (step c s')

theorem meet_iff (h : Assigns step picks field) {os : List Nat} {s s' : σ}
    (differ : field s ≠ field s') :
    field (runSteps step os s) = field (runSteps step os s') ↔ ∃ c ∈ os, picks c := by
  refine ⟨fun same => by_contra fun none => differ ?_, fun some => h.assigned some s s'⟩
  have none : ∀ c ∈ os, ¬ picks c := fun c mem picked => none ⟨c, mem, picked⟩
  rwa [h.kept none, h.kept none] at same

end Assigns

end Visits

def Mem.nextToken (m : Mem) (c : Nat) : Nat := c + 4 + (m.be (c + 2) : UInt16).toNat

/-- The walk up to `fin`; a strict one refuses a token that ends exactly there. -/
def Mem.walker (m : Mem) (strict : Bool) (fin : Nat) : Walker where
  next := m.nextToken
  ok e := if strict then decide (e < fin) else decide (e ≤ fin)
  fin := fin
  advances c := by unfold nextToken; omega
  bounded e h := by
    split at h <;> simp only [decide_eq_true_eq] at h <;> omega

section Strict
variable {m : Mem} {c fin : Nat} {os : List Nat}

theorem Mem.header_le_nextToken (m : Mem) (c : Nat) : c + 4 ≤ m.nextToken c := by
  unfold nextToken
  omega

theorem chain_strict_iff :
    (m.walker true fin).Chain c os ↔
      (m.walker false fin).Chain c os ∧ (os = [] ∨ (m.walker false fin).after c os < fin) := by
  induction os generalizing c with
  | nil => exact iff_of_true trivial ⟨trivial, .inl rfl⟩
  | cons o os ih =>
    have inside : (m.walker true fin).ok (m.nextToken c) = true ↔ m.nextToken c < fin := by
      simp [Mem.walker]
    have within : (m.walker false fin).ok (m.nextToken c) = true ↔ m.nextToken c ≤ fin := by
      simp [Mem.walker]
    change (o = c ∧ (m.walker true fin).ok (m.nextToken c) = true ∧
        (m.walker true fin).Chain (m.nextToken c) os) ↔
      (o = c ∧ (m.walker false fin).ok (m.nextToken c) = true ∧
        (m.walker false fin).Chain (m.nextToken c) os) ∧ _
    rw [ih, inside, within]
    apply Iff.intro
    · intro h
      obtain ⟨rfl, first, chain, rest⟩ := h
      refine ⟨⟨rfl, first.le, chain⟩, .inr ?_⟩
      cases rest with
      | inl last =>
        subst last
        exact first
      | inr before => exact before
    · intro h
      obtain ⟨⟨rfl, -, chain⟩, rest⟩ := h
      have before : (m.walker false fin).after (m.nextToken o) os < fin :=
        rest.resolve_left (List.cons_ne_nil o os)
      exact ⟨rfl, ((m.walker false fin).le_after chain).trans_lt before, chain, .inr before⟩

theorem longest_strict_iff :
    (m.walker false fin).Longest c ((m.walker true fin).walk c) ↔
      ∀ os, (m.walker false fin).Chain c os → (m.walker false fin).after c os = fin → os = [] := by
  apply Iff.intro
  · intro longest os chain filled
    have walked : (m.walker true fin).walk c = os := by
      calc
        _ = (m.walker false fin).walk c := (m.walker false fin).longest_iff.mp longest
        _ = os ++ (m.walker false fin).walk fin :=
          filled ▸ (m.walker false fin).walk_of_chain chain
        _ = os ++ [] := congrArg (os ++ ·) (m.walker false fin).walk_fin
        _ = os := List.append_nil os
    have taken := (chain_strict_iff.mp ((m.walker true fin).chain_walk c)).2
    rw [walked] at taken
    exact taken.resolve_right (Nat.not_lt.mpr filled.ge)
  · intro unfilled
    refine ⟨(chain_strict_iff.mp ((m.walker true fin).chain_walk c)).1, fun os chain => ?_⟩
    have before : os = [] ∨ (m.walker false fin).after c os < fin := by
      cases (m.walker false fin).after_le_fin chain with
      | inl none => exact .inl none
      | inr inside =>
        by_cases filled : (m.walker false fin).after c os = fin
        · exact .inl (unfilled os chain filled)
        · exact .inr (Nat.lt_of_le_of_ne inside filled)
    exact ((m.walker true fin).longest_iff.mpr rfl).maximal os
      (chain_strict_iff.mpr ⟨chain, before⟩)

end Strict

/-- The loop over the tokens of `[c, fin)`: stop at a token that overruns the
area, else hand it to `handle`; with `checked` a failing handler ends the loop. -/
def tokenLoop {σ : Type} (host : ByteOrder) (strict checked : Bool)
    (handle : Nat → σ → Code (Int × σ)) (fin : Nat) : Nat → Nat → σ → Code (Int × σ)
  | 0, _, s => pure (0, s)
  | fuel + 1, c, s =>
    if c < fin then do
      let length : UInt16 ← Code.load host (c + 2)
      let past := c + 4 + (ntohs host length).toNat
      if (if strict then past ≥ fin else past > fin) then
        pure (0, s)
      else do
        let (status, s) ← handle c s
        if checked && status != 0 then
          pure (-1, s)
        else do
          let length : UInt16 ← Code.load host (c + 2)
          tokenLoop host strict checked handle fin fuel (c + 4 + (ntohs host length).toNat) s
    else pure (0, s)

/-- The accesses of `tokenLoop` from `c`: both fetches of the length around each
handled token, and the fetch at the token that stops the loop. -/
def loopTrace {σ : Type} (w : Walker) (step : Nat → σ → σ) (tr : Nat → σ → Trace)
    (c : Nat) (s : σ) : Trace :=
  (visits step (w.walk c) s).flatMap (fun v =>
    Code.loadTrace (v.1 + 2) 2 ++ (tr v.1 v.2 ++ Code.loadTrace (v.1 + 2) 2)) ++
  if w.stop c < w.fin then Code.loadTrace (w.stop c + 2) 2 else []

theorem loopTrace_eq {σ : Type} (w : Walker) (step : Nat → σ → σ) (tr : Nat → σ → Trace)
    (c : Nat) (s : σ) :
    loopTrace w step tr c s =
      if w.ok (w.next c) then
        Code.loadTrace (c + 2) 2 ++ (tr c s ++ (Code.loadTrace (c + 2) 2 ++
          loopTrace w step tr (w.next c) (step c s)))
      else if c < w.fin then Code.loadTrace (c + 2) 2 else [] := by
  rw [loopTrace, w.walk_eq c, w.stop_eq c]
  by_cases hok : w.ok (w.next c) = true
  · simp only [hok, if_true, visits, List.flatMap_cons, loopTrace, List.append_assoc]
  · simp only [hok, Bool.false_eq_true, if_false, visits, List.flatMap_nil, List.nil_append]

section Projections
variable {σ : Type} {w : Walker} {step : Nat → σ → σ} {tr : Nat → σ → Trace} {c : Nat} {s : σ}

theorem loopTrace_stores (quiet : ∀ c s, (tr c s).stores = []) :
    (loopTrace w step tr c s).stores = [] := by
  rw [loopTrace, Trace.stores_append, Trace.stores, List.filterMap_flatMap, List.append_eq_nil_iff]
  refine ⟨List.flatMap_eq_nil_iff.mpr fun v _ => ?_, by split <;> simp⟩
  change Trace.stores _ = []
  simp [quiet]

theorem loopTrace_enters (quiet : ∀ c s, (tr c s).enters = []) :
    (loopTrace w step tr c s).enters = [] := by
  rw [loopTrace, Trace.enters_append, Trace.enters, List.filterMap_flatMap, List.append_eq_nil_iff]
  refine ⟨List.flatMap_eq_nil_iff.mpr fun v _ => ?_, by split <;> simp⟩
  change Trace.enters _ = []
  simp [quiet]

theorem loopTrace_calls (call : ∀ c s, (tr c s).calls = [c]) :
    (loopTrace w step tr c s).calls = w.walk c := by
  have last : (if w.stop c < w.fin then Code.loadTrace (w.stop c + 2) 2 else []).filterMap
      Event.call? = [] := by
    change Trace.calls _ = []
    split <;> simp
  have each (v : Nat × σ) : (Code.loadTrace (v.1 + 2) 2 ++ (tr v.1 v.2 ++
      Code.loadTrace (v.1 + 2) 2)).filterMap Event.call? = [v.1] := by
    change Trace.calls _ = _
    simp [call]
  rw [loopTrace, Trace.calls, List.filterMap_append, List.filterMap_flatMap, last, List.append_nil]
  simp only [each]
  rw [← List.map_eq_flatMap, visits_map_fst]

theorem loopTrace_sets :
    (loopTrace w step tr c s).sets =
      (visits step (w.walk c) s).flatMap fun v => (tr v.1 v.2).sets := by
  have last : (if w.stop c < w.fin then Code.loadTrace (w.stop c + 2) 2 else []).filterMap
      Event.set? = [] := by
    change Trace.sets _ = []
    split <;> simp
  have each (v : Nat × σ) : (Code.loadTrace (v.1 + 2) 2 ++ (tr v.1 v.2 ++
      Code.loadTrace (v.1 + 2) 2)).filterMap Event.set? = (tr v.1 v.2).sets := by
    change Trace.sets _ = _
    simp
  rw [loopTrace, Trace.sets, List.filterMap_append, List.filterMap_flatMap, last, List.append_nil]
  simp only [each]

/-- A loop reads inside its area exactly if it does not stop within a header and
each handler it enters reads inside the area. -/
theorem readsIn_loopTrace {lo : Nat} (header : ∀ c, c + 4 ≤ w.next c) (h : lo ≤ c) :
    (loopTrace w step tr c s).ReadsIn lo w.fin ↔
      (w.stop c < w.fin → w.stop c + 4 ≤ w.fin) ∧
        ∀ v ∈ visits step (w.walk c) s, (tr v.1 v.2).ReadsIn lo w.fin := by
  have last : (if w.stop c < w.fin then Code.loadTrace (w.stop c + 2) 2 else []).ReadsIn lo w.fin ↔
      (w.stop c < w.fin → w.stop c + 4 ≤ w.fin) := by
    have := w.le_stop c
    by_cases cut : w.stop c < w.fin
    · rw [if_pos cut, Code.readsIn_loadTrace]
      omega
    · rw [if_neg cut]
      exact iff_of_true (Trace.readsIn_nil lo w.fin) fun h => absurd h cut
  rw [loopTrace, Trace.readsIn_append, Trace.readsIn_flatMap, last, and_comm]
  refine and_congr_right fun _ => forall₂_congr fun v hv => ?_
  obtain ⟨before, rest, split, _⟩ := (mem_visits step).mp hv
  obtain ⟨lower, ok⟩ := w.mem_walk (split ▸ List.mem_append_right before List.mem_cons_self :
    v.1 ∈ w.walk c)
  have upper := w.bounded _ ok
  have room := header v.1
  have length : (Code.loadTrace (v.1 + 2) 2).ReadsIn lo w.fin :=
    (Code.readsIn_loadTrace _ _).mpr (.inr (by omega))
  simp only [Trace.readsIn_append, length, true_and, and_true]

end Projections

theorem walker_past (m : Mem) (strict : Bool) (fin e : Nat) :
    (if strict then e ≥ fin else e > fin) ↔ ¬ (m.walker strict fin).ok e = true := by
  cases strict <;> simp [Mem.walker]

section Loop
variable {σ τ : Type} {host : ByteOrder} {strict checked : Bool}
  {handle : Nat → τ → Code (Int × τ)} {m : Mem} {fin : Nat}
  (view : σ → τ) (step : Nat → σ → σ) {status : Nat → σ → Int} {tr : Nat → σ → Trace}

/-- A loop whose handler always ends, and never with a failure the loop looks at,
folds the handler's effect over the walk. -/
theorem run_tokenLoop
    (handler : ∀ c s, (handle c (view s)).run m = some ((status c s, view (step c s)), tr c s))
    (storeless : ∀ c s, (tr c s).stores = [])
    (unfailing : checked = true → ∀ c s, status c s = 0)
    {fuel c : Nat} (hf : fin ≤ c + fuel) (s : σ) :
    (tokenLoop host strict checked handle fin fuel c (view s)).run m =
      some ((0, view (runSteps step ((m.walker strict fin).walk c) s)),
        loopTrace (m.walker strict fin) step tr c s) := by
  set w := m.walker strict fin
  induction fuel generalizing c s with
  | zero =>
    have past : ¬ w.ok (w.next c) = true := fun h => by
      have last : w.next c ≤ fin := w.bounded _ h
      have := w.advances c
      omega
    have outside : ¬ c < w.fin := Nat.not_lt.mpr hf
    rw [tokenLoop, w.walk_eq, loopTrace_eq, if_neg past, if_neg past, if_neg outside]
    rfl
  | succ fuel ih =>
    have length : ntohs host (m.word host (c + 2)) = m.be (c + 2) := m.ntoh_word host (c + 2)
    rw [tokenLoop, w.walk_eq, loopTrace_eq]
    by_cases inside : c < fin
    · rw [if_pos inside, Code.run_bind_of m (Code.run_load m host (c + 2)), length]
      simp only [Code.stores_loadTrace, Mem.patch_nil, walker_past m]
      by_cases hok : w.ok (w.next c) = true
      · have quiet : ¬ (checked && status c s != 0) = true := by
          cases hc : checked with
          | false => simp
          | true => simp [unfailing hc c s]
        have rest := ih (c := w.next c) (by have := w.advances c; omega) (step c s)
        have here : (m.walker strict fin).ok (c + 4 + (m.be (c + 2) : UInt16).toNat) = true := hok
        rw [if_neg (not_not.mpr here), Code.run_bind_of m (handler c s), storeless]
        simp only [Mem.patch_nil, if_neg quiet, hok, if_true]
        rw [Code.run_bind_of m (Code.run_load m host (c + 2)), length, Code.stores_loadTrace]
        change Option.map _ (Option.map _ (Option.map _ ((tokenLoop host strict checked handle fin
          fuel (w.next c) (view (step c s))).run m))) = _
        rw [rest]
        rfl
      · have here : ¬ (m.walker strict fin).ok (c + 4 + (m.be (c + 2) : UInt16).toNat) = true := hok
        have within : c < w.fin := inside
        rw [if_pos here, if_neg hok, if_neg hok, if_pos within]
        rfl
    · have past : ¬ w.ok (w.next c) = true := fun h => by
        have last : w.next c ≤ fin := w.bounded _ h
        have := w.advances c
        omega
      have outside : ¬ c < w.fin := inside
      rw [if_neg inside, if_neg past, if_neg past, if_neg outside]
      rfl

theorem run_tokenLoop_bind {α : Type} {handle : Nat → σ → Code (Int × σ)}
    (handler : ∀ c s, (handle c s).run m = some ((status c s, step c s), tr c s))
    (storeless : ∀ c s, (tr c s).stores = []) {fuel c : Nat} (hf : fin ≤ c + fuel) (s : σ)
    (f : Int × σ → Code α) :
    (tokenLoop host strict false handle fin fuel c s >>= f).run m =
      ((f (0, runSteps step ((m.walker strict fin).walk c) s)).run m).map fun r =>
        (r.1, loopTrace (m.walker strict fin) step tr c s ++ r.2) :=
  Code.run_bind_quiet m (run_tokenLoop id step handler storeless (by simp) hf s)
    (loopTrace_stores storeless) f

theorem result_tokenLoop_still {bad : Nat → Prop} [DecidablePred bad] {s : τ}
    (crash : ∀ c, bad c → (handle c s).run m = none)
    (still : ∀ c, ¬ bad c → ∃ t, (handle c s).run m = some ((0, s), t) ∧ t.stores = [])
    {fuel c : Nat} (hf : fin ≤ c + fuel) :
    (tokenLoop host strict checked handle fin fuel c s).result m =
      if ∃ o ∈ (m.walker strict fin).walk c, bad o then none else some (0, s) := by
  set w := m.walker strict fin
  have outside {e : Nat} (he : fin ≤ e) : ¬ w.ok (w.next e) = true := fun h => by
    have last : w.next e ≤ fin := w.bounded _ h
    have := w.advances e
    omega
  induction fuel generalizing c with
  | zero =>
    rw [tokenLoop, w.walk_eq, if_neg (outside (e := c) hf)]
    simp
  | succ fuel ih =>
    have length : ntohs host (m.word host (c + 2)) = m.be (c + 2) := m.ntoh_word host (c + 2)
    have next : c + 4 + (m.be (c + 2) : UInt16).toNat = w.next c := rfl
    rw [tokenLoop, w.walk_eq]
    by_cases inside : c < fin
    · rw [if_pos inside, Code.result_load_bind, length]
      simp only [walker_past m, next]
      by_cases ok : w.ok (w.next c) = true
      · have rest := ih (c := w.next c) (by have := w.advances c; omega)
        rw [if_neg (not_not.mpr ok), if_pos ok]
        by_cases here : bad c
        · have some : ∃ o ∈ c :: w.walk (w.next c), bad o := ⟨c, List.mem_cons_self, here⟩
          rw [if_pos some, Code.result, Code.run_bind, crash c here]
          rfl
        · obtain ⟨t, hrun, quiet⟩ := still c here
          have later : (∃ o ∈ c :: w.walk (w.next c), bad o) ↔ ∃ o ∈ w.walk (w.next c), bad o := by
            simp [here]
          simp only [Code.result_bind m hrun quiet, bne_self_eq_false, Bool.and_false,
            Bool.false_eq_true, if_false, Code.result_load_bind, length, next, later, rest]
      · rw [if_pos ok, if_neg ok]
        simp
    · rw [if_neg inside, if_neg (outside (Nat.le_of_not_lt inside))]
      simp

end Loop

end Emproto
