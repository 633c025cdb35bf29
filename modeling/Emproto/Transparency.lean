import Emproto.CellMeas
import Emproto.EnbCapsRun
import Emproto.RanParse
import Emproto.UeTable
import Emproto.UeMeas

/-! Tokens of unknown types. A newer peer may put them anywhere into a body, and an older
parser is meant to make of the body what it makes of it without them. -/

namespace Emproto

/-- The token types a parser knows, each with the bytes it reads of the body. -/
abbrev Known := List (EpTLVType × Nat)

def Token.Full (known : Known) (t : Token) : Prop :=
  ∀ e ∈ known, t.type = e.1.code → e.2 ≤ t.body.length

def Token.Unknown (known : Known) (t : Token) : Prop := ∀ e ∈ known, t.type ≠ e.1.code

theorem Token.Unknown.type_ne {known : Known} {t : Token} (new : t.Unknown known) {m : Mem}
    {c : Nat} (h : m.Holds c t.bytes) {e : EpTLVType × Nat} (mem : e ∈ known) :
    (m.be c : UInt16) ≠ e.1.code := by
  rw [Token.type_of_holds h]
  exact new e mem

/-- A body with `width` bytes before its tokens, and where an unknown token goes into it. -/
structure Insertion (known : Known) (width : Nat) where
  head : List UInt8
  before : List Token
  token : Token
  after : List Token
  fixed : head.length = width
  full : ∀ t ∈ before ++ after, t.Full known
  unknown : token.Unknown known
  bounded : (head ++ encode (before ++ token :: after)).length < 2 ^ 32

namespace Insertion
variable {known : Known} {width : Nat} (ins : Insertion known width)

def plain : List UInt8 := ins.head ++ encode (ins.before ++ ins.after)

def longer : List UInt8 := ins.head ++ encode (ins.before ++ ins.token :: ins.after)

def size : UInt32 := UInt32.ofNat ins.plain.length

def longerSize : UInt32 := UInt32.ofNat ins.longer.length

/-- Wherever the two bodies lie, the parser makes the same of them. -/
def Transparent {ρ : Type} (parse : Mem → Nat → UInt32 → ρ) : Prop :=
  ∀ (m m' : Mem) (b b' : Nat), m.Holds b ins.plain → m'.Holds b' ins.longer →
    parse m b ins.size = parse m' b' ins.longerSize

theorem plain_length_lt : ins.plain.length < ins.longer.length := by
  have : ins.token.bytes.length = 4 + ins.token.body.length := tokenBytes_length ..
  simp only [plain, longer, encode_append, encode_cons, List.length_append]
  omega

theorem size_toNat : ins.size.toNat = ins.plain.length :=
  uint32_toNat_ofNat (ins.plain_length_lt.trans ins.bounded)

theorem longerSize_toNat : ins.longerSize.toNat = ins.longer.length :=
  uint32_toNat_ofNat ins.bounded

end Insertion

/-! What the parsers know, and that their handlers look at nothing else. -/

def setupKnown : Known := [(.ranMacSched, 4)]

def sliceKnown : Known := [(.rntiReport, 0), (.ranSliceMacRes, 2), (.ranSliceMacSched, 4)]

def cellKnown : Known := [(.cellPrbReport, 10)]

def rrcReportKnown : Known := [(.ueRrcReport, 8)]

def rrcMeasKnown : Known := [(.ueRrcMeas, 12)]

def ueKnown : Known := [(.ueRepId, 18)]

def capKnown : Known := [(.cellCap, 14), (.ranCap, 20)]

section Steps
variable {host : ByteOrder}

theorem setupStep_local : Local setupStep (Token.Full setupKnown) := by
  intro t full m m' c c' h h' det
  simp only [setupStep, Token.type_of_holds h, Token.type_of_holds h']
  split_ifs with mine
  · have room : 4 ≤ t.body.length := full (.ranMacSched, 4) (by decide) mine
    have sched : (m.be (c + 4) : UInt32) = m'.be (c' + 4) :=
      Token.word_same h h' (by simp only [Word.width]; omega)
    rw [sched]
  · rfl

theorem setupStep_skips : Skips setupStep (Token.Unknown setupKnown) := by
  intro t new m c h det
  have other := new.type_ne h (e := (.ranMacSched, 4)) (by decide)
  exact if_neg other

theorem copied_congr {m m' : Mem} {n p q : Nat}
    (same : ∀ j < n, (m.be (p + 2 * j) : UInt16) = m'.be (q + 2 * j)) (rntis : Nat → UInt16) :
    copied m n 0 p rntis = copied m' n 0 q rntis := by
  funext j
  simp only [copied]
  split_ifs with inside
  · exact same (j - 0) (by omega)
  · rfl

theorem sliceStep_local : Local sliceStep (Token.Full sliceKnown) := by
  intro t full m m' c c' h h' det
  have length := (Token.holds_bytes.mp h).2.1
  have length' := (Token.holds_bytes.mp h').2.1
  simp only [sliceStep, Token.type_of_holds h, Token.type_of_holds h', rntiCount, length, length']
  split_ifs with users res sched
  · have entries : copied m (min (t.body.length / 2) epRanUsersMax.toNat) 0 (c + 4) det.users =
        copied m' (min (t.body.length / 2) epRanUsersMax.toNat) 0 (c' + 4) det.users := by
      refine copied_congr (fun j hj => ?_) det.users
      rw [Nat.add_assoc, Nat.add_assoc]
      exact Token.word_same h h' (by simp only [Word.width]; omega)
    rw [entries]
  · have room : 2 ≤ t.body.length := full (.ranSliceMacRes, 2) (by decide) res
    have rbgs : (m.be (c + 4) : UInt16) = m'.be (c' + 4) :=
      Token.word_same h h' (by simp only [Word.width]; omega)
    rw [rbgs]
  · have room : 4 ≤ t.body.length := full (.ranSliceMacSched, 4) (by decide) sched
    have usched : (m.be (c + 4) : UInt32) = m'.be (c' + 4) :=
      Token.word_same h h' (by simp only [Word.width]; omega)
    rw [usched]
  · rfl

theorem sliceStep_skips : Skips sliceStep (Token.Unknown sliceKnown) := by
  intro t new m c h det
  have users := new.type_ne h (e := (.rntiReport, 0)) (by decide)
  have res := new.type_ne h (e := (.ranSliceMacRes, 2)) (by decide)
  have sched := new.type_ne h (e := (.ranSliceMacSched, 4)) (by decide)
  rw [sliceStep, if_neg users, if_neg res, if_neg sched]

theorem prbStep_local : Local prbStep (Token.Full cellKnown) := by
  intro t full m m' c c' h h' rep
  simp only [prbStep, Token.type_of_holds h, Token.type_of_holds h']
  split_ifs with mine
  · have room : 10 ≤ t.body.length := full (.cellPrbReport, 10) (by decide) mine
    have size : t.bytes.length = 4 + t.body.length := tokenBytes_length ..
    have dl : m (c + 4) = m' (c' + 4) := h.same h' (by omega)
    have dlUsed : (m.be (c + 5) : UInt32) = m'.be (c' + 5) :=
      Token.word_same h h' (by simp only [Word.width]; omega)
    have ul : m (c + 9) = m' (c' + 9) := h.same h' (by omega)
    have ulUsed : (m.be (c + 10) : UInt32) = m'.be (c' + 10) :=
      Token.word_same h h' (by simp only [Word.width]; omega)
    rw [dl, dlUsed, ul, ulUsed]
  · rfl

theorem prbStep_skips : Skips prbStep (Token.Unknown cellKnown) := by
  intro t new m c h rep
  have other := new.type_ne h (e := (.cellPrbReport, 10)) (by decide)
  exact if_neg other

theorem rrcStep_local {α : Type} {type : EpTLVType} {need : Nat} {entry : Mem → Nat → α}
    (reads : ∀ t : Token, need ≤ t.body.length → ∀ (m m' : Mem) (c c' : Nat),
      m.Holds c t.bytes → m'.Holds c' t.bytes → entry m c = entry m' c') :
    Local (fun m => rrcStep m type.code (entry m)) (Token.Full [(type, need)]) := by
  intro t full m m' c c' h h' rep
  simp only [rrcStep, Token.type_of_holds h, Token.type_of_holds h']
  split_ifs with mine
  · rw [reads t (full (type, need) List.mem_cons_self mine) m m' c c' h h']
  · rfl

theorem rrcStep_skips {α : Type} {type : EpTLVType} {need : Nat} {entry : Mem → Nat → α} :
    Skips (fun m => rrcStep m type.code (entry m)) (Token.Unknown [(type, need)]) := by
  intro t new m c h rep
  have other := new.type_ne h (e := (type, need)) List.mem_cons_self
  exact if_neg other

theorem rrcReportAt_same {t : Token} (room : 8 ≤ t.body.length) (m m' : Mem) (c c' : Nat)
    (h : m.Holds c t.bytes) (h' : m'.Holds c' t.bytes) : rrcReportAt m c = rrcReportAt m' c' := by
  have word {k : Nat} (inside : k ≤ 10) : (m.be (c + k) : UInt16) = m'.be (c' + k) :=
    Token.word_same h h' (by simp only [Word.width]; omega)
  simp only [rrcReportAt, EpUeRRCReport.mk.injEq]
  exact ⟨word (by decide), word (by decide), word (by decide), word (by decide)⟩

theorem rrcMeasAt_same {t : Token} (room : 12 ≤ t.body.length) (m m' : Mem) (c c' : Nat)
    (h : m.Holds c t.bytes) (h' : m'.Holds c' t.bytes) : rrcMeasAt m c = rrcMeasAt m' c' := by
  have word {k : Nat} (inside : k ≤ 14) : (m.be (c + k) : UInt16) = m'.be (c' + k) :=
    Token.word_same h h' (by simp only [Word.width]; omega)
  simp only [rrcMeasAt, EpUeRRCMeas.mk.injEq]
  exact ⟨word (by decide), word (by decide), word (by decide), word (by decide),
    congrArg _ (word (by decide)), congrArg _ (word (by decide))⟩

theorem ecapStep_local : Local (fun m => ecapStep m host) (Token.Full capKnown) := by
  intro t full m m' c c' h h' det
  have size : t.bytes.length = 4 + t.body.length := tokenBytes_length ..
  simp only [ecapStep, IsCellCap, IsRanCap, Token.type_of_holds h, Token.type_of_holds h']
  split_ifs with cell ran
  · have room : 14 ≤ t.body.length := full (.cellCap, 14) (by decide) cell
    have short {k : Nat} (inside : k ≤ 16) : (m.be (c + k) : UInt16) = m'.be (c' + k) :=
      Token.word_same h h' (by simp only [Word.width]; omega)
    have feat : (m.be (c + 6) : UInt32) = m'.be (c' + 6) :=
      Token.word_same h h' (by simp only [Word.width]; omega)
    have entry : cellAt m c = cellAt m' c' := by
      simp only [cellAt, EpCellDet.mk.injEq]
      exact ⟨short (by decide), feat, short (by decide), short (by decide), h.same h' (by omega),
        h.same h' (by omega), short (by decide)⟩
    rw [entry]
  · have room : 20 ≤ t.body.length := full (.ranCap, 20) (by decide) ran
    have short {k : Nat} (inside : k ≤ 22) : (m.be (c + k) : UInt16) = m'.be (c' + k) :=
      Token.word_same h h' (by simp only [Word.width]; omega)
    have word {k : Nat} (inside : k ≤ 20) : (m.be (c + k) : UInt32) = m'.be (c' + k) :=
      Token.word_same h h' (by simp only [Word.width]; omega)
    have entry : ranAt m host c = ranAt m' host c' := by
      simp only [ranAt, EpRanDet.mk.injEq]
      exact ⟨short (by decide), word (by decide), word (by decide), word (by decide),
        word (by decide), congrArg _ (short (by decide))⟩
    rw [entry]
  · rfl

theorem ecapStep_skips : Skips (fun m => ecapStep m host) (Token.Unknown capKnown) := by
  intro t new m c h det
  have cell := new.type_ne h (e := (.cellCap, 14)) (by decide)
  have ran := new.type_ne h (e := (.ranCap, 20)) (by decide)
  exact (if_neg cell).trans (if_neg ran)

end Steps

section Bodies
variable {m m' : Mem} {b b' width : Nat} {head : List UInt8} {ts : List Token}

theorem tokens_held (fixed : head.length = width) (h : m.Holds b (head ++ encode ts)) :
    m.Holds (b + width) (encode ts) := by
  subst fixed
  exact (Mem.holds_append.mp h).2

theorem body_walk (fixed : head.length = width) (h : m.Holds b (head ++ encode ts)) :
    (m.walker false (b + (head ++ encode ts).length)).walk (b + width) = starts (b + width) ts := by
  refine walk_encode_all (tokens_held fixed h) ?_
  rw [List.length_append, fixed, Nat.add_assoc]

variable {known : Known} (ins : Insertion known width)

theorem Insertion.plain_walk (h : m.Holds b ins.plain) :
    (m.walker false (b + ins.size.toNat)).walk (b + width) =
      starts (b + width) (ins.before ++ ins.after) := by
  rw [ins.size_toNat]
  exact body_walk ins.fixed h

theorem Insertion.longer_walk (h : m.Holds b ins.longer) :
    (m.walker false (b + ins.longerSize.toNat)).walk (b + width) =
      starts (b + width) (ins.before ++ ins.token :: ins.after) := by
  rw [ins.longerSize_toNat]
  exact body_walk ins.fixed h

theorem Insertion.head_word {W : Type} [Word W] (h : m.Holds b ins.plain)
    (h' : m'.Holds b' ins.longer) {k : Nat} (inside : k + Word.width W ≤ width) :
    (m.be (b + k) : W) = m'.be (b' + k) :=
  (Mem.holds_append.mp h).1.word_same (Mem.holds_append.mp h').1 (by rwa [ins.fixed])

/-- A handler that looks at its token only, and passes over what it does not know, makes the
same of both bodies. -/
theorem Insertion.runSteps_same {σ : Type} {step : Mem → Nat → σ → σ}
    (hlocal : Local step (Token.Full known)) (skips : Skips step (Token.Unknown known))
    (h : m.Holds b ins.plain) (h' : m'.Holds b' ins.longer) (s : σ) :
    runSteps (step m) ((m.walker false (b + ins.size.toNat)).walk (b + width)) s =
      runSteps (step m') ((m'.walker false (b' + ins.longerSize.toNat)).walk (b' + width)) s := by
  rw [ins.plain_walk h, ins.longer_walk h']
  exact hlocal.runSteps_insert skips ins.full ins.unknown (tokens_held ins.fixed h)
    (tokens_held ins.fixed h') s

theorem Insertion.runSteps_same_whole {σ : Type} (ins : Insertion known 0)
    {step : Mem → Nat → σ → σ} (hlocal : Local step (Token.Full known))
    (skips : Skips step (Token.Unknown known)) (h : m.Holds b ins.plain)
    (h' : m'.Holds b' ins.longer) (s : σ) :
    runSteps (step m) ((m.walker false (b + ins.size.toNat)).walk b) s =
      runSteps (step m') ((m'.walker false (b' + ins.longerSize.toNat)).walk b') s :=
  ins.runSteps_same hlocal skips h h' s

theorem Insertion.width_le : width ≤ ins.size.toNat ∧ width ≤ ins.longerSize.toNat := by
  rw [size_toNat, longerSize_toNat, plain, longer, List.length_append, List.length_append,
    ins.fixed]
  omega

end Bodies

section Parsers
variable {host : ByteOrder}

theorem eppRanEup_transparent (ins : Insertion setupKnown 12) (old : EpRanDet) :
    ins.Transparent fun m b size => (eppRanEup host b size (some old)).result m := by
  intro m m' b b' h h'
  have word {k : Nat} (inside : k ≤ 8) : (m.be (b + k) : UInt32) = m'.be (b' + k) :=
    ins.head_word h h' (by simp only [Word.width]; omega)
  have masks : setupMasks m b old = setupMasks m' b' old := by
    simp only [setupMasks, EpRanDet.mk.injEq, true_and, and_true]
    exact ⟨word (Nat.zero_le 8), word (by decide), word (by decide)⟩
  dsimp only
  rw [Code.result_of m (run_eppRanEup m ins.width_le.1 old),
    Code.result_of m' (run_eppRanEup m' ins.width_le.2 old), masks,
    ins.runSteps_same setupStep_local setupStep_skips h h']

theorem parseSlice_transparent (ins : Insertion sliceKnown 8) (checked : Bool)
    (id : Option UInt64) (old : EpRanSliceDet) :
    ins.Transparent fun m b size => (parseSlice host checked b size id (some old)).result m := by
  intro m m' b b' h h'
  have value : (m.be b : UInt64) = m'.be b' := ins.head_word (k := 0) h h' (by decide)
  dsimp only
  rw [Code.result_of m (run_parseSlice m ins.width_le.1 id old),
    Code.result_of m' (run_parseSlice m' ins.width_le.2 id old), value,
    ins.runSteps_same sliceStep_local sliceStep_skips h h']

theorem eppCellMeasRep_transparent (ins : Insertion cellKnown 0) (old : EpCellRep) :
    ins.Transparent fun m b size => (eppCellMeasRep host (some b) size (some old)).result m := by
  intro m m' b b' h h'
  dsimp only
  rw [Code.result_of m (run_eppCellMeasRep m b ins.size old),
    Code.result_of m' (run_eppCellMeasRep m' b' ins.longerSize old),
    ins.runSteps_same_whole prbStep_local prbStep_skips h h']

theorem eppUemeasRep_transparent (ins : Insertion rrcReportKnown 0) (old : EpUeReport) :
    ins.Transparent fun m b size => (eppUemeasRep host (some b) size (some old)).result m := by
  intro m m' b b' h h'
  dsimp only
  rw [Code.result_of m (run_eppUemeasRep m b ins.size old),
    Code.result_of m' (run_eppUemeasRep m' b' ins.longerSize old),
    ins.runSteps_same_whole (rrcStep_local fun _ => rrcReportAt_same) rrcStep_skips h h']

theorem eppUemeasReq_transparent (ins : Insertion rrcMeasKnown 0) (old : EpUeMeas) :
    ins.Transparent fun m b size => (eppUemeasReq host (some b) size (some old)).result m := by
  intro m m' b b' h h'
  dsimp only
  rw [Code.result_of m (run_eppUemeasReq m b ins.size old),
    Code.result_of m' (run_eppUemeasReq m' b' ins.longerSize old),
    ins.runSteps_same_whole (rrcStep_local fun _ => rrcMeasAt_same) rrcStep_skips h h']

end Parsers

end Emproto
