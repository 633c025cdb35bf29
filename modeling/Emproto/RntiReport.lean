import Emproto.TokenBytes
import Emproto.Header

/-! Token types and the RNTI container token (`epTLV.c`). A token header
`ep_TLV` is `type 0, length 2` in 4 bytes. The container's loops run a pointer
over 16-bit entries; their counters are naturals here. -/

namespace Emproto

inductive EpTLVType
  | invalid
  | rntiReport
  | cellCap
  | cellPrbReq
  | cellPrbReport
  | ranMacSched
  | ranSliceMacRes
  | ranSliceMacSched
  | ranCap
  | ueRrcMeas
  | ueRrcReport
  | ueRepId
deriving DecidableEq, Repr

def EpTLVType.code : EpTLVType → UInt16
  | invalid => 0
  | rntiReport => 0x0001
  | cellCap => 0x0100
  | cellPrbReq => 0x0101
  | cellPrbReport => 0x0102
  | ranMacSched => 0x0500
  | ranSliceMacRes => 0x0501
  | ranSliceMacSched => 0x0502
  | ranCap => 0x0503
  | ueRrcMeas => 0x0600
  | ueRrcReport => 0x0601
  | ueRepId => 0x0700

/-- The formatting loop: the write pointer after the last entry, or `none` when
an entry does not fit below `fin`. -/
def rntiFill (host : ByteOrder) (fin : Nat) (rntis : Nat → UInt16) :
    Nat → Nat → Nat → Code (Option Nat)
  | 0, _, cur => pure (some cur)
  | k + 1, i, cur =>
    if cur + 2 > fin then pure none
    else do
      Code.note (.get i)
      Code.store host cur (htons host (rntis i))
      rntiFill host fin rntis k (i + 1) (cur + 2)

def epfTLVRntiReport (host : ByteOrder) (buf : Nat) (size : UInt32) (rntis : Nat → UInt16)
    (nofRntis : UInt32) : Code Int := do
  Code.store host buf (htons host EpTLVType.rntiReport.code)
  match ← rntiFill host (buf + size.toNat) rntis nofRntis.toNat 0 (buf + 4) with
  | none => pure (-1)
  | some cur => do
    Code.store host (buf + 2) (htons host (UInt16.ofNat (cur - (buf + 4))))
    pure (toInt32 ((cur - buf : Nat) : Int))

def rntiCopy (host : ByteOrder) : Nat → Nat → Nat → (Nat → UInt16) → Code (Nat → UInt16)
  | 0, _, _, rntis => pure rntis
  | c + 1, i, cur, rntis => do
    let rnti : UInt16 ← Code.load host cur
    Code.note (.set i)
    rntiCopy host c (i + 1) (cur + 2) (Function.update rntis i (ntohs host rnti))

def eppTLVRntiReport (host : ByteOrder) (buf : Nat) (rntis : Nat → UInt16) (nofRntis : UInt32) :
    Code (Int × (Nat → UInt16) × UInt32) := do
  let length : UInt16 ← Code.load host (buf + 2)
  let s := (ntohs host length).toNat
  let c := if s / 2 > nofRntis.toNat then nofRntis.toNat else s / 2
  let rntis ← rntiCopy host c 0 (buf + 4) rntis
  pure (epSuccess, rntis, UInt32.ofNat c)

section Format
variable {host : ByteOrder} {rntis : Nat → UInt16}

def rntiBytes (rntis : Nat → UInt16) : Nat → Nat → List UInt8
  | 0, _ => []
  | n + 1, i => Word.bytes .big (rntis i) ++ rntiBytes rntis n (i + 1)

@[simp] theorem rntiBytes_length (n i : Nat) : (rntiBytes rntis n i).length = 2 * n := by
  induction n generalizing i with
  | zero => rfl
  | succ n ih =>
    simp only [rntiBytes, List.length_append, Word.bytes_length, ih, Word.width]
    omega

theorem rntiFill_emits {fin n i cur : Nat} (h : cur + 2 * n ≤ fin) :
    Emits (rntiFill host fin rntis n i cur) (some (cur + 2 * n))
      (chunk cur (rntiBytes rntis n i)) := by
  induction n generalizing i cur with
  | zero => exact .pure _
  | succ n ih =>
    have rest : Emits (rntiFill host fin rntis n (i + 1) (cur + 2)) (some (cur + 2 + 2 * n))
        (chunk (cur + 2) (rntiBytes rntis n (i + 1))) := ih (by omega)
    rw [rntiFill, if_neg (by omega)]
    rw [show cur + 2 * (n + 1) = cur + 2 + 2 * n by omega]
    refine Emits.of_eq ((Emits.note rfl).bind (Emits.store.bind rest)) ?_
    simp [rntiBytes, chunk_append, Word.width]

theorem rntiFill_stops {fin n i cur : Nat} (hn : 0 < n) (h : fin < cur + 2 * n) :
    ∃ ws, Emits (rntiFill host fin rntis n i cur) none ws ∧ ∀ w ∈ ws, cur ≤ w.1 ∧ w.1 < fin := by
  induction n generalizing i cur with
  | zero => exact absurd hn (lt_irrefl 0)
  | succ n ih =>
    rw [rntiFill]
    by_cases full : cur + 2 > fin
    · rw [if_pos full]
      exact ⟨[], .pure _, by simp⟩
    · obtain ⟨ws, rest, within⟩ :
          ∃ ws, Emits (rntiFill host fin rntis n (i + 1) (cur + 2)) none ws ∧
            ∀ w ∈ ws, cur + 2 ≤ w.1 ∧ w.1 < fin := ih (by omega) (by omega)
      rw [if_neg full]
      refine ⟨_, (Emits.note rfl).bind (Emits.store.bind rest), fun w hw => ?_⟩
      rw [List.nil_append] at hw
      rcases List.mem_append.mp hw with entry | later
      · have := wordChunk_bounds entry
        simp only [Word.width] at this
        omega
      · have := within w later
        omega

/-- The token of `n` entries: its declared length is the 16-bit reduction of `2 * n`. -/
def rntiReportBytes (rntis : Nat → UInt16) (n : Nat) : List UInt8 :=
  tokenBytes EpTLVType.rntiReport.code (rntiBytes rntis n 0)

theorem rntiReportBytes_eq (n : Nat) :
    rntiReportBytes rntis n = Word.bytes .big EpTLVType.rntiReport.code ++
      (Word.bytes .big (UInt16.ofNat (2 * n)) ++ rntiBytes rntis n 0) := by
  rw [rntiReportBytes, tokenBytes, rntiBytes_length]

@[simp] theorem rntiReportBytes_length (n : Nat) :
    (rntiReportBytes rntis n).length = 4 + 2 * n := by
  rw [rntiReportBytes, tokenBytes_length, rntiBytes_length]

theorem lays_rntiReport (buf n : Nat) :
    Lays (chunk buf (Word.bytes .big EpTLVType.rntiReport.code) ++
        (chunk (buf + 4) (rntiBytes rntis n 0) ++
          chunk (buf + 2) (Word.bytes .big (UInt16.ofNat (2 * n)))))
      buf (rntiReportBytes rntis n) where
  holds m := by
    -- the length is stored last, between the type and the entries
    have apart : ∀ w ∈ chunk (buf + 2) (Word.bytes .big (UInt16.ofNat (2 * n))),
        buf + 2 ≤ w.1 ∧ w.1 < buf + 4 := fun w hw => by
      simpa [Word.width, Nat.add_assoc] using chunk_bounds hw
    rw [Mem.patch_append, Mem.patch_append, rntiReportBytes_eq, Mem.holds_append,
      Mem.holds_append]
    refine ⟨?_, ?_, ?_⟩
    · refine ((m.holds_patch_chunk _ _).patch fun w hw => ?_).patch fun w hw => ?_
      · have := chunk_bounds hw
        simp [Word.width]
        omega
      · have := apart w hw
        simp [Word.width]
        omega
    · simpa [Word.width] using Mem.holds_patch_chunk _ (buf + 2) _
    · refine (by simpa [Word.width] using Mem.holds_patch_chunk _ (buf + 4) _ :
        Mem.Holds _ _ (rntiBytes rntis n 0)).patch fun w hw => ?_
      have := apart w hw
      simp [Word.width]
      omega
  within w hw := by
    rw [rntiReportBytes_length]
    simp only [List.mem_append] at hw
    rcases hw with hw | hw | hw <;> have := chunk_bounds hw <;> simp [Word.width] at this <;> omega

/-- The whole token is written if there is room, or if it has no entry to look for room
for. The result is its size, converted to an `int`. -/
theorem epfTLVRntiReport_lays (buf : Nat) (size nofRntis : UInt32)
    (h : nofRntis.toNat = 0 ∨ 4 + 2 * nofRntis.toNat ≤ size.toNat) :
    ∃ ws, Emits (epfTLVRntiReport host buf size rntis nofRntis)
        (toInt32 ((4 + 2 * nofRntis.toNat : Nat) : Int)) ws ∧
      Lays ws buf (rntiReportBytes rntis nofRntis.toNat) := by
  refine ⟨_, ?_, lays_rntiReport buf nofRntis.toNat⟩
  have fill : Emits (rntiFill host (buf + size.toNat) rntis nofRntis.toNat 0 (buf + 4))
      (some (buf + 4 + 2 * nofRntis.toNat))
      (chunk (buf + 4) (rntiBytes rntis nofRntis.toNat 0)) := by
    rcases h with empty | room
    · rw [empty]
      exact .pure _
    · exact rntiFill_emits (by omega)
  have len : buf + 4 + 2 * nofRntis.toNat - (buf + 4) = 2 * nofRntis.toNat := by omega
  have total : buf + 4 + 2 * nofRntis.toNat - buf = 4 + 2 * nofRntis.toNat := by omega
  have finish : Emits (do
      Code.store host (buf + 2)
        (htons host (UInt16.ofNat (buf + 4 + 2 * nofRntis.toNat - (buf + 4))))
      pure (toInt32 ((buf + 4 + 2 * nofRntis.toNat - buf : Nat) : Int)))
      (toInt32 ((4 + 2 * nofRntis.toNat : Nat) : Int))
      (chunk (buf + 2) (Word.bytes .big (UInt16.ofNat (2 * nofRntis.toNat)))) := by
    rw [len, total]
    exact Emits.of_eq (Emits.store.bind (.pure _)) (by simp)
  exact Emits.of_eq (Emits.store.bind (fill.bind finish)) (by simp)

theorem epfTLVRntiReport_emits (buf : Nat) (size nofRntis : UInt32)
    (h : 4 + 2 * nofRntis.toNat ≤ size.toNat) (bound : 4 + 2 * nofRntis.toNat < 2147483648) :
    ∃ ws, Emits (epfTLVRntiReport host buf size rntis nofRntis)
        ((4 + 2 * nofRntis.toNat : Nat) : Int) ws ∧
      Lays ws buf (rntiReportBytes rntis nofRntis.toNat) := by
  have small : toInt32 ((4 + 2 * nofRntis.toNat : Nat) : Int) = (4 + 2 * nofRntis.toNat : Nat) :=
    toInt32_of_lt (by omega) (by omega)
  rw [← small]
  exact epfTLVRntiReport_lays buf size nofRntis (.inr h)

theorem epfTLVRntiReport_stops (buf : Nat) (size nofRntis : UInt32) (pos : 0 < nofRntis.toNat)
    (h : size.toNat < 4 + 2 * nofRntis.toNat) :
    ∃ ws, Emits (epfTLVRntiReport host buf size rntis nofRntis) (-1)
        (chunk buf (Word.bytes .big EpTLVType.rntiReport.code) ++ ws) ∧
      ∀ w ∈ ws, buf + 4 ≤ w.1 ∧ w.1 < buf + size.toNat := by
  obtain ⟨ws, fill, within⟩ : ∃ ws, Emits (rntiFill host (buf + size.toNat) rntis nofRntis.toNat 0
      (buf + 4)) none ws ∧ ∀ w ∈ ws, buf + 4 ≤ w.1 ∧ w.1 < buf + size.toNat :=
    rntiFill_stops pos (by omega)
  exact ⟨ws, Emits.of_eq (Emits.store.bind (fill.bind (.pure _))) (by simp), within⟩

theorem epfTLVRntiReport_short (buf : Nat) (size nofRntis : UInt32) (pos : 0 < nofRntis.toNat)
    (h : size.toNat < 4 + 2 * nofRntis.toNat) :
    ∃ ws, Emits (epfTLVRntiReport host buf size rntis nofRntis) (-1) ws := by
  obtain ⟨ws, emits, -⟩ : ∃ ws, Emits (epfTLVRntiReport host buf size rntis nofRntis) (-1)
      (chunk buf (Word.bytes .big EpTLVType.rntiReport.code) ++ ws) ∧
        ∀ w ∈ ws, buf + 4 ≤ w.1 ∧ w.1 < buf + size.toNat := epfTLVRntiReport_stops buf size _ pos h
  exact ⟨_, emits⟩

end Format

section Parse
variable {host : ByteOrder} {m : Mem}

def rntiCopyTrace : Nat → Nat → Nat → Trace
  | 0, _, _ => []
  | c + 1, i, cur => Code.loadTrace cur 2 ++ (.set i :: rntiCopyTrace c (i + 1) (cur + 2))

theorem rntiCopyTrace_plain (c i cur : Nat) : (rntiCopyTrace c i cur).Plain := by
  induction c generalizing i cur with
  | zero => exact Trace.plain_nil
  | succ c ih => simp [rntiCopyTrace, ih]

theorem rntiCopyTrace_readsIn {lo hi c i cur : Nat} (h : lo ≤ cur) (h' : cur + 2 * c ≤ hi) :
    (rntiCopyTrace c i cur).ReadsIn lo hi := by
  induction c generalizing i cur with
  | zero => exact Trace.readsIn_nil lo hi
  | succ c ih =>
    rw [rntiCopyTrace, Trace.readsIn_append, Code.readsIn_loadTrace]
    exact ⟨.inr (by omega), ih (by omega) (by omega)⟩

def copied (m : Mem) (c i cur : Nat) (rntis : Nat → UInt16) : Nat → UInt16 :=
  fun j => if i ≤ j ∧ j < i + c then m.be (cur + 2 * (j - i)) else rntis j

theorem run_rntiCopy (c i cur : Nat) (rntis : Nat → UInt16) :
    (rntiCopy host c i cur rntis).run m =
      some (copied m c i cur rntis, rntiCopyTrace c i cur) := by
  induction c generalizing i cur rntis with
  | zero =>
    have : copied m 0 i cur rntis = rntis := by
      funext j
      rw [copied, if_neg (by omega)]
    rw [this]
    rfl
  | succ c ih =>
    have step : copied m c (i + 1) (cur + 2) (Function.update rntis i (m.be cur)) =
        copied m (c + 1) i cur rntis := by
      funext j
      simp only [copied, Function.update_apply]
      split_ifs with h₁ h₂ h₃ h₄ h₅
      · rw [show cur + 2 + 2 * (j - (i + 1)) = cur + 2 * (j - i) by omega]
      · omega
      · subst h₃
        simp
      · omega
      · omega
      · rfl
    rw [rntiCopy, Code.run_load_bind, Code.run_note_bind m rfl]
    simp only [Mem.ntoh_word, ih, step]
    rfl

def rntiCount (m : Mem) (buf cap : Nat) : Nat := min ((m.be (buf + 2) : UInt16).toNat / 2) cap

theorem be_of_rntiBytes {rntis : Nat → UInt16} {n i p : Nat} (h : m.Holds p (rntiBytes rntis n i))
    {j : Nat} (hj : j < n) : m.be (p + 2 * j) = rntis (i + j) := by
  induction n generalizing i p j with
  | zero => exact absurd hj (Nat.not_lt_zero j)
  | succ n ih =>
    obtain ⟨first, rest⟩ := Mem.holds_append.mp h
    rw [Word.bytes_length] at rest
    cases j with
    | zero => exact Mem.word_of_holds first
    | succ j =>
      have tail := ih rest (Nat.lt_of_succ_lt_succ hj)
      rw [show i + (j + 1) = i + 1 + j by omega, ← tail]
      congr 1
      simp only [Word.width]
      omega

theorem run_eppTLVRntiReport (buf : Nat) (rntis : Nat → UInt16) (nofRntis : UInt32) :
    (eppTLVRntiReport host buf rntis nofRntis).run m =
      some ((0, copied m (rntiCount m buf nofRntis.toNat) 0 (buf + 4) rntis,
          UInt32.ofNat (rntiCount m buf nofRntis.toNat)),
        Code.loadTrace (buf + 2) 2 ++
          rntiCopyTrace (rntiCount m buf nofRntis.toNat) 0 (buf + 4)) := by
  have count : (if (m.be (buf + 2) : UInt16).toNat / 2 > nofRntis.toNat then nofRntis.toNat
      else (m.be (buf + 2) : UInt16).toNat / 2) = rntiCount m buf nofRntis.toNat := by
    rw [rntiCount]
    split <;> omega
  rw [eppTLVRntiReport, Code.run_load_bind]
  simp only [Mem.ntoh_word, count]
  rw [Code.run_bind_quiet m (run_rntiCopy _ _ _ _) (rntiCopyTrace_plain _ _ _).stores]
  simp
  rfl

end Parse

end Emproto
