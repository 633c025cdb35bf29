import Emproto.Messages
import Emproto.HeaderParse
import Emproto.UeReportRoundTrip

/-! The length field of UE reports. A report grows by 23 bytes with each UE, its length
field has 16 bits. -/

namespace Emproto

theorem Emits.unique {α : Type} {c : Code α} {a a' : α} {vs ws : List (Nat × UInt8)}
    (h : Emits c a vs) (h' : Emits c a' ws) : a = a' ∧ vs = ws := by
  obtain ⟨t, hrun, ht⟩ := h fun _ => 0
  obtain ⟨t', hrun', ht'⟩ := h' fun _ => 0
  cases hrun.symm.trans hrun'
  exact ⟨rfl, ht.symm.trans ht'⟩

theorem toInt32_toInt32_add (x y : Int) : toInt32 (toInt32 x + y) = toInt32 (x + y) :=
  Int.bmod_add_bmod

section Fill
variable {host : ByteOrder} {ues : Nat → EpUeDetails}

theorem uerepFill_sum {fin k i c : Nat} {s : Int}
    (fits : (withRnti ues i k).length = 0 ∨ c + 23 * (withRnti ues i k).length ≤ fin + 4) :
    ∃ ws, Emits (uerepFill host fin (some ues) k i c (toInt32 s))
      (toInt32 (s + 23 * (withRnti ues i k).length)) ws := by
  induction k generalizing i c s with
  | zero =>
    refine ⟨[], ?_⟩
    rw [show s + 23 * ((withRnti ues i 0).length : Int) = s by simp [withRnti]]
    exact .pure _
  | succ k ih =>
    by_cases skip : (ues i).rnti = 0
    · rw [withRnti_skip skip] at fits ⊢
      obtain ⟨ws, rest⟩ := ih fits
      exact ⟨ws, uerepFill_skip skip rest⟩
    · rw [withRnti_take skip, List.length_cons] at fits ⊢
      obtain ⟨ws, rest⟩ : ∃ ws, Emits (uerepFill host fin (some ues) k (i + 1) (c + 23)
          (toInt32 (s + 23))) (toInt32 (s + 23 + 23 * (withRnti ues (i + 1) k).length)) ws :=
        ih (by omega)
      have sum : s + 23 + 23 * ((withRnti ues (i + 1) k).length : Int) =
          s + 23 * (((withRnti ues (i + 1) k).length + 1 : Nat) : Int) := by
        push_cast
        ring
      rw [sum, ← toInt32_toInt32_add] at rest
      exact ⟨_, uerepFill_store skip (by omega) rest⟩

theorem uerepFill_short {fin k i c : Nat} {s : Int} (one : 0 < (withRnti ues i k).length)
    (short : fin + 4 < c + 23 * (withRnti ues i k).length) :
    ∃ ws, Emits (uerepFill host fin (some ues) k i c s) (-1) ws := by
  induction k generalizing i c s with
  | zero => exact absurd one (lt_irrefl 0)
  | succ k ih =>
    by_cases skip : (ues i).rnti = 0
    · rw [withRnti_skip skip] at one short
      obtain ⟨ws, rest⟩ := ih (s := s) one short
      exact ⟨ws, uerepFill_skip skip rest⟩
    · rw [withRnti_take skip, List.length_cons] at short
      by_cases full : c + 19 > fin
      · exact ⟨[], uerepFill_full skip full⟩
      · obtain ⟨ws, rest⟩ : ∃ ws, Emits (uerepFill host fin (some ues) k (i + 1) (c + 23)
            (toInt32 (s + 23))) (-1) ws := ih (by omega) (by omega)
        exact ⟨_, uerepFill_store skip (Nat.le_of_not_lt full) rest⟩

end Fill

def reportLength (nofUes maxUes : UInt32) : Option (Nat → EpUeDetails) → Nat
  | none => 27
  | some ues => 27 + 23 * (reported nofUes maxUes ues).length

/-- A successful run leaves its result in the length field of the message. -/
def LengthExact (host : ByteOrder) (b : Nat) (m : Mem) (run : Option (Int × Trace)) : Prop :=
  ∀ n t, run = some (n, t) → 0 ≤ n →
    ∃ len, (eppMsgLength host (some b) (UInt32.ofNat n.toNat)).result (m.patch t.stores) =
      some len ∧ (len.toNat : Int) = n

section Report
variable {host : ByteOrder} {b : Nat} {size : UInt32} {ids : EpHdrId} {nofUes maxUes : UInt32}
  {m : Mem}

theorem lengthExact_iff {c : Code Int} {head event : List UInt8} {whole : Bool} {n : Int}
    {ws : List (Nat × UInt8)} (emits : Emits c n ws) (int : IsInt32 n)
    (frames : 0 ≤ n → Frames b head event whole n ws) :
    LengthExact host b m (c.run m) ↔ n ≤ 65535 := by
  obtain ⟨t, hrun, rfl⟩ := emits m
  have field (success : 0 ≤ n) :
      (eppMsgLength host (some b) (UInt32.ofNat n.toNat)).result (m.patch t.stores) =
        some (UInt16.ofInt n) := by
    have long := (frames success).long
    have size : (UInt32.ofNat n.toNat).toNat = n.toNat :=
      uint32_toNat_ofNat (by have := int.2; omega)
    have held : (m.patch t.stores).be (b + 22) = UInt16.ofInt n :=
      Mem.word_of_holds ((frames success).length m)
    rw [result_eppMsgLength _ (by omega), held]
  have reduced : (UInt16.ofInt n).toNat = (n % 65536).toNat := by
    rw [UInt16.ofInt, UInt16.toNat_ofNat']
    omega
  apply Iff.intro
  · intro exact
    by_cases success : 0 ≤ n
    · obtain ⟨len, read, value⟩ := exact n t hrun success
      cases (field success).symm.trans read
      omega
    · omega
  · intro small n' t' hrun' success
    cases hrun.symm.trans hrun'
    exact ⟨_, field success, by omega⟩

theorem epfUerepRep_returns (host : ByteOrder) (nofUes maxUes : UInt32)
    (ues : Nat → EpUeDetails) (p : Nat) (s : UInt32) :
    ∃ ws, Emits (epfUerepRep host nofUes maxUes (some ues) p s)
      (if (reported nofUes maxUes ues).length = 0 ∨
          23 * (reported nofUes maxUes ues).length ≤ s.toNat + 4 then
        toInt32 ((23 * (reported nofUes maxUes ues).length : Nat) : Int)
      else -1) ws := by
  split
  · have fits : (reported nofUes maxUes ues).length = 0 ∨
        p + 23 * (reported nofUes maxUes ues).length ≤ p + s.toNat + 4 := by omega
    have filled : ∃ ws, Emits (uerepFill host (p + s.toNat) (some ues)
        (min nofUes.toNat maxUes.toNat) 0 p (toInt32 0))
        (toInt32 (0 + 23 * (reported nofUes maxUes ues).length)) ws := uerepFill_sum fits
    rw [zero_add] at filled
    exact filled
  · have one : 0 < (reported nofUes maxUes ues).length := by omega
    exact uerepFill_short one (by
      show p + s.toNat + 4 < p + 23 * (reported nofUes maxUes ues).length
      omega)

/-- What the report formatter returns: the length as long as all but the last four
bytes fit and it is an `int`, else a negative value. -/
theorem epfTriggerUerepRep_returns (host : ByteOrder) (b : Nat) (size : UInt32) (ids : EpHdrId)
    (nofUes maxUes : UInt32) (ues : Nat → EpUeDetails) :
    ∃ n ws, Emits (epfTriggerUerepRep host (some b) size ids nofUes maxUes (some ues)) n ws ∧
      if 27 ≤ size.toNat ∧ reportLength nofUes maxUes (some ues) ≤ size.toNat + 4 ∧
          reportLength nofUes maxUes (some ues) < 2147483648 then
        n = reportLength nofUes maxUes (some ues)
      else n < 0 := by
  have bound := size.toNat_lt
  have text : epfTriggerUerepRep host (some b) size ids nofUes maxUes (some ues) =
      formatMessage host (some b) size .trigger ids .rep
        (epfTrigger host .ueReport EpOpType.success.code)
        (epfUerepRep host nofUes maxUes (some ues)) := by
    rw [epfTriggerUerepRep, if_neg (by simp), if_neg (by simp)]
  rw [text, reportLength]
  by_cases headers : size.toNat < 27
  · obtain ⟨vs, emits, -⟩ : ∃ vs, Emits (formatMessage host (some b) size .trigger ids .rep
        (epfTrigger host .ueReport EpOpType.success.code)
        (epfUerepRep host nofUes maxUes (some ues))) (-1) vs ∧
        ∀ w ∈ vs, b ≤ w.1 ∧ w.1 < b + size.toNat := formatMessage_headers_fail headers
    exact ⟨-1, vs, emits, by rw [if_neg (by omega)]; decide⟩
  have event : Emits (epfTrigger host .ueReport EpOpType.success.code (b + 24)
      (size - UInt32.ofNat 24)) (3 : Nat)
      (chunk (b + 24) (eventBytes host EpActType.ueReport.code EpOpType.success.code)) :=
    eventHeader_behind (by omega)
  have space : (size - UInt32.ofNat 27).toNat = size.toNat - 27 := uint32_sub_toNat (by omega)
  obtain ⟨ws, body⟩ := epfUerepRep_returns host nofUes maxUes ues (b + 27) (size - UInt32.ofNat 27)
  rw [space] at body
  generalize (reported nofUes maxUes ues).length = k at *
  by_cases fits : k = 0 ∨ 23 * k ≤ size.toNat - 27 + 4
  · rw [if_pos fits] at body
    by_cases int : 23 * k < 2147483648
    · rw [toInt32_of_lt (by omega) (by omega)] at body
      refine ⟨_, _, formatMessage_sum 3 (23 * k) (by omega) event (by decide) body, ?_⟩
      split
      · exact toInt32_of_lt (by omega) (by omega)
      · exact toInt32_neg (by omega) (by omega)
    · have negative : toInt32 ((23 * k : Nat) : Int) < 0 := toInt32_neg (by omega) (by omega)
      refine ⟨_, _, formatMessage_body_fails 3 (by omega) event (by omega) body negative, ?_⟩
      rw [if_neg (by omega)]
      exact negative
  · rw [if_neg fits] at body
    refine ⟨-1, _, formatMessage_body_fails 3 (by omega) event (by omega) body (by decide), ?_⟩
    rw [if_neg (by omega)]
    decide

theorem epfTriggerUerepRep_none (host : ByteOrder) (b : Nat) (size : UInt32) (ids : EpHdrId)
    (nofUes maxUes : UInt32) :
    ∃ n ws, Emits (epfTriggerUerepRep host (some b) size ids nofUes maxUes none) n ws ∧ n ≤ 27 := by
  by_cases none : nofUes = 0
  · subst none
    have text : epfTriggerUerepRep host (some b) size ids 0 maxUes Option.none =
        formatMessage host (some b) size .trigger ids .rep
          (eventHeader host EpActType.ueReport.code EpOpType.success.code) fun _ _ => pure 0 := by
      have body : epfUerepRep host 0 maxUes Option.none = fun _ _ => pure 0 := by
        funext p s
        simp [epfUerepRep, uerepFill]
      rw [epfTriggerUerepRep, if_neg (by simp), if_neg (by simp), body]
      rfl
    rw [text]
    by_cases headers : size.toNat < 27
    · obtain ⟨ws, emits, -⟩ : ∃ ws, Emits (formatMessage host (some b) size .trigger ids .rep
          (eventHeader host EpActType.ueReport.code EpOpType.success.code) fun _ _ => pure 0)
          (-1) ws ∧ ∀ w ∈ ws, b ≤ w.1 ∧ w.1 < b + size.toNat := formatMessage_headers_fail headers
      exact ⟨-1, ws, emits, by decide⟩
    · obtain ⟨ws, emits⟩ : ∃ ws, Emits (formatMessage host (some b) size .trigger ids .rep
          (eventHeader host EpActType.ueReport.code EpOpType.success.code) fun _ _ => pure 0)
          ((27 + 0 : Nat) : Int) ws :=
        formatMessage_returns 0 (Nat.le_of_not_lt headers) (.pure _) (by decide)
      exact ⟨_, ws, emits, le_rfl⟩
  · have some : 0 < nofUes := UInt32.pos_iff_ne_zero.mpr none
    refine ⟨-1, [], ?_, by decide⟩
    rw [epfTriggerUerepRep, if_neg (by simp), if_pos (by simp [some])]
    exact .pure _

theorem report_lengthExact_iff {ues : Option (Nat → EpUeDetails)} {n : Int}
    {ws : List (Nat × UInt8)}
    (emits : Emits (epfTriggerUerepRep host (some b) size ids nofUes maxUes ues) n ws) :
    LengthExact host b m ((epfTriggerUerepRep host (some b) size ids nofUes maxUes ues).run m) ↔
      n ≤ 65535 := by
  rcases (Message.triggerUerepRep nofUes maxUes ues).formats host b size ids with
    crash | ⟨n', ws', emits', int, frames⟩
  · obtain ⟨t, hrun, -⟩ := emits m
    cases hrun.symm.trans (crash m)
  · obtain ⟨rfl, rfl⟩ := emits.unique emits'
    exact lengthExact_iff emits int frames

theorem report_not_lengthExact {ues : Nat → EpUeDetails} {length : Nat}
    (value : reportLength nofUes maxUes (some ues) = length) (large : 65535 < length)
    (fits : length ≤ size.toNat + 4) (int : length < 2147483648) :
    ¬ LengthExact host b m
      ((epfTriggerUerepRep host (some b) size ids nofUes maxUes (some ues)).run m) := by
  obtain ⟨n, ws, emits, returns⟩ := epfTriggerUerepRep_returns host b size ids nofUes maxUes ues
  rw [value, if_pos ⟨by omega, fits, int⟩] at returns
  rw [report_lengthExact_iff emits]
  omega

/-- The length field of a report is exact as long as the length has 16 bits; it is
never wrong where the formatter refuses, for want of space or of an `int`. -/
theorem epfTriggerUerepRep_lengthExact_iff (host : ByteOrder) (b : Nat) (size : UInt32)
    (ids : EpHdrId) (nofUes maxUes : UInt32) (ues : Option (Nat → EpUeDetails)) (m : Mem) :
    LengthExact host b m ((epfTriggerUerepRep host (some b) size ids nofUes maxUes ues).run m) ↔
      reportLength nofUes maxUes ues ≤ 65535 ∨
        size.toNat + 4 < reportLength nofUes maxUes ues ∨
        2147483648 ≤ reportLength nofUes maxUes ues := by
  cases ues with
  | none =>
    obtain ⟨n, ws, emits, small⟩ := epfTriggerUerepRep_none host b size ids nofUes maxUes
    rw [report_lengthExact_iff emits]
    exact iff_of_true (by omega) (.inl (show 27 ≤ 65535 by decide))
  | some ues =>
    obtain ⟨n, ws, emits, value⟩ := epfTriggerUerepRep_returns host b size ids nofUes maxUes ues
    rw [report_lengthExact_iff emits]
    split at value <;> omega

def busyUes : Nat → EpUeDetails := fun _ => ⟨0, 1, 0, 0, 0⟩

theorem reported_busyUes (n : UInt32) : (reported n n busyUes).length = n.toNat := by
  have all : ∀ ue ∈ (List.range' 0 n.toNat).map busyUes, decide (ue.rnti ≠ 0) = true := by
    intro ue hue
    obtain ⟨i, -, rfl⟩ := List.mem_map.mp hue
    rfl
  rw [reported, withRnti, Nat.min_self, List.filter_eq_self.mpr all, List.length_map,
    List.length_range']

theorem reportLength_busyUes : reportLength 2849 2849 (some busyUes) = 65554 := by
  rw [reportLength, reported_busyUes]
  rfl

/-- 65554 bytes are reported for 2849 UEs, and a length of 18 is stored. -/
theorem busyUes_not_lengthExact :
    ¬ LengthExact .little 0 (Mem.ofBytes [])
      ((epfTriggerUerepRep .little (some 0) 66000 ⟨1, 2, 3⟩ 2849 2849 (some busyUes)).run
        (Mem.ofBytes [])) :=
  report_not_lengthExact reportLength_busyUes (by decide) (by decide) (by decide)

end Report

end Emproto
