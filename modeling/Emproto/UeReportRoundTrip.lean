import Emproto.UeTable
import Emproto.TokenBytes

/-! UE reports from formatter to parser. The formatter encodes the entries with an
RNTI; the parser, which is given the size of the whole message for its body, goes
on with the 27 bytes behind the message and never looks at the state. -/

namespace Emproto

def withRnti (ues : Nat → EpUeDetails) (i k : Nat) : List EpUeDetails :=
  ((List.range' i k).map ues).filter fun ue => ue.rnti ≠ 0

/-- The UEs that a report is about. -/
def reported (nofUes maxUes : UInt32) (ues : Nat → EpUeDetails) : List EpUeDetails :=
  withRnti ues 0 (min nofUes.toNat maxUes.toNat)

def occupied (cap : Nat) (table : Int → EpUeDetails) : List EpUeDetails :=
  withRnti (fun i => table i) 0 cap

def ueToken (ue : EpUeDetails) : Token where
  type := EpTLVType.ueRepId.code
  body := Word.bytes .big ue.rnti ++ (Word.bytes .big ue.plmn ++ (Word.bytes .big ue.imsi ++
    (Word.bytes .big ue.tmsi ++ [ue.state])))
  short := by simp [Word.width]

@[simp] theorem ueToken_length (ue : EpUeDetails) : (ueToken ue).bytes.length = 23 := by
  simp [Token.bytes, ueToken, Word.width]

@[simp] theorem encode_ueTokens_length (us : List EpUeDetails) :
    (encode (us.map ueToken)).length = 23 * us.length := by
  induction us with
  | nil => rfl
  | cons u us ih =>
    rw [List.map_cons, encode_cons, List.length_append, ih, ueToken_length, List.length_cons]
    omega

theorem withRnti_skip {ues : Nat → EpUeDetails} {i : Nat} (h : (ues i).rnti = 0) (k : Nat) :
    withRnti ues i (k + 1) = withRnti ues (i + 1) k := by
  simp [withRnti, List.range'_succ, h]

theorem withRnti_take {ues : Nat → EpUeDetails} {i : Nat} (h : (ues i).rnti ≠ 0) (k : Nat) :
    withRnti ues i (k + 1) = ues i :: withRnti ues (i + 1) k := by
  simp [withRnti, List.range'_succ, h]

section Format
variable {host : ByteOrder} {ues : Nat → EpUeDetails}

/-! One step of the formatting loop. -/

section Step
variable {fin k i c : Nat} {s r : Int} {ws : List (Nat × UInt8)}

theorem uerepFill_skip (skip : (ues i).rnti = 0)
    (rest : Emits (uerepFill host fin (some ues) k (i + 1) c s) r ws) :
    Emits (uerepFill host fin (some ues) (k + 1) i c s) r ws := by
  rw [uerepFill]
  refine Emits.of_eq ((Emits.note rfl).bind ?_) (List.nil_append ws)
  simp only [skip, if_true]
  exact rest

theorem uerepFill_full (take : (ues i).rnti ≠ 0) (full : c + 19 > fin) :
    Emits (uerepFill host fin (some ues) (k + 1) i c s) (-1) [] := by
  rw [uerepFill]
  refine Emits.of_eq ((Emits.note rfl).bind ?_) (List.nil_append _)
  simp only [take, if_false, full, if_true]
  exact .pure _

theorem uerepFill_store (take : (ues i).rnti ≠ 0) (room : c + 19 ≤ fin)
    (rest : Emits (uerepFill host fin (some ues) k (i + 1) (c + 23) (toInt32 (s + 23))) r ws) :
    Emits (uerepFill host fin (some ues) (k + 1) i c s) r
      (chunk c (ueToken (ues i)).bytes ++ ws) := by
  rw [uerepFill]
  refine Emits.of_eq ((Emits.note rfl).bind ?_) (List.nil_append _)
  simp only [take, if_false]
  rw [if_neg (by omega)]
  refine Emits.of_eq (Emits.store.bind <| Emits.store.bind <| Emits.store.bind <|
    Emits.store.bind <| Emits.store.bind <| Emits.store.bind <| Emits.store.bind rest) ?_
  simp [Token.bytes, tokenBytes, ueToken, chunk_append, Word.width, bytes_uint8, Nat.add_assoc]

end Step

theorem uerepFill_emits {fin k i c s : Nat}
    (fits : c + 23 * (withRnti ues i k).length ≤ fin)
    (bound : s + 23 * (withRnti ues i k).length < 2147483648) :
    Emits (uerepFill host fin (some ues) k i c s)
      ((s + 23 * (withRnti ues i k).length : Nat) : Int)
      (chunk c (encode ((withRnti ues i k).map ueToken))) := by
  induction k generalizing i c s with
  | zero => exact .pure _
  | succ k ih =>
    by_cases skip : (ues i).rnti = 0
    · rw [withRnti_skip skip] at fits bound ⊢
      exact uerepFill_skip skip (ih fits bound)
    · rw [withRnti_take skip] at fits bound ⊢
      rw [List.length_cons] at fits bound ⊢
      have next : toInt32 ((s : Int) + 23) = ((s + 23 : Nat) : Int) := by
        rw [toInt32_of_lt (by omega) (by omega)]
        rfl
      have rest : Emits (uerepFill host fin (some ues) k (i + 1) (c + 23) (toInt32 (s + 23)))
          ((s + 23 * ((withRnti ues (i + 1) k).length + 1) : Nat) : Int)
          (chunk (c + 23) (encode ((withRnti ues (i + 1) k).map ueToken))) := by
        rw [next, show s + 23 * ((withRnti ues (i + 1) k).length + 1) =
          s + 23 + 23 * (withRnti ues (i + 1) k).length by omega]
        exact ih (by omega) (by omega)
      refine Emits.of_eq (uerepFill_store skip (by omega) rest) ?_
      rw [List.map_cons, encode_cons, chunk_append, ueToken_length]

theorem epfTriggerUerepRep_emits (host : ByteOrder) (b : Nat) {size nofUes maxUes : UInt32}
    (ids : EpHdrId)
    (fits : 27 + 23 * (reported nofUes maxUes ues).length ≤ size.toNat)
    (bound : 27 + 23 * (reported nofUes maxUes ues).length < 2147483648) :
    ∃ ws, Emits (epfTriggerUerepRep host (some b) size ids nofUes maxUes (some ues))
        ((27 + 23 * (reported nofUes maxUes ues).length : Nat) : Int) ws ∧
      ∀ m : Mem,
        (m.patch ws).Holds (b + 27) (encode ((reported nofUes maxUes ues).map ueToken)) := by
  have space : (size - UInt32.ofNat 27).toNat = size.toNat - 27 := uint32_sub_toNat (by omega)
  have body : Emits (epfUerepRep host nofUes maxUes (some ues) (b + 27) (size - UInt32.ofNat 27))
      ((0 + 23 * (reported nofUes maxUes ues).length : Nat) : Int)
      (chunk (b + 27) (encode ((reported nofUes maxUes ues).map ueToken))) := by
    have room : b + 27 + 23 * (reported nofUes maxUes ues).length ≤
        b + 27 + (size - UInt32.ofNat 27).toNat := by omega
    have small : 0 + 23 * (reported nofUes maxUes ues).length < 2147483648 := by omega
    exact uerepFill_emits room small
  rw [Nat.zero_add] at body
  obtain ⟨ws, emits, holds, -⟩ := formatMessage_body (by omega) body (Lays.chunk _ _)
    (encode_ueTokens_length _) bound
  refine ⟨ws, ?_, holds⟩
  rw [epfTriggerUerepRep, if_neg (by simp), if_neg (by simp)]
  exact emits

end Format

def EpUeDetails.binding (ue : EpUeDetails) : UInt16 × UeIdentity := (ue.rnti, ue.identity)

section Parse
variable {m : Mem} {c : Nat}

theorem token_of_ueToken {ue : EpUeDetails} (h : m.Holds c (ueToken ue).bytes) :
    IsUeToken m c ∧ tokenRnti m c = ue.rnti ∧ tokenIdentity m c = ue.identity := by
  obtain ⟨type, -, body⟩ := Token.holds_bytes.mp h
  simp only [ueToken, Mem.holds_append, Word.bytes_length, Word.width, Nat.add_assoc,
    Nat.reduceAdd] at body
  obtain ⟨rnti, plmn, imsi, tmsi, -⟩ := body
  have rnti : m.be (c + 4) = ue.rnti := Mem.word_of_holds rnti
  have plmn : m.be (c + 6) = ue.plmn := Mem.word_of_holds plmn
  have imsi : m.be (c + 10) = ue.imsi := Mem.word_of_holds imsi
  have tmsi : m.be (c + 18) = ue.tmsi := Mem.word_of_holds tmsi
  refine ⟨type, rnti, ?_⟩
  rw [tokenIdentity, plmn, imsi, tmsi]
  rfl

theorem bindings_starts {us : List EpUeDetails} (h : m.Holds c (encode (us.map ueToken))) :
    bindings m (starts c (us.map ueToken)) = us.map EpUeDetails.binding := by
  rw [bindings, filterMap_starts (g := some ∘ EpUeDetails.binding) (fun u _ c held => ?_) h,
    List.filterMap_eq_map]
  have token := token_of_ueToken held
  rw [if_pos token.1, token.2.1, token.2.2]
  rfl

theorem uerepStep_state (maxUes : UInt32) (s : (Int → EpUeDetails) × UInt32) (i : Int) :
    ((uerepStep m maxUes c s).1 i).state = (s.1 i).state := by
  unfold uerepStep
  split
  · simp only [Function.update_apply]
    split
    · rename_i h
      rw [h]
    · rfl
  · rfl

theorem runSteps_uerepStep_state (maxUes : UInt32) (os : List Nat)
    (s : (Int → EpUeDetails) × UInt32) (i : Int) :
    ((runSteps (uerepStep m maxUes) os s).1 i).state = (s.1 i).state :=
  runSteps_preserves (P := fun s' => (s'.1 i).state = (s.1 i).state) _
    (fun _ s' h => (uerepStep_state maxUes s' i).trans h) os rfl

end Parse

theorem occupied_binding (cap : Nat) (table : Int → EpUeDetails) :
    (occupied cap table).map EpUeDetails.binding = (ueTable cap table).entries 0 := by
  rw [occupied, withRnti, SlotTable.entries, List.range_eq_range', ueTable]
  simp only [List.filter_map, List.map_map, Function.comp_def]
  rfl

theorem eq_iff_binding {us vs : List EpUeDetails} (h : ∀ u ∈ us, u.state = 0) :
    us = vs ↔ (∀ v ∈ vs, v.state = 0) ∧
      us.map EpUeDetails.binding = vs.map EpUeDetails.binding := by
  apply Iff.intro
  · intro same
    subst same
    exact ⟨h, rfl⟩
  · rintro ⟨h', same⟩
    induction us generalizing vs with
    | nil => simpa using same
    | cons u us ih =>
      cases vs with
      | nil => simp at same
      | cons v vs =>
        rw [List.map_cons, List.map_cons, List.cons.injEq] at same
        rw [List.forall_mem_cons] at h h'
        have head : u = v := by
          cases u
          cases v
          simp_all [EpUeDetails.binding, EpUeDetails.identity]
        rw [head, ih h.2 h'.2 same.2]

def EpUeDetails.zero : EpUeDetails := ⟨0, 0, 0, 0, 0⟩

/-- The run succeeds and leaves exactly `us` in the first `cap` slots, in order. -/
def Restores (run : Option ((Int × Option (Int → EpUeDetails) × Option UInt32) × Trace))
    (cap : Nat) (us : List EpUeDetails) : Prop :=
  ∃ table nofUes es, run = some ((epSuccess, some table, nofUes), es) ∧ occupied cap table = us

section Restore
variable {m : Mem} {b n : Nat} {us : List EpUeDetails}

/-- The stores for the tokens found in the 27 bytes behind the message. -/
def trailing (m : Mem) (b n : Nat) : List (UInt16 × UeIdentity) :=
  bindings m ((m.walker false (b + n + 27)).walk (b + n))

theorem bindings_received (h : m.Holds (b + 27) (encode (us.map ueToken)))
    (hn : n = 27 + 23 * us.length) :
    bindings m ((m.walker false (b + 24 + 3 + n)).walk (b + 24 + 3)) =
      us.map EpUeDetails.binding ++ trailing m b n := by
  have len := encode_ueTokens_length us
  have end' : b + 27 + (encode (us.map ueToken)).length = b + n := by omega
  rw [show b + 24 + 3 + n = b + n + 27 by omega, show b + 24 + 3 = b + 27 by omega,
    walk_encode h (by rw [if_neg (by decide)]; omega), bindings_append, bindings_starts h, end']
  rfl

theorem compact_vacant {cap : Nat} {table : Int → EpUeDetails}
    (vacant : ∀ i < cap, (table (i : Nat)).rnti = 0) : (ueTable cap table).Compact 0 [] where
  fits := Nat.zero_le _
  used i h := absurd h (Nat.not_lt_zero i)
  unused i _ hi := vacant i hi
  nodup := List.nodup_nil
  proper := List.not_mem_nil

/-- A report of `us` parsed into a zeroed table. -/
theorem restores_iff {host : ByteOrder} {nofUes cap : UInt32} {table : Int → EpUeDetails}
    (h : m.Holds (b + 27) (encode (us.map ueToken))) (hn : n = 27 + 23 * us.length)
    (short : n ≤ 65535) (distinct : (us.map (·.rnti)).Nodup) (proper : ∀ u ∈ us, u.rnti ≠ 0)
    (fits : us.length ≤ cap.toNat) (zeroed : ∀ i < cap.toNat, table (i : Nat) = .zero) :
    Restores ((eppTriggerUerepRep host (some b) (UInt32.ofNat n) (some nofUes) cap
        (some table)).run m) cap.toNat us ↔
      (∀ u ∈ us, u.state = 0) ∧
      (∀ o ∈ trailing m b n, o.1 ≠ 0 → (∀ u ∈ us, u.rnti ≠ o.1) → us.length = cap.toNat) ∧
      ∀ u ∈ us, ∀ identity, (trailing m b n).reverse.lookup u.rnti = some identity →
        identity = u.identity := by
  have size : (UInt32.ofNat n).toNat = n := uint32_toNat_ofNat (by omega)
  have run := run_eppUerepRep host m (b + 24 + 3) (UInt32.ofNat n) nofUes cap table
  rw [size] at run
  set os := (m.walker false (b + 24 + 3 + n)).walk (b + 24 + 3)
  set final := (runSteps (uerepStep m cap) os (table, nofUes)).1
  have unstated : ∀ u ∈ occupied cap.toNat final, u.state = 0 := by
    intro u hu
    obtain ⟨i, hi, rfl⟩ := List.mem_map.mp (List.mem_of_mem_filter hu)
    rw [List.mem_range'_1, Nat.zero_add] at hi
    calc
      _ = (table i).state := runSteps_uerepStep_state cap os (table, nofUes) i
      _ = 0 := congrArg EpUeDetails.state (zeroed i hi.2)
  have keys : (us.map EpUeDetails.binding).map Prod.fst = us.map (·.rnti) := by
    rw [List.map_map]
    rfl
  have proper' : (0 : UInt16) ∉ (us.map EpUeDetails.binding).map Prod.fst := by
    rw [keys, List.mem_map]
    rintro ⟨u, hu, h0⟩
    exact proper u hu h0
  have vacant : ∀ i < cap.toNat, (table (i : Nat)).rnti = 0 := fun i hi =>
    congrArg EpUeDetails.rnti (zeroed i hi)
  obtain ⟨compact, listed⟩ := SlotTable.entries_puts_new (compact_vacant vacant)
    (keys ▸ distinct) proper' (by rwa [List.length_map])
  have entries : (ueTable cap.toNat final).entries 0 =
      (((ueTable cap.toNat table).puts 0 (us.map EpUeDetails.binding)).puts 0
        (trailing m b n)).entries 0 := by
    rw [ueTable_runSteps, bindings_received h hn, SlotTable.puts_append]
  have restored : Restores ((eppTriggerUerepRep host (some b) (UInt32.ofNat n) (some nofUes) cap
      (some table)).run m) cap.toNat us ↔ occupied cap.toNat final = us := by
    apply Iff.intro
    · rintro ⟨table', nofUes', es, hrun, hus⟩
      cases run.symm.trans hrun
      exact hus
    · exact fun hus => ⟨final, _, _, run, hus⟩
  rw [restored, eq_iff_binding unstated, occupied_binding, entries,
    SlotTable.entries_puts_iff compact listed, SlotTable.puts_cap, List.length_map, keys,
    List.forall_mem_map]
  refine and_congr_right fun _ => and_congr_left fun _ => forall₂_congr fun o _ => ?_
  refine forall_congr' fun _ => ?_
  rw [List.mem_map]
  push Not
  change ((∀ u ∈ us, u.rnti ≠ o.1) → cap.toNat ≤ us.length) ↔ _
  refine forall_congr' fun _ => ?_
  omega

end Restore

/-- A report that was formatted and received restores the UEs it is about exactly
if they are all in state zero and the 27 bytes behind the message, which the
parser walks too, name no new RNTI while there is a free slot and no other
identity last for a reported one. -/
theorem ueReport_restored_iff (host host' : ByteOrder) (b : Nat) (size : UInt32) (ids : EpHdrId)
    (nofUes maxUes : UInt32) (ues : Nat → EpUeDetails) (m : Mem)
    (distinct : ((reported nofUes maxUes ues).map (·.rnti)).Nodup)
    (room : 27 + 23 * (reported nofUes maxUes ues).length ≤ size.toNat)
    (short : 27 + 23 * (reported nofUes maxUes ues).length ≤ 65535) :
    ∃ (n : Nat) (es : Trace),
      (epfTriggerUerepRep host (some b) size ids nofUes maxUes (some ues)).run m =
        some ((n : Int), es) ∧
      ∀ (m' : Mem) (b' : Nat), (m.patch es.stores).Received b m' b' n →
        ∀ (nofUes' cap : UInt32) (table : Int → EpUeDetails),
        (reported nofUes maxUes ues).length ≤ cap.toNat →
        (∀ i < cap.toNat, table (i : Nat) = .zero) →
        (Restores ((eppTriggerUerepRep host' (some b') (UInt32.ofNat n) (some nofUes') cap
            (some table)).run m') cap.toNat (reported nofUes maxUes ues) ↔
          (∀ u ∈ reported nofUes maxUes ues, u.state = 0) ∧
          (∀ o ∈ trailing m' b' n, o.1 ≠ 0 →
            (∀ u ∈ reported nofUes maxUes ues, u.rnti ≠ o.1) →
            (reported nofUes maxUes ues).length = cap.toNat) ∧
          ∀ u ∈ reported nofUes maxUes ues, ∀ identity,
            (trailing m' b' n).reverse.lookup u.rnti = some identity → identity = u.identity) := by
  obtain ⟨ws, emits, holds⟩ := epfTriggerUerepRep_emits host b ids room (by omega)
  obtain ⟨es, hrun, stores⟩ := emits m
  refine ⟨_, es, hrun, fun m' b' received nofUes' cap table fits zeroed => ?_⟩
  have proper : ∀ u ∈ reported nofUes maxUes ues, u.rnti ≠ 0 := fun u hu => by
    simpa using (List.mem_filter.mp hu).2
  have body : m'.Holds (b' + 27) (encode ((reported nofUes maxUes ues).map ueToken)) :=
    (stores ▸ holds m).received received (by rw [encode_ueTokens_length])
  exact restores_iff body rfl short distinct proper fits zeroed

def oneUe (_ : Nat) : EpUeDetails := ⟨0x222f93, 61, 5, 6, 0⟩

theorem ueReport_restored_oneUe :
    ∃ (n : Nat) (es : Trace),
      (epfTriggerUerepRep .little (some 0) 64 ⟨1, 2, 3⟩ 1 1 (some oneUe)).run (fun _ => 0) =
        some ((n : Int), es) ∧
      ∀ (m' : Mem) (b' : Nat), (Mem.patch (fun _ => 0) es.stores).Received 0 m' b' n →
        trailing m' b' n = [] →
        Restores ((eppTriggerUerepRep .big (some b') (UInt32.ofNat n) (some 0) 1
          (some fun _ => .zero)).run m') (1 : UInt32).toNat (reported 1 1 oneUe) := by
  obtain ⟨n, es, hrun, restored⟩ := ueReport_restored_iff .little .big 0 64 ⟨1, 2, 3⟩ 1 1 oneUe
    (fun _ => 0) (by decide) (by decide) (by decide)
  refine ⟨n, es, hrun, fun m' b' received quiet => ?_⟩
  refine (restored m' b' received 0 1 _ (by decide) fun _ _ => rfl).mpr ⟨by decide, ?_, ?_⟩
  · simp [quiet]
  · simp [quiet]

def lostUe (_ : Nat) : EpUeDetails := ⟨0x222f93, 61, 5, 6, 1⟩

/-- The state of a disconnected UE does not arrive. -/
theorem ueReport_lostUe_not_restored :
    ∃ (n : Nat) (es : Trace),
      (epfTriggerUerepRep .little (some 0) 64 ⟨1, 2, 3⟩ 1 1 (some lostUe)).run (fun _ => 0) =
        some ((n : Int), es) ∧
      ¬ Restores ((eppTriggerUerepRep .little (some 0) (UInt32.ofNat n) (some 0) 1
          (some fun _ => .zero)).run (Mem.patch (fun _ => 0) es.stores)) (1 : UInt32).toNat
        (reported 1 1 lostUe) := by
  obtain ⟨ws, emits, holds⟩ :
      ∃ ws, Emits (epfTriggerUerepRep .little (some 0) 64 ⟨1, 2, 3⟩ 1 1 (some lostUe))
          ((27 + 23 * (reported 1 1 lostUe).length : Nat) : Int) ws ∧
        ∀ m : Mem, (m.patch ws).Holds (0 + 27) (encode ((reported 1 1 lostUe).map ueToken)) :=
    epfTriggerUerepRep_emits .little 0 ⟨1, 2, 3⟩ (by decide) (by decide)
  obtain ⟨es, hrun, stores⟩ := emits fun _ => 0
  refine ⟨_, es, hrun, fun restored => ?_⟩
  have := (restores_iff (stores ▸ holds _) rfl (by decide) (by decide) (by decide) (by decide)
    fun _ _ => rfl).mp restored
  exact absurd this.1 (by decide)

end Emproto
