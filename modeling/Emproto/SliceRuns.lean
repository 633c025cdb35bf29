import Emproto.RanSliceRoundTrip
import Emproto.SliceOrder
import Emproto.UeTableRuns

/-! The slice record of a caller over whole runs of received slice messages, and slices that
are passed on from node to node. -/

namespace Emproto

section Last
variable {σ ι β : Type} {f : σ → ι → σ} {p : ι → Prop} [DecidablePred p] {g : ι → β}

end Last

theorem overlay_usersView (src det : EpRanSliceDet) :
    (overlay src det).usersView = if 0 < src.nofUsers then src.usersView else det.usersView := by
  by_cases some : 0 < src.nofUsers
  · rw [if_pos some, EpRanSliceDet.usersView, EpRanSliceDet.usersView, overlay, if_pos some]
    refine Prod.ext rfl (List.map_congr_left fun i hi => ?_)
    exact if_pos (List.mem_range.mp hi)
  · have none : src.nofUsers.toNat = 0 := by simpa [UInt32.lt_iff_toNat_lt] using some
    simp [EpRanSliceDet.usersView, overlay, some, none]

structure SliceSent where
  kind : SliceMsg
  sliceId : UInt64
  det : EpRanSliceDet

/-- The message is formatted into a buffer with room for it, and arrives as `r`. -/
def SliceSent.Arrives (x : SliceSent) (r : Arrival) : Prop :=
  x.det.nofUsers ≤ epRanUsersMax ∧
  ∃ (host : ByteOrder) (b : Nat) (size : UInt32) (ids : EpHdrId) (m : Mem) (es : Trace),
    sliceMessageLength x.det ≤ size.toNat ∧
    (x.kind.format host (some b) size ids x.sliceId (some x.det)).run m =
      some ((r.size.toNat : Int), es) ∧
    (m.patch es.stores).Received b r.mem r.b r.size.toNat

/-- The slice `src` in canonical form fills the body of `r`. -/
def Carries (id : UInt64) (src : EpRanSliceDet) (r : Arrival) : Prop :=
  ∃ h : src.nofUsers.toNat ≤ 32,
    r.mem.Holds (r.b + 27) (Word.bytes .big id ++ encode (sliceTokens src h)) ∧
    r.size.toNat = 27 + (8 + (encode (sliceTokens src h)).length)

section Arrive
variable {x : SliceSent} {r : Arrival} {id : UInt64} {src : EpRanSliceDet}

theorem SliceSent.Arrives.carries (h : x.Arrives r) : Carries x.sliceId x.det r := by
  obtain ⟨bounded, host, b, size, ids, m, es, room, hrun, received⟩ := h
  have small : x.det.nofUsers.toNat ≤ 32 := UInt32.le_iff_toNat_le.mp bounded
  obtain ⟨ws, emits, holds, -⟩ := SliceMsg.format_emits x.kind host b ids x.sliceId small room
  obtain ⟨es', hrun', rfl⟩ := emits m
  obtain ⟨length, rfl⟩ := Prod.mk.inj (Option.some.inj (hrun.symm.trans hrun'))
  have total := SliceMsg.sliceMessageLength_eq small
  refine ⟨small, (holds m).received received ?_, by omega⟩
  rw [List.length_append, Word.bytes_length]
  change 27 + (8 + _) ≤ _
  omega

theorem Carries.parsed (h : Carries id src r) (k : SliceMsg) (host : ByteOrder) (old : UInt64)
    (det : EpRanSliceDet) :
    (k.parse host (some r.b) r.size (some old) (some det)).result r.mem =
      some (epSuccess, some id, some (overlay src det)) := by
  obtain ⟨small, held, length⟩ := h
  have size : (r.size - UInt32.ofNat 27).toNat = 8 + (encode (sliceTokens src small)).length := by
    rw [uint32_sub_toNat (by omega)]
    omega
  obtain ⟨es, hrun⟩ : ∃ es, (parseSlice host k.checked (r.b + 27) (r.size - UInt32.ofNat 27)
      (some old) (some det)).run r.mem = some ((0, some id, some (overlay src det)), es) :=
    run_parseSlice_tokens held size old det
  rw [SliceMsg.parse_eq]
  exact Code.result_of r.mem hrun

end Arrive

/-- A node parses what arrived as `r` into an empty record and formats what it found there, which
arrives as `r'`. -/
def SliceMsg.Passes (k : SliceMsg) (r r' : Arrival) : Prop :=
  ∃ host id det, (k.parse host (some r.b) r.size (some 0) (some .zero)).result r.mem =
      some (epSuccess, some id, some det) ∧ SliceSent.Arrives ⟨k, id, det⟩ r'

section Relay
variable {src src' : EpRanSliceDet}

theorem rntiBytes_congr {users users' : Nat → UInt16} {n i : Nat}
    (same : ∀ j, i ≤ j → j < i + n → users j = users' j) :
    rntiBytes users n i = rntiBytes users' n i := by
  induction n generalizing i with
  | zero => rfl
  | succ n ih =>
    rw [rntiBytes, rntiBytes, same i le_rfl (by omega),
      ih fun j low high => same j (by omega) (by omega)]

theorem sliceTokens_congr (same : src.view = src'.view) (h : src.nofUsers.toNat ≤ 32)
    (h' : src'.nofUsers.toNat ≤ 32) : sliceTokens src h = sliceTokens src' h' := by
  obtain ⟨nofUsers, users, ⟨usched, rbgs⟩⟩ := src
  obtain ⟨_, users', ⟨_, _⟩⟩ := src'
  simp only [EpRanSliceDet.view, EpRanSliceDet.usersView, Prod.mk.injEq] at same
  obtain ⟨rfl, rfl, rfl, same⟩ := same
  have bytes : rntiBytes users nofUsers.toNat 0 = rntiBytes users' nofUsers.toNat 0 := by
    refine rntiBytes_congr fun j _ inside => ?_
    exact List.map_inj_left.mp same j (List.mem_range.mpr (by omega))
  have token : usersToken ⟨nofUsers, users, usched, rbgs⟩ h =
      usersToken ⟨nofUsers, users', usched, rbgs⟩ h' := by
    simp only [usersToken, bytes]
  rw [sliceTokens, sliceTokens, usersTokens, usersTokens, token]

theorem overlay_zero_view : (overlay src .zero).view = src.view := by
  rw [EpRanSliceDet.view, EpRanSliceDet.view, overlay_usersView]
  refine Prod.ext rfl (Prod.ext ?_ ?_)
  · change (if src.l2.usched = 0 then 0 else src.l2.usched) = src.l2.usched
    split
    · exact (‹src.l2.usched = 0›).symm
    · rfl
  · change (if 0 < src.nofUsers then src.usersView else EpRanSliceDet.zero.usersView) = _
    split
    · rfl
    · have none : src.nofUsers = 0 := UInt32.le_zero_iff.mp (UInt32.not_lt.mp ‹_›)
      simp [EpRanSliceDet.usersView, EpRanSliceDet.zero, none]

section Nodes
variable {k : SliceMsg} {r r' : Arrival} {id : UInt64}

/-- What a node finds in a slice in canonical form it passes on in the same form. -/
theorem Carries.passes (h : Carries id src r) (hop : k.Passes r r') : Carries id src r' := by
  obtain ⟨host, id', det, found, arrives⟩ := hop
  rw [h.parsed k host, Option.some_inj] at found
  simp only [Prod.mk.injEq, Option.some.injEq] at found
  obtain ⟨-, rfl, rfl⟩ := found
  obtain ⟨small, held, length⟩ := arrives.carries
  obtain ⟨small', -⟩ := h
  have tokens := sliceTokens_congr overlay_zero_view small small'
  dsimp only at held length
  rw [tokens] at held length
  exact ⟨small', held, length⟩

theorem Carries.relayed (h : Carries id src r) (hops : Relation.ReflTransGen k.Passes r r') :
    Carries id src r' := by
  induction hops with
  | refl => exact h
  | tail _ hop ih => exact ih.passes hop

theorem Carries.same (h : Carries id src r) (h' : Carries id src r') :
    r'.size = r.size ∧
      ∀ i, 27 ≤ i → i < r.size.toNat → r'.mem (r'.b + i) = r.mem (r.b + i) := by
  obtain ⟨small, held, length⟩ := h
  obtain ⟨_, held', length'⟩ := h'
  refine ⟨UInt32.toNat_inj.mp (length'.trans length.symm), fun i low high => ?_⟩
  have same := held'.same held (i := i - 27) (by
    rw [List.length_append, Word.bytes_length]
    change i - 27 < 8 + _
    omega)
  rwa [Nat.add_assoc, Nat.add_assoc, show 27 + (i - 27) = i by omega] at same

theorem parsed_whole (whole : 35 ≤ r.size.toNat) (k : SliceMsg) :
    ∃ id det, det.nofUsers ≤ epRanUsersMax ∧
      ∀ host, (k.parse host (some r.b) r.size (some 0) (some .zero)).result r.mem =
        some (epSuccess, some id, some det) := by
  have size : 8 ≤ (r.size - UInt32.ofNat 27).toNat := by
    rw [uint32_sub_toNat (by omega)]
    omega
  set os := (r.mem.walker false (r.b + 27 + (r.size - UInt32.ofNat 27).toNat)).walk (r.b + 27 + 8)
  refine ⟨r.mem.be (r.b + 27), runSteps (sliceStep r.mem) os .zero, ?_, fun host => ?_⟩
  · by_cases users : ∃ c ∈ os, IsType r.mem .rntiReport c
    · obtain ⟨c, mem, picked⟩ := users
      exact (lastReadings_runSteps r.mem os .zero).bounded c mem picked
    · push Not at users
      have kept := congrArg Prod.fst ((sliceStep_users r.mem).kept users .zero)
      exact le_of_eq_of_le kept (by decide)
  · rw [SliceMsg.parse_eq]
    exact Code.result_of r.mem (run_parseSlice r.mem size (some 0) .zero)

end Nodes

end Relay

/-- One hop makes a slice message canonical, and no further hop changes it: whatever the message
holds, if it is long enough for a slice id it can be passed on, and over any number of nodes with
room for it the last one receives, behind the headers, the very bytes that the first one sent, and
finds the slice that the first one found. -/
theorem sliceRelay_canonical (k : SliceMsg) (r : Arrival) (whole : 35 ≤ r.size.toNat) :
    (∃ r₁, k.Passes r r₁) ∧
    ∀ r₁ rₙ, k.Passes r r₁ → Relation.ReflTransGen k.Passes r₁ rₙ →
      rₙ.size = r₁.size ∧
      (∀ i, 27 ≤ i → i < r₁.size.toNat → rₙ.mem (rₙ.b + i) = r₁.mem (r₁.b + i)) ∧
      ∀ host, ∃ id det det',
        (k.parse host (some r.b) r.size (some 0) (some .zero)).result r.mem =
          some (epSuccess, some id, some det) ∧
        (k.parse host (some rₙ.b) rₙ.size (some 0) (some .zero)).result rₙ.mem =
          some (epSuccess, some id, some det') ∧
        det'.view = det.view := by
  obtain ⟨id, det, bounded, parsed⟩ := parsed_whole whole k
  have small : det.nofUsers.toNat ≤ 32 := UInt32.le_iff_toNat_le.mp bounded
  refine ⟨?_, fun r₁ rₙ first rest => ?_⟩
  · have bounds := SliceMsg.sliceMessageLength_bounds small
    have room : sliceMessageLength det ≤ (128 : UInt32).toNat := Nat.le_trans bounds.2 (by decide)
    obtain ⟨ws, emits, -⟩ := SliceMsg.format_emits k .little 0 ⟨0, 0, 0⟩ id small room
    obtain ⟨es, hrun, -⟩ := emits fun _ => 0
    have length : (UInt32.ofNat (sliceMessageLength det)).toNat = sliceMessageLength det :=
      uint32_toNat_ofNat (by omega)
    refine ⟨⟨Mem.patch (fun _ => 0) es.stores, 0, UInt32.ofNat (sliceMessageLength det)⟩, .little,
      id, det, parsed .little, bounded, .little, 0, 128, ⟨0, 0, 0⟩, fun _ => 0, es, room, ?_,
      fun _ _ => rfl⟩
    rw [hrun, length]
  · obtain ⟨host, id', det', found, arrives⟩ := first
    have same := (parsed host).symm.trans found
    simp only [Option.some.injEq, Prod.mk.injEq, true_and] at same
    obtain ⟨rfl, rfl⟩ := same
    have start := arrives.carries
    have last := start.relayed rest
    obtain ⟨size, bytes⟩ := start.same last
    exact ⟨size, bytes, fun host => ⟨id, det, _, parsed host, last.parsed k host 0 .zero,
      overlay_zero_view⟩⟩

def shuffledSlice : Arrival where
  mem := Mem.ofBytes (List.replicate 34 0 ++ [7, 6, 4, 0, 2, 0, 61, 0x77, 0x77, 0, 0, 6, 2, 0, 2,
    0, 5])
  b := 0
  size := 51

theorem sliceRelay_canonical_shuffled :
    35 ≤ shuffledSlice.size.toNat ∧ ∃ r₁, SliceMsg.add.Passes shuffledSlice r₁ ∧
      ∀ rₙ, Relation.ReflTransGen SliceMsg.add.Passes r₁ rₙ → rₙ.size = r₁.size := by
  obtain ⟨⟨r₁, first⟩, all⟩ := sliceRelay_canonical .add shuffledSlice (by decide)
  exact ⟨by decide, r₁, first, fun rₙ rest => (all r₁ rₙ first rest).1⟩

end Emproto
