import Mathlib.Data.Nat.ModEq
import Mathlib.Tactic.Ring

/-! Fixed-width machine words as byte strings in either byte order.
A word type is described once by `Word`; the host-to-network conversions are
defined through the bytes a host of the given order keeps in memory. -/

namespace Emproto

inductive ByteOrder
  | little
  | big
deriving DecidableEq, Repr

def littleBytes : (n : Nat) → Nat → List UInt8
  | 0, _ => []
  | n + 1, v => UInt8.ofNat v :: littleBytes n (v / 256)

def ofLittleBytes : List UInt8 → Nat
  | [] => 0
  | b :: bs => b.toNat + 256 * ofLittleBytes bs

@[simp] theorem littleBytes_length (n v : Nat) : (littleBytes n v).length = n := by
  induction n generalizing v with
  | zero => rfl
  | succ n ih => simp [littleBytes, ih]

theorem ofLittleBytes_littleBytes (n v : Nat) :
    ofLittleBytes (littleBytes n v) = v % 256 ^ n := by
  induction n generalizing v with
  | zero => simp [littleBytes, ofLittleBytes, Nat.mod_one]
  | succ n ih =>
    rw [littleBytes, ofLittleBytes, ih, pow_succ', Nat.mod_mul]
    simp

theorem ofLittleBytes_lt (bs : List UInt8) : ofLittleBytes bs < 256 ^ bs.length := by
  induction bs with
  | nil => simp [ofLittleBytes]
  | cons b bs ih =>
    have hb := b.toNat_lt
    rw [ofLittleBytes, List.length_cons, pow_succ]
    omega

theorem littleBytes_ofLittleBytes (bs : List UInt8) :
    littleBytes bs.length (ofLittleBytes bs) = bs := by
  induction bs with
  | nil => rfl
  | cons b bs ih =>
    have hb := b.toNat_lt
    have low : UInt8.ofNat (b.toNat + 256 * ofLittleBytes bs) = b := by
      apply UInt8.toNat_inj.mp
      simp only [UInt8.toNat_ofNat']
      omega
    have high : (b.toNat + 256 * ofLittleBytes bs) / 256 = ofLittleBytes bs := by omega
    rw [List.length_cons, ofLittleBytes, littleBytes, low, high, ih]

namespace ByteOrder

def bytes : ByteOrder → Nat → Nat → List UInt8
  | little, n, v => littleBytes n v
  | big, n, v => (littleBytes n v).reverse

def value : ByteOrder → List UInt8 → Nat
  | little, bs => ofLittleBytes bs
  | big, bs => ofLittleBytes bs.reverse

@[simp] theorem bytes_length (o : ByteOrder) (n v : Nat) : (o.bytes n v).length = n := by
  cases o <;> simp [bytes]

theorem value_bytes (o : ByteOrder) (n v : Nat) (h : v < 256 ^ n) :
    o.value (o.bytes n v) = v := by
  cases o <;> simp [bytes, value, ofLittleBytes_littleBytes, Nat.mod_eq_of_lt h]

theorem bytes_value (o : ByteOrder) (bs : List UInt8) : o.bytes bs.length (o.value bs) = bs := by
  cases o with
  | little => exact littleBytes_ofLittleBytes bs
  | big =>
    have h := littleBytes_ofLittleBytes bs.reverse
    rw [List.length_reverse] at h
    rw [bytes, value, h, List.reverse_reverse]

theorem value_lt (o : ByteOrder) (bs : List UInt8) : o.value bs < 256 ^ bs.length := by
  cases o with
  | little => exact ofLittleBytes_lt bs
  | big => simpa [value] using ofLittleBytes_lt bs.reverse

end ByteOrder

/-- An unsigned integer type of a whole number of bytes. -/
class Word (W : Type) where
  width : Nat
  toNat : W → Nat
  ofNat : Nat → W
  toNat_lt : ∀ w, toNat w < 256 ^ width
  ofNat_toNat : ∀ w, ofNat (toNat w) = w
  toNat_ofNat : ∀ v, v < 256 ^ width → toNat (ofNat v) = v

instance : Word UInt8 where
  width := 1
  toNat := UInt8.toNat
  ofNat := UInt8.ofNat
  toNat_lt w := w.toNat_lt
  ofNat_toNat w := UInt8.ofNat_toNat
  toNat_ofNat v h := by simpa using h

instance : Word UInt16 where
  width := 2
  toNat := UInt16.toNat
  ofNat := UInt16.ofNat
  toNat_lt w := w.toNat_lt
  ofNat_toNat w := UInt16.ofNat_toNat
  toNat_ofNat v h := by simpa using h

instance : Word UInt32 where
  width := 4
  toNat := UInt32.toNat
  ofNat := UInt32.ofNat
  toNat_lt w := w.toNat_lt
  ofNat_toNat w := UInt32.ofNat_toNat
  toNat_ofNat v h := by simpa using h

instance : Word UInt64 where
  width := 8
  toNat := UInt64.toNat
  ofNat := UInt64.ofNat
  toNat_lt w := w.toNat_lt
  ofNat_toNat w := UInt64.ofNat_toNat
  toNat_ofNat v h := by simpa using h

namespace Word
variable {W : Type} [Word W]

def bytes (o : ByteOrder) (w : W) : List UInt8 := o.bytes (width W) (toNat w)

def ofBytes (o : ByteOrder) (bs : List UInt8) : W := ofNat (o.value bs)

@[simp] theorem bytes_length (o : ByteOrder) (w : W) : (bytes o w).length = width W := by
  simp [bytes]

@[simp] theorem ofBytes_bytes (o : ByteOrder) (w : W) : ofBytes o (bytes o w) = w := by
  rw [ofBytes, bytes, o.value_bytes _ _ (toNat_lt w), ofNat_toNat]

theorem bytes_ofBytes (o : ByteOrder) (bs : List UInt8) (h : bs.length = width W) :
    bytes o (ofBytes o bs : W) = bs := by
  have hv := o.value_lt bs
  rw [h] at hv
  rw [bytes, ofBytes, toNat_ofNat _ hv, ← h, o.bytes_value]

end Word

/-- Host-to-network conversion: the word whose bytes in host memory are the
big-endian bytes of the argument. -/
def hton {W : Type} [Word W] (host : ByteOrder) (w : W) : W :=
  Word.ofBytes host (Word.bytes .big w)

def ntoh {W : Type} [Word W] (host : ByteOrder) (w : W) : W :=
  Word.ofBytes .big (Word.bytes host w)

section
variable {W : Type} [Word W]

@[simp] theorem bytes_hton (host : ByteOrder) (w : W) :
    Word.bytes host (hton host w) = Word.bytes .big w :=
  Word.bytes_ofBytes host _ (Word.bytes_length .big w)

theorem ntoh_ofBytes (host : ByteOrder) (bs : List UInt8) (h : bs.length = Word.width W) :
    ntoh host (Word.ofBytes host bs : W) = Word.ofBytes .big bs := by
  rw [ntoh, Word.bytes_ofBytes host bs h]

@[simp] theorem ntoh_hton (host : ByteOrder) (w : W) : ntoh host (hton host w) = w := by
  rw [hton, ntoh_ofBytes host _ (Word.bytes_length .big w), Word.ofBytes_bytes]

@[simp] theorem hton_ntoh (host : ByteOrder) (w : W) : hton host (ntoh host w) = w := by
  rw [hton, ntoh, Word.bytes_ofBytes .big _ (Word.bytes_length host w), Word.ofBytes_bytes]

@[simp] theorem hton_big (w : W) : hton .big w = w := Word.ofBytes_bytes .big w

@[simp] theorem ntoh_big (w : W) : ntoh .big w = w := Word.ofBytes_bytes .big w

theorem bytes_uint8 (o : ByteOrder) (b : UInt8) : Word.bytes o b = [b] := by
  cases o <;> simp [Word.bytes, ByteOrder.bytes, littleBytes, Word.width, Word.toNat]

example : hton .little (0x1234 : UInt16) = 0x3412 := by decide

end

abbrev htons (host : ByteOrder) (w : UInt16) : UInt16 := hton host w
abbrev ntohs (host : ByteOrder) (w : UInt16) : UInt16 := ntoh host w
abbrev htonl (host : ByteOrder) (w : UInt32) : UInt32 := hton host w
abbrev ntohl (host : ByteOrder) (w : UInt32) : UInt32 := ntoh host w
abbrev htobe64 (host : ByteOrder) (w : UInt64) : UInt64 := hton host w
abbrev be64toh (host : ByteOrder) (w : UInt64) : UInt64 := ntoh host w

end Emproto
