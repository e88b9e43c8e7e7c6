import Mathlib

/-!
# Foundations - Byte blocks and fixed-width layouts

A block is a fixed number of bytes.  This module gives the access operations on
blocks that on-disk formats are built from: reading and overwriting a range of
bytes, and typed fields described by a {lit}`Layout`, a fixed-width codec that
carries its own round-trip proof.

Main results:

- Theorem {lit}`Bytes.slice_overwrite_same`: a range reads back as written.
- Theorem {lit}`Bytes.slice_overwrite_disjoint`: ranges that do not meet the
  written one are unchanged.
- Theorems {lit}`Bytes.read_write_same` and {lit}`Bytes.read_write_disjoint`:
  the same two laws for typed fields.
- Theorem {lit}`decodeLE_encodeLE`: little-endian numbers round-trip modulo the
  width.
-/

namespace Foundations

/-- A block of `n` bytes. -/
abbrev Bytes (n : Nat) := Fin n → UInt8

namespace Bytes

variable {n : Nat}

/-- The block of zeros. -/
def zero (n : Nat) : Bytes n := fun _ => 0

/-- The byte at offset `k`, zero beyond the end of the block. -/
def byteAt (b : Bytes n) (k : Nat) : UInt8 :=
  if h : k < n then b ⟨k, h⟩ else 0

/-- The `len` bytes from offset `off`. -/
def slice (b : Bytes n) (off len : Nat) : List UInt8 :=
  (List.range len).map fun k => b.byteAt (off + k)

/-- Replace the bytes from offset `off` by the bytes of `src`. -/
def overwrite (b : Bytes n) (off : Nat) (src : List UInt8) : Bytes n :=
  fun i => if off ≤ i.val ∧ i.val < off + src.length then
      src.getD (i.val - off) 0
    else b i

@[simp]
theorem byteAt_zero (k : Nat) : (zero n).byteAt k = 0 := by
  unfold byteAt zero
  split <;> rfl

@[simp]
theorem slice_length (b : Bytes n) (off len : Nat) : (b.slice off len).length = len := by
  simp [slice]

theorem getD_slice (b : Bytes n) (off : Nat) {len k : Nat} (hk : k < len) :
    (b.slice off len).getD k 0 = b.byteAt (off + k) := by
  simp [slice, List.getD_eq_getElem?_getD, hk]

theorem slice_congr {b b' : Bytes n} {off len : Nat}
    (h : ∀ k, k < len → b.byteAt (off + k) = b'.byteAt (off + k)) :
    b.slice off len = b'.slice off len := by
  unfold slice
  apply List.map_congr_left
  intro k hk
  exact h k (List.mem_range.mp hk)

/-- Blocks with the same bytes at all offsets inside are equal. -/
theorem ext_byteAt {b b' : Bytes n} (h : ∀ k, k < n → b.byteAt k = b'.byteAt k) :
    b = b' := by
  funext i
  have hi := h i.val i.isLt
  simpa [byteAt] using hi

/-- A byte inside the written range is the corresponding source byte. -/
theorem byteAt_overwrite_inside {b : Bytes n} {off k : Nat} {src : List UInt8}
    (hk : k < src.length) (hfit : off + src.length ≤ n) :
    (b.overwrite off src).byteAt (off + k) = src.getD k 0 := by
  have hin : off + k < n := by omega
  have hlt : off + k < off + src.length := by omega
  simp [byteAt, overwrite, hin, hk]

/-- A byte outside the written range is unchanged. -/
theorem byteAt_overwrite_outside {b : Bytes n} {off k : Nat} {src : List UInt8}
    (hk : k < off ∨ off + src.length ≤ k) :
    (b.overwrite off src).byteAt k = b.byteAt k := by
  unfold byteAt
  split
  · have hout : ¬(off ≤ k ∧ k < off + src.length) := by omega
    simp [overwrite, hout]
  · rfl

/-- A range reads back exactly as it was written. -/
theorem slice_overwrite_same {b : Bytes n} {off : Nat} {src : List UInt8}
    (hfit : off + src.length ≤ n) :
    (b.overwrite off src).slice off src.length = src := by
  apply List.ext_getElem
  · simp
  · intro k hk hk'
    have hbyte := byteAt_overwrite_inside (b := b) hk' hfit
    simp only [slice, List.getElem_map, List.getElem_range]
    rw [hbyte]
    simp [List.getD_eq_getElem?_getD, hk']

/-- Ranges that do not meet the written range are unchanged. -/
theorem slice_overwrite_disjoint {b : Bytes n} {off off' len : Nat} {src : List UInt8}
    (h : off' + len ≤ off ∨ off + src.length ≤ off') :
    (b.overwrite off src).slice off' len = b.slice off' len := by
  apply slice_congr
  intro k hk
  apply byteAt_overwrite_outside
  omega

end Bytes

/-! ## Little-endian numbers -/

/-- The `w` low bytes of a number, least significant first. -/
def encodeLE : Nat → Nat → List UInt8
  | 0, _ => []
  | w + 1, x => UInt8.ofNat x :: encodeLE w (x / 256)

/-- The number whose little-endian bytes are given. -/
def decodeLE : List UInt8 → Nat
  | [] => 0
  | b :: bs => b.toNat + 256 * decodeLE bs

@[simp]
theorem encodeLE_length (w x : Nat) : (encodeLE w x).length = w := by
  induction w generalizing x with
  | zero => rfl
  | succ w ih => simp [encodeLE, ih]

/-- Encoding keeps exactly the value modulo the width. -/
theorem decodeLE_encodeLE (w x : Nat) : decodeLE (encodeLE w x) = x % 256 ^ w := by
  induction w generalizing x with
  | zero => simp [encodeLE, decodeLE, Nat.mod_one]
  | succ w ih =>
    have hbyte : (UInt8.ofNat x).toNat = x % 256 := by simp
    rw [encodeLE, decodeLE, ih, hbyte, pow_succ', Nat.mod_mul]

/-- A number below `2 ^ 31` is unchanged by the passage through a 32-bit word
read as signed. -/
theorem toNat_toInt_toInt32_ofNat {x : Nat} (h : x < 2 ^ 31) :
    (UInt32.ofNat x).toInt32.toInt.toNat = x := by
  have hbits : (UInt32.ofNat x).toInt32.toBitVec.toNat = x := by
    change (UInt32.ofNat x).toNat = x
    rw [UInt32.toNat_ofNat_of_lt' (by simp [UInt32.size]; omega)]
  rw [Int32.toInt, BitVec.toInt_eq_toNat_of_lt (by omega), hbits]
  rfl

/-! ## Typed fields -/

/-- A fixed-width codec for one kind of field, with its round trip. -/
structure Layout (α : Type) where
  width : Nat
  encode : α → List UInt8
  decode : List UInt8 → α
  encode_length : ∀ x, (encode x).length = width
  decode_encode : ∀ x, decode (encode x) = x

/-- Unsigned 16-bit little-endian field. -/
def Layout.u16 : Layout UInt16 where
  width := 2
  encode x := encodeLE 2 x.toNat
  decode bs := UInt16.ofNat (decodeLE bs)
  encode_length := by simp
  decode_encode x := by
    rw [decodeLE_encodeLE, Nat.mod_eq_of_lt (by simpa using x.toNat_lt)]
    simp

/-- Unsigned 32-bit little-endian field. -/
def Layout.u32 : Layout UInt32 where
  width := 4
  encode x := encodeLE 4 x.toNat
  decode bs := UInt32.ofNat (decodeLE bs)
  encode_length := by simp
  decode_encode x := by
    rw [decodeLE_encodeLE, Nat.mod_eq_of_lt (by simpa using x.toNat_lt)]
    simp

/-- Unsigned 64-bit little-endian field. -/
def Layout.u64 : Layout UInt64 where
  width := 8
  encode x := encodeLE 8 x.toNat
  decode bs := UInt64.ofNat (decodeLE bs)
  encode_length := by simp
  decode_encode x := by
    rw [decodeLE_encodeLE, Nat.mod_eq_of_lt (by simpa using x.toNat_lt)]
    simp

/-- Signed 16-bit little-endian field. -/
def Layout.i16 : Layout Int16 where
  width := 2
  encode x := Layout.u16.encode x.toUInt16
  decode bs := (Layout.u16.decode bs).toInt16
  encode_length x := Layout.u16.encode_length _
  decode_encode x := by
    rw [Layout.u16.decode_encode]
    rfl

/-- One raw byte. -/
def Layout.u8 : Layout UInt8 where
  width := 1
  encode x := [x]
  decode bs := bs.getD 0 0
  encode_length _ := rfl
  decode_encode _ := rfl

/-- Two fields one after the other. -/
def Layout.pair {α β : Type} (L : Layout α) (M : Layout β) : Layout (α × β) where
  width := L.width + M.width
  encode x := L.encode x.1 ++ M.encode x.2
  decode bs := (L.decode (bs.take L.width), M.decode (bs.drop L.width))
  encode_length x := by
    rw [List.length_append, L.encode_length, M.encode_length]
  decode_encode x := by
    have htake : (L.encode x.1 ++ M.encode x.2).take (L.encode x.1).length = L.encode x.1 :=
      List.take_left
    have hdrop : (L.encode x.1 ++ M.encode x.2).drop (L.encode x.1).length = M.encode x.2 :=
      List.drop_left
    rw [L.encode_length] at htake hdrop
    rw [htake, hdrop, L.decode_encode, M.decode_encode]

/-- Bytes of a list of fields of one width. -/
theorem Layout.flatMap_encode_length {α : Type} (L : Layout α) (xs : List α) :
    (xs.flatMap L.encode).length = xs.length * L.width := by
  induction xs with
  | nil => simp
  | cons x xs ih =>
    rw [List.flatMap_cons, List.length_append, L.encode_length, ih, List.length_cons,
      Nat.succ_mul, Nat.add_comm]

/-- The bytes of the `i`-th field in a list of fields of one width. -/
theorem Layout.take_drop_flatMap {α : Type} (L : Layout α) (xs : List α) (i : Nat)
    (hi : i < xs.length) :
    ((xs.flatMap L.encode).drop (i * L.width)).take L.width = L.encode xs[i] := by
  induction xs generalizing i with
  | nil => simp at hi
  | cons x xs ih =>
    cases i with
    | zero =>
      have htake : (L.encode x ++ xs.flatMap L.encode).take (L.encode x).length =
          L.encode x := List.take_left
      rw [L.encode_length] at htake
      simpa using htake
    | succ i =>
      have hdrop : ((x :: xs).flatMap L.encode).drop ((i + 1) * L.width) =
          (xs.flatMap L.encode).drop (i * L.width) := by
        rw [List.flatMap_cons, List.drop_append, L.encode_length, Nat.succ_mul,
          Nat.add_sub_cancel, List.drop_eq_nil_of_le (by rw [L.encode_length]; omega)]
        simp
      rw [hdrop]
      simpa using ih i (by simpa using hi)

/-- A fixed number of fields of the same kind. -/
def Layout.array {α : Type} (k : Nat) (L : Layout α) : Layout (Fin k → α) where
  width := k * L.width
  encode v := (List.ofFn v).flatMap L.encode
  decode bs i := L.decode ((bs.drop (i * L.width)).take L.width)
  encode_length v := by
    rw [L.flatMap_encode_length, List.length_ofFn]
  decode_encode v := by
    funext i
    have hi : i.val < (List.ofFn v).length := by simp
    rw [L.take_drop_flatMap _ _ hi, L.decode_encode]
    simp

/-- A record described by the layout of its fields. -/
def Layout.map {α β : Type} (L : Layout α) (f : α → β) (g : β → α) (h : ∀ x, f (g x) = x) :
    Layout β where
  width := L.width
  encode x := L.encode (g x)
  decode bs := f (L.decode bs)
  encode_length x := L.encode_length _
  decode_encode x := by
    rw [L.decode_encode, h]

namespace Bytes

variable {n : Nat} {α β : Type}

/-- Read the field of layout `L` at offset `off`. -/
def read (L : Layout α) (b : Bytes n) (off : Nat) : α :=
  L.decode (b.slice off L.width)

/-- Overwrite the field of layout `L` at offset `off`. -/
def write (L : Layout α) (b : Bytes n) (off : Nat) (x : α) : Bytes n :=
  b.overwrite off (L.encode x)

/-- A field reads back as written. -/
theorem read_write_same {L : Layout α} {b : Bytes n} {off : Nat} {x : α}
    (hfit : off + L.width ≤ n) :
    (b.write L off x).read L off = x := by
  have hlen := L.encode_length x
  unfold read write
  rw [← hlen, slice_overwrite_same (by omega), L.decode_encode]

/-- Writing one field leaves every disjoint field alone. -/
theorem read_write_disjoint {L : Layout α} {M : Layout β} {b : Bytes n}
    {off off' : Nat} {x : β}
    (h : off' + L.width ≤ off ∨ off + M.width ≤ off') :
    (b.write M off x).read L off' = b.read L off' := by
  have hlen := M.encode_length x
  unfold read write
  rw [slice_overwrite_disjoint (by omega)]

end Bytes

end Foundations
