/-
PcapSlim.Lib.Octets — 16- and 32-bit fields in buffers of bytes.

Network headers keep 16-bit numbers most significant byte first; file headers
keep 32-bit numbers in either order. `be16` joins two bytes and `be16At` reads
a field at an offset; `putBe16` is the total store and `storeBe16` the checked
one. The 32-bit coders come in both orders with their round trips.
-/
import PcapSlim.Lib.Buffer

namespace Lib.Octets

open Lib.Buffer

/-- A string of bytes. -/
abbrev Bytes := List UInt8

/-- A byte array whose size is part of its type. -/
structure FixedBytes (n : Nat) where
  bytes : Bytes
  size : bytes.length = n
  deriving DecidableEq, Repr

/-- Copy a slice into a fixed-size array; a slice of another length is a fault. -/
def FixedBytes.copyFrom (n : Nat) (src : Bytes) : Checked (FixedBytes n) :=
  if h : src.length = n then .ok ⟨src, h⟩ else .error .slice

/-! ## 16-bit fields -/

/-- The 16-bit number with the given most and least significant bytes. -/
def be16 (hi lo : UInt8) : UInt16 := (hi.toUInt16 <<< 8) ||| lo.toUInt16

theorem toNat_be16 (hi lo : UInt8) : (be16 hi lo).toNat = hi.toNat * 256 + lo.toNat := by
  have hhi := hi.toNat_lt
  have hlo := lo.toNat_lt
  have hshift : hi.toNat <<< 8 = hi.toNat * 256 := by rw [Nat.shiftLeft_eq]
  have hdisj : hi.toNat <<< 8 ||| lo.toNat = hi.toNat <<< 8 + lo.toNat :=
    (Nat.shiftLeft_add_eq_or_of_lt (i := 8) (by omega) hi.toNat).symm
  simp only [be16, UInt16.toNat_or, UInt16.toNat_shiftLeft, UInt8.toNat_toUInt16]
  have h8 : (8 : UInt16).toNat % 16 = 8 := rfl
  rw [h8, Nat.mod_eq_of_lt (by omega), hdisj, hshift]

/-- The most significant byte of a 16-bit number. -/
def hi16 (v : Nat) : UInt8 := UInt8.ofNat (v >>> 8)

/-- The least significant byte of a number. -/
def lo16 (v : Nat) : UInt8 := UInt8.ofNat (v &&& 0xff)

theorem toNat_hi16 (v : Nat) : (hi16 v).toNat = v / 256 % 256 := by
  simp [hi16, Nat.shiftRight_eq_div_pow]

theorem toNat_lo16 (v : Nat) : (lo16 v).toNat = v % 256 := by
  have h : v &&& 255 = v % 256 := Nat.and_two_pow_sub_one_eq_mod v 8
  simp [lo16, h]

theorem be16_hi16_lo16 (v : Nat) : (be16 (hi16 v) (lo16 v)).toNat = v % 65536 := by
  rw [toNat_be16, toNat_hi16, toNat_lo16]
  omega

/-- Splitting a 16-bit number and joining its bytes. -/
@[simp] theorem be16_split (v : UInt16) : be16 (hi16 v.toNat) (lo16 v.toNat) = v := by
  have hv := v.toNat_lt
  apply UInt16.toNat_inj.mp
  rw [be16_hi16_lo16, Nat.mod_eq_of_lt (by omega)]

/-- The 16-bit number at offset `i`. -/
def be16At (buf : Bytes) (i : Nat) : UInt16 := be16 (elemAt buf i) (elemAt buf (i + 1))

theorem toNat_be16At (buf : Bytes) (i : Nat) :
    (be16At buf i).toNat = (elemAt buf i).toNat * 256 + (elemAt buf (i + 1)).toNat :=
  toNat_be16 _ _

/-- Read the 16-bit number at offset `i`, checking both indices. -/
def readBe16 (buf : Bytes) (i : Nat) : Checked UInt16 := do
  let hi ← read buf i
  let lo ← read buf (i + 1)
  return be16 hi lo

theorem readBe16_ok {buf : Bytes} {i : Nat} (h : i + 1 < buf.length) :
    readBe16 buf i = .ok (be16At buf i) := by
  simp [readBe16, be16At, read_ok (show i < buf.length by omega), read_ok h]

/-- A field whose second byte is outside the buffer cannot be read. -/
theorem readBe16_fault {buf : Bytes} {i : Nat} (h : buf.length ≤ i + 1) :
    readBe16 buf i = .error .index := by
  unfold readBe16
  by_cases hi : i < buf.length
  · simp [read_ok hi, read_fault h]
  · simp [read_fault (Nat.not_lt.mp hi)]

/-- Store the low 16 bits of `v` at offset `i`. -/
def putBe16 (buf : Bytes) (i v : Nat) : Bytes := (buf.set i (hi16 v)).set (i + 1) (lo16 v)

/-- Store the low 16 bits of `v` at offset `i`, checking both indices. -/
def storeBe16 (buf : Bytes) (i v : Nat) : Checked Bytes := do
  let buf ← write buf i (hi16 v)
  write buf (i + 1) (lo16 v)

theorem storeBe16_ok {buf : Bytes} {i v : Nat} (h : i + 1 < buf.length) :
    storeBe16 buf i v = .ok (putBe16 buf i v) := by
  simp [storeBe16, putBe16, write_ok (show i < buf.length by omega), write_ok, h]

@[simp] theorem length_putBe16 (buf : Bytes) (i v : Nat) :
    (putBe16 buf i v).length = buf.length := by
  simp [putBe16]

/-- A stored field is invisible outside its two bytes. -/
theorem elemAt_putBe16_ne {buf : Bytes} {i v j : Nat} (h : j ≠ i) (h' : j ≠ i + 1) :
    elemAt (putBe16 buf i v) j = elemAt buf j := by
  rw [putBe16, elemAt_set_ne (Ne.symm h'), elemAt_set_ne (Ne.symm h)]

theorem elemAt_putBe16_hi {buf : Bytes} {i v : Nat} (h : i + 1 < buf.length) :
    elemAt (putBe16 buf i v) i = hi16 v := by
  rw [putBe16, elemAt_set_ne (by omega), elemAt_set (by omega), if_pos rfl]

theorem elemAt_putBe16_lo {buf : Bytes} {i v : Nat} (h : i + 1 < buf.length) :
    elemAt (putBe16 buf i v) (i + 1) = lo16 v := by
  rw [putBe16, elemAt_set (by simpa using h), if_pos rfl]

/-- A field is not changed by a store that does not overlap it. -/
theorem be16At_putBe16_ne {buf : Bytes} {i v j : Nat} (h : j + 1 < i ∨ i + 1 < j) :
    be16At (putBe16 buf i v) j = be16At buf j := by
  rw [be16At, be16At, elemAt_putBe16_ne (by omega) (by omega),
    elemAt_putBe16_ne (by omega) (by omega)]

/-- A stored field reads back as the low 16 bits that were stored. -/
theorem be16At_putBe16 {buf : Bytes} {i v : Nat} (h : i + 1 < buf.length) :
    (be16At (putBe16 buf i v) i).toNat = v % 65536 := by
  rw [be16At, elemAt_putBe16_hi h, elemAt_putBe16_lo h, be16_hi16_lo16]

/-- Reading behind a prefix. -/
theorem be16At_append_add (pre body : Bytes) (k : Nat) :
    be16At (pre ++ body) (pre.length + k) = be16At body k := by
  rw [be16At, be16At, elemAt_append_add, Nat.add_assoc, elemAt_append_add]

theorem be16_inj {a b c d : UInt8} (h : be16 a b = be16 c d) : a = c ∧ b = d := by
  have hnat := congrArg UInt16.toNat h
  rw [toNat_be16, toNat_be16] at hnat
  have ha := a.toNat_lt
  have hb := b.toNat_lt
  have hc := c.toNat_lt
  have hd := d.toNat_lt
  exact ⟨UInt8.toNat_inj.mp (by omega), UInt8.toNat_inj.mp (by omega)⟩

/-- A 16-bit number that was stored reads back. -/
theorem be16At_putBe16_toNat {buf : Bytes} {i : Nat} {v : UInt16} (h : i + 1 < buf.length) :
    be16At (putBe16 buf i v.toNat) i = v := by
  have hv := v.toNat_lt
  apply UInt16.toNat_inj.mp
  rw [be16At_putBe16 h, Nat.mod_eq_of_lt (by omega)]

/-- A stored field in a window of the buffer. -/
theorem window_putBe16 (buf : Bytes) (lo hi i v : Nat) :
    ((putBe16 buf (lo + i) v).take hi).drop lo = putBe16 ((buf.take hi).drop lo) i v := by
  unfold putBe16
  rw [List.take_set, List.take_set, List.drop_set, if_neg (by omega), List.drop_set,
    if_neg (by omega), show lo + i + 1 - lo = i + 1 by omega, Nat.add_sub_cancel_left]

theorem drop_putBe16 (buf : Bytes) (lo i v : Nat) :
    (putBe16 buf (lo + i) v).drop lo = putBe16 (buf.drop lo) i v := by
  have h := window_putBe16 buf lo buf.length i v
  rwa [List.take_of_length_le (by simp), List.take_length] at h

/-- A field outside the buffer stores nothing. -/
theorem putBe16_of_length_le {buf : Bytes} {i v : Nat} (h : buf.length ≤ i) :
    putBe16 buf i v = buf := by
  rw [putBe16, List.set_eq_of_length_le h, List.set_eq_of_length_le (by omega)]

/-! ## 32-bit fields -/

/-- The four bytes of `v`, least significant first. -/
def toLe32 (v : UInt32) : Bytes :=
  [UInt8.ofNat v.toNat, UInt8.ofNat (v.toNat / 256), UInt8.ofNat (v.toNat / 65536),
   UInt8.ofNat (v.toNat / 16777216)]

/-- The four bytes of `v`, most significant first. -/
def toBe32 (v : UInt32) : Bytes := (toLe32 v).reverse

/-- The number whose least significant byte comes first; other lengths give 0. -/
def fromLe32 : Bytes → UInt32
  | [a, b, c, d] =>
      UInt32.ofNat (a.toNat + 256 * b.toNat + 65536 * c.toNat + 16777216 * d.toNat)
  | _ => 0

/-- The number whose most significant byte comes first; other lengths give 0. -/
def fromBe32 (bs : Bytes) : UInt32 := fromLe32 bs.reverse

@[simp] theorem length_toLe32 (v : UInt32) : (toLe32 v).length = 4 := rfl

@[simp] theorem length_toBe32 (v : UInt32) : (toBe32 v).length = 4 := rfl

theorem fromLe32_toLe32 (v : UInt32) : fromLe32 (toLe32 v) = v := by
  have hv := v.toNat_lt
  apply UInt32.toNat_inj.mp
  simp only [fromLe32, toLe32, UInt32.toNat_ofNat', UInt8.toNat_ofNat']
  omega

theorem fromBe32_toBe32 (v : UInt32) : fromBe32 (toBe32 v) = v := by
  rw [fromBe32, toBe32, List.reverse_reverse, fromLe32_toLe32]

/-- Four bytes are determined by the number they spell. -/
theorem toLe32_fromLe32 {bs : Bytes} (h : bs.length = 4) : toLe32 (fromLe32 bs) = bs := by
  match bs, h with
  | [a, b, c, d], _ =>
    have ha := a.toNat_lt
    have hb := b.toNat_lt
    have hc := c.toNat_lt
    have hd := d.toNat_lt
    simp only [fromLe32, toLe32, UInt32.toNat_ofNat', List.cons.injEq, and_true]
    refine ⟨?_, ?_, ?_, ?_⟩ <;> apply UInt8.toNat_inj.mp <;>
      simp only [UInt8.toNat_ofNat'] <;> omega

theorem toBe32_fromBe32 {bs : Bytes} (h : bs.length = 4) : toBe32 (fromBe32 bs) = bs := by
  rw [fromBe32, toBe32, toLe32_fromLe32 (by simpa using h), List.reverse_reverse]

end Lib.Octets
