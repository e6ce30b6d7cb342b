import Mathlib

/-!
# Blocks of bytes and the words in them

A `Bytes size` is a block of that many bytes. Code reads and writes it in three ways: a byte, a
little-endian 32-bit word of the block seen as an array of words, and a run of bytes copied in from
elsewhere (`patch`). A 64-bit double word is two words. A block is also an array of records, which
are smaller blocks, and an array of bits. Each reader has one law for each writer, so that a proof
about a structure laid over a block never looks at single bytes.

Reads outside the block answer zero and writes outside it do nothing. Callers prove that their
offsets are inside.
-/

namespace Base

/-- A block of bytes. -/
abbrev Bytes (size : Nat) := Fin size → UInt8

namespace Bytes

variable {size : Nat} {b : Bytes size} {j i : Nat}

/-- The byte at an offset. -/
def byte (b : Bytes size) (j : Nat) : UInt8 := if h : j < size then b ⟨j, h⟩ else 0

/-- The block with `n` bytes from `off` on replaced by those of `src`. -/
def patch (b : Bytes size) (off n : Nat) (src : Nat → UInt8) : Bytes size := fun j =>
  if off ≤ j.val ∧ j.val < off + n then src (j.val - off) else b j

/-- What a patched array reads back. -/
theorem byte_patch (b : Bytes size) (off n : Nat) (src : Nat → UInt8) (j : Nat) :
    (b.patch off n src).byte j =
      if j < size ∧ off ≤ j ∧ j < off + n then src (j - off) else b.byte j := by
  unfold byte patch
  by_cases hj : j < size
  · rw [dif_pos hj, dif_pos hj]
    by_cases hin : off ≤ j ∧ j < off + n
    · rw [if_pos hin, if_pos ⟨hj, hin⟩]
    · rw [if_neg hin, if_neg fun h => hin h.2]
  · rw [dif_neg hj, dif_neg hj, if_neg fun h => hj h.1]

theorem byte_patch_inside {off n : Nat} {src : Nat → UInt8} (hsize : j < size) (hoff : off ≤ j)
    (hn : j < off + n) : (b.patch off n src).byte j = src (j - off) := by
  rw [byte_patch, if_pos ⟨hsize, hoff, hn⟩]

theorem byte_patch_outside {off n : Nat} {src : Nat → UInt8} (h : j < off ∨ off + n ≤ j) :
    (b.patch off n src).byte j = b.byte j := by
  rw [byte_patch, if_neg]
  rintro ⟨-, hoff, hn⟩
  omega

/-- The `k`th byte of a little-endian number. -/
def digit (v k : Nat) : UInt8 := UInt8.ofNat (v / 256 ^ k)

@[simp] theorem digit_toNat (v k : Nat) : (digit v k).toNat = v / 256 ^ k % 256 := by
  unfold digit
  exact UInt8.toNat_ofNat

/-- The `i`th word of the block. -/
def word (b : Bytes size) (i : Nat) : Nat :=
  (b.byte (4 * i)).toNat + 2 ^ 8 * (b.byte (4 * i + 1)).toNat +
    2 ^ 16 * (b.byte (4 * i + 2)).toNat + 2 ^ 24 * (b.byte (4 * i + 3)).toNat

/-- The block with its `i`th word set. -/
def setWord (b : Bytes size) (i v : Nat) : Bytes size := b.patch (4 * i) 4 (digit v)

theorem word_lt (b : Bytes size) (i : Nat) : b.word i < 2 ^ 32 := by
  unfold word
  have h0 := (b.byte (4 * i)).toNat_lt
  have h1 := (b.byte (4 * i + 1)).toNat_lt
  have h2 := (b.byte (4 * i + 2)).toNat_lt
  have h3 := (b.byte (4 * i + 3)).toNat_lt
  omega

theorem word_congr {b' : Bytes size} (h : ∀ j, 4 * i ≤ j → j < 4 * i + 4 → b.byte j = b'.byte j) :
    b.word i = b'.word i := by
  unfold word
  rw [h (4 * i) (by omega) (by omega), h (4 * i + 1) (by omega) (by omega),
    h (4 * i + 2) (by omega) (by omega), h (4 * i + 3) (by omega) (by omega)]

/-- A word reads back what was written. -/
theorem word_setWord (h : 4 * i + 4 ≤ size) (v : Nat) :
    (b.setWord i v).word i = v % 2 ^ 32 := by
  have hbyte : ∀ k, k < 4 → ((b.setWord i v).byte (4 * i + k)).toNat = v / 256 ^ k % 256 := by
    intro k hk
    unfold setWord
    rw [byte_patch_inside (by omega) (by omega) (by omega), Nat.add_sub_cancel_left, digit_toNat]
  have h0 := hbyte 0 (by omega)
  have h1 := hbyte 1 (by omega)
  have h2 := hbyte 2 (by omega)
  have h3 := hbyte 3 (by omega)
  unfold word
  rw [Nat.add_zero] at h0
  rw [h0, h1, h2, h3]
  omega

theorem word_setWord_ne (h : j ≠ i) (v : Nat) :
    (b.setWord i v).word j = b.word j := by
  refine word_congr fun k hk hk' => ?_
  exact byte_patch_outside (by omega)

/-- The `i`th double word of the block. -/
def dword (b : Bytes size) (i : Nat) : Nat := b.word (2 * i) + 2 ^ 32 * b.word (2 * i + 1)

/-- The block with its `i`th double word set. -/
def setDword (b : Bytes size) (i v : Nat) : Bytes size :=
  (b.setWord (2 * i) v).setWord (2 * i + 1) (v / 2 ^ 32)

theorem dword_lt (b : Bytes size) (i : Nat) : b.dword i < 2 ^ 64 := by
  unfold dword
  have hlow := b.word_lt (2 * i)
  have hhigh := b.word_lt (2 * i + 1)
  omega

theorem dword_setDword (h : 8 * i + 8 ≤ size) (v : Nat) :
    (b.setDword i v).dword i = v % 2 ^ 64 := by
  unfold dword setDword
  rw [word_setWord (by omega), word_setWord_ne (by omega), word_setWord (by omega)]
  omega

theorem dword_setDword_ne (h : j ≠ i) (v : Nat) :
    (b.setDword i v).dword j = b.dword j := by
  unfold dword setDword
  rw [word_setWord_ne (by omega), word_setWord_ne (by omega), word_setWord_ne (by omega),
    word_setWord_ne (by omega)]

/-- Every double word of a block of zeros is zero. -/
theorem dword_zero (i : Nat) : dword (fun _ => 0 : Bytes size) i = 0 := by
  unfold dword word byte
  simp

/-! ## Half words -/

/-- The `i`th half word of the block. -/
def half (b : Bytes size) (i : Nat) : Nat :=
  (b.byte (2 * i)).toNat + 2 ^ 8 * (b.byte (2 * i + 1)).toNat

theorem half_setWord (h : j / 2 ≠ i) (v : Nat) :
    (b.setWord i v).half j = b.half j := by
  unfold half setWord
  rw [byte_patch_outside (by omega), byte_patch_outside (by omega)]

/-! ## Records -/

section Record

variable {n : Nat}

/-- The `k`th record of `n` bytes in the block. -/
def record (n : Nat) (b : Bytes size) (k : Nat) : Bytes n := fun j => b.byte (n * k + j)

/-- The block with its `k`th record set. -/
def setRecord (b : Bytes size) (k : Nat) (r : Bytes n) : Bytes size := b.patch (n * k) n r.byte

theorem record_setRecord {b : Bytes size} {k : Nat} (h : n * k + n ≤ size) (r : Bytes n) :
    record n (b.setRecord k r) k = r := by
  funext j
  have hj := j.isLt
  unfold record setRecord
  rw [byte_patch_inside (by omega) (by omega) (by omega), Nat.add_sub_cancel_left]
  exact dif_pos hj

theorem record_setRecord_ne {b : Bytes size} {k l : Nat} (h : l ≠ k) (r : Bytes n) :
    record n (b.setRecord k r) l = record n b l := by
  funext j
  have hj := j.isLt
  unfold record setRecord
  refine byte_patch_outside ?_
  rcases Nat.lt_or_gt_of_ne h with hlt | hgt
  · have hle : n * (l + 1) ≤ n * k := Nat.mul_le_mul_left n hlt
    rw [Nat.mul_succ] at hle
    omega
  · have hle : n * (k + 1) ≤ n * l := Nat.mul_le_mul_left n hgt
    rw [Nat.mul_succ] at hle
    omega

end Record

/-! ## Bits -/

/-- The `i`th bit of the block. -/
def bit (b : Bytes size) (i : Nat) : Bool := (b.byte (i / 8)).toNat.testBit (i % 8)

/-- The block with its `i`th bit set. -/
def setBit (b : Bytes size) (i : Nat) : Bytes size :=
  b.patch (i / 8) 1 fun _ => b.byte (i / 8) ||| 1 <<< UInt8.ofNat (i % 8)

theorem testBit_mask {k : Nat} (hj : j < 8) (hk : k < 8) :
    (1 <<< UInt8.ofNat k : UInt8).toNat.testBit j = decide (j = k) := by
  interval_cases k <;> interval_cases j <;> rfl

/-- Setting one bit leaves the others. -/
theorem bit_setBit (h : i / 8 < size) (j : Nat) :
    (b.setBit i).bit j = (decide (j = i) || b.bit j) := by
  unfold bit setBit
  by_cases hbyte : j / 8 = i / 8
  · rw [hbyte, byte_patch_inside h (Nat.le_refl _) (Nat.lt_succ_self _), UInt8.toNat_or,
      Nat.testBit_or, testBit_mask (Nat.mod_lt _ (by decide)) (Nat.mod_lt _ (by decide)),
      Bool.or_comm]
    have hiff : j % 8 = i % 8 ↔ j = i := by omega
    simp only [hiff]
  · have hne : j ≠ i := fun he => hbyte (by rw [he])
    rw [byte_patch_outside (by omega), decide_eq_false hne, Bool.false_or]

end Bytes

end Base
