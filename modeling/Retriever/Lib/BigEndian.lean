/-
# Retriever.Lib.BigEndian — big-endian integers in byte strings

A byte string is a `List UInt8`. `toBE k n` writes the low `k` bytes of `n`, most significant byte
first, and `ofBE` reads a byte string of any length back. The two are inverse to each other on the
ranges where that makes sense: `ofBE_toBE` for the numbers that fit in `k` bytes, `toBE_ofBE` for
every byte string of length `k`.
-/
import Mathlib.Data.List.Induction
import Mathlib.Tactic.Ring

namespace Retriever

abbrev Bytes := List UInt8

/-! ## Encoding and decoding -/

/-- The low `k` bytes of `n`, most significant first. -/
def toBE : Nat → Nat → Bytes
  | 0, _ => []
  | k + 1, n => toBE k (n / 256) ++ [UInt8.ofNat n]

/-- The number whose big-endian digits are the given bytes. -/
def ofBE (bs : Bytes) : Nat := bs.foldl (fun acc b => acc * 256 + b.toNat) 0

@[simp] theorem toBE_length (k n : Nat) : (toBE k n).length = k := by
  induction k generalizing n with
  | zero => rfl
  | succ k ih => simp [toBE, ih]

@[simp] theorem ofBE_nil : ofBE [] = 0 := rfl

theorem ofBE_concat (bs : Bytes) (b : UInt8) : ofBE (bs ++ [b]) = ofBE bs * 256 + b.toNat := by
  simp [ofBE]

/-! ## Round trips -/

theorem ofBE_toBE_mod (k n : Nat) : ofBE (toBE k n) = n % 256 ^ k := by
  induction k generalizing n with
  | zero => simp [toBE, Nat.mod_one]
  | succ k ih =>
    rw [toBE, ofBE_concat, ih, pow_succ, Nat.mul_comm (256 ^ k) 256, Nat.mod_mul]
    simp only [UInt8.toNat_ofNat']
    ring

/-- Decoding undoes encoding for every number that fits. -/
theorem ofBE_toBE {k n : Nat} (h : n < 256 ^ k) : ofBE (toBE k n) = n := by
  rw [ofBE_toBE_mod, Nat.mod_eq_of_lt h]

theorem ofBE_lt (bs : Bytes) : ofBE bs < 256 ^ bs.length := by
  induction bs using List.reverseRecOn with
  | nil => simp
  | append_singleton bs b ih =>
    have hb : b.toNat < 256 := b.toNat_lt
    rw [ofBE_concat, List.length_append, List.length_singleton, pow_succ]
    omega

/-- Encoding undoes decoding at the string's own length. -/
theorem toBE_ofBE (bs : Bytes) : toBE bs.length (ofBE bs) = bs := by
  induction bs using List.reverseRecOn with
  | nil => rfl
  | append_singleton bs b ih =>
    have hb : b.toNat < 256 := b.toNat_lt
    rw [List.length_append, List.length_singleton, toBE, ofBE_concat,
      show (ofBE bs * 256 + b.toNat) / 256 = ofBE bs by omega, ih]
    congr 2
    apply UInt8.toNat_inj.mp
    simp only [UInt8.toNat_ofNat']
    omega

theorem toBE_ofBE_of_length {bs : Bytes} {k : Nat} (h : bs.length = k) :
    toBE k (ofBE bs) = bs := by
  rw [← h, toBE_ofBE]

/-- Only the low `k` bytes are written. -/
theorem toBE_mod (k n : Nat) : toBE k (n % 256 ^ k) = toBE k n := by
  have h := toBE_ofBE (toBE k n)
  rwa [toBE_length, ofBE_toBE_mod] at h

/-- One shift per byte: byte `i` is what is left of `n` above the `k - 1 - i` bytes after it. -/
theorem toBE_eq_shifts (k n : Nat) :
    toBE k n = (List.range k).map fun i => UInt8.ofNat (n >>> (8 * (k - 1 - i))) := by
  induction k generalizing n with
  | zero => rfl
  | succ k ih =>
    rw [toBE, ih, List.range_succ, List.map_append]
    congr 1
    · apply List.map_congr_left
      intro i hi
      have hik : i < k := List.mem_range.mp hi
      rw [show k + 1 - 1 - i = (k - 1 - i) + 1 by omega, Nat.mul_succ, Nat.add_comm,
        Nat.shiftRight_add, Nat.shiftRight_eq_div_pow n 8]
    · simp

theorem toBE_inj {k m n : Nat} (hm : m < 256 ^ k) (hn : n < 256 ^ k) (h : toBE k m = toBE k n) :
    m = n := by
  rw [← ofBE_toBE hm, h, ofBE_toBE hn]

end Retriever
