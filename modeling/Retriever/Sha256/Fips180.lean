/-
# Retriever.Sha256.Fips180 — SHA-256 as FIPS 180-4 writes it

The reference side: words are `BitVec 32`, a message is a byte string, and every definition follows
a numbered section of the standard (§3.2 operations, §4.1.2 functions, §4.2.2 and §5.3.3 constants,
§5.1.1 padding, §6.2.2 the hash computation). Nothing here mentions a streaming state, a buffer or
a chunk size.

The constant tables are written out as the standard prints them. That they are what the standard
says they are (the leading fractional bits of square and cube roots of the first primes) is
`kTable_eq_roots` and `initialHash_eq_roots`.
-/
import Retriever.Lib.BigEndian
import Mathlib.Data.List.GetD

namespace Retriever.Fips180

abbrev Word := BitVec 32

/-! ## §4.1.2 the six logical functions -/

def Ch (x y z : Word) : Word := (x &&& y) ^^^ (~~~x &&& z)
def Maj (x y z : Word) : Word := (x &&& y) ^^^ (x &&& z) ^^^ (y &&& z)
def bigSigma0 (x : Word) : Word := x.rotateRight 2 ^^^ x.rotateRight 13 ^^^ x.rotateRight 22
def bigSigma1 (x : Word) : Word := x.rotateRight 6 ^^^ x.rotateRight 11 ^^^ x.rotateRight 25
def smallSigma0 (x : Word) : Word := x.rotateRight 7 ^^^ x.rotateRight 18 ^^^ (x >>> 3)
def smallSigma1 (x : Word) : Word := x.rotateRight 17 ^^^ x.rotateRight 19 ^^^ (x >>> 10)

/-! ## §4.2.2 and §5.3.3 the constants -/

/-- The sixty-four words `K_0 … K_63`. -/
def kTable : List Word :=
  [0x428a2f98, 0x71374491, 0xb5c0fbcf, 0xe9b5dba5, 0x3956c25b, 0x59f111f1, 0x923f82a4, 0xab1c5ed5,
   0xd807aa98, 0x12835b01, 0x243185be, 0x550c7dc3, 0x72be5d74, 0x80deb1fe, 0x9bdc06a7, 0xc19bf174,
   0xe49b69c1, 0xefbe4786, 0x0fc19dc6, 0x240ca1cc, 0x2de92c6f, 0x4a7484aa, 0x5cb0a9dc, 0x76f988da,
   0x983e5152, 0xa831c66d, 0xb00327c8, 0xbf597fc7, 0xc6e00bf3, 0xd5a79147, 0x06ca6351, 0x14292967,
   0x27b70a85, 0x2e1b2138, 0x4d2c6dfc, 0x53380d13, 0x650a7354, 0x766a0abb, 0x81c2c92e, 0x92722c85,
   0xa2bfe8a1, 0xa81a664b, 0xc24b8b70, 0xc76c51a3, 0xd192e819, 0xd6990624, 0xf40e3585, 0x106aa070,
   0x19a4c116, 0x1e376c08, 0x2748774c, 0x34b0bcb5, 0x391c0cb3, 0x4ed8aa4a, 0x5b9cca4f, 0x682e6ff3,
   0x748f82ee, 0x78a5636f, 0x84c87814, 0x8cc70208, 0x90befffa, 0xa4506ceb, 0xbef9a3f7, 0xc67178f2]

/-- The eight working variables, and equally the eight words of an intermediate hash value. -/
structure Regs where
  a : Word
  b : Word
  c : Word
  d : Word
  e : Word
  f : Word
  g : Word
  h : Word
  deriving DecidableEq, Repr

def Regs.toList (r : Regs) : List Word := [r.a, r.b, r.c, r.d, r.e, r.f, r.g, r.h]

def initialHash : Regs :=
  ⟨0x6a09e667, 0xbb67ae85, 0x3c6ef372, 0xa54ff53a, 0x510e527f, 0x9b05688c, 0x1f83d9ab, 0x5be0cd19⟩

/-- `k`-th root of `n` rounded down, one binary digit at a time from bit `b`. -/
def rootDigits (k n : Nat) : Nat → Nat → Nat
  | 0, r => r
  | b + 1, r => if (r + 2 ^ b) ^ k ≤ n then rootDigits k n b (r + 2 ^ b) else rootDigits k n b r

theorem rootDigits_spec (k n b r : Nat) (hlo : r ^ k ≤ n) (hhi : n < (r + 2 ^ b) ^ k) :
    rootDigits k n b r ^ k ≤ n ∧ n < (rootDigits k n b r + 1) ^ k := by
  induction b generalizing r with
  | zero => exact ⟨hlo, by simpa [rootDigits] using hhi⟩
  | succ b ih =>
    have hdouble : r + 2 ^ (b + 1) = r + 2 ^ b + 2 ^ b := by rw [pow_succ]; omega
    rw [rootDigits]
    split
    · next hle => exact ih _ hle (by rwa [← hdouble])
    · next hgt => exact ih _ hlo (by omega)

/-- The first thirty-two bits of the fractional part of the `k`-th root of `p`. -/
def fractionBits (k p : Nat) : Word := BitVec.ofNat 32 (rootDigits k (p * 2 ^ (32 * k)) 41 0)

def firstPrimes : List Nat :=
  (List.range 312).filter fun n => 2 ≤ n && (List.range n).all fun d => d < 2 || n % d != 0

theorem kTable_eq_roots : kTable = firstPrimes.map (fractionBits 3) := by decide +kernel

theorem initialHash_eq_roots :
    initialHash.toList = (firstPrimes.take 8).map (fractionBits 2) := by decide +kernel

/-! ## §5.1.1 padding and §5.2.1 parsing -/

/-- The message, a `1` bit, the fewest `0` bits that leave room for the length at the end of a
block, and the length of the message in bits as a 64-bit big-endian number. -/
def pad (m : Bytes) : Bytes :=
  m ++ 0x80 :: List.replicate ((119 - m.length % 64) % 64) 0 ++ toBE 8 (8 * m.length)

theorem pad_length_mod (m : Bytes) : (pad m).length % 64 = 0 := by
  simp only [pad, List.length_append, List.length_cons, List.length_replicate, toBE_length]
  omega

/-- Word `t` of a 64-byte block. -/
def blockWord (block : Bytes) (t : Nat) : Word :=
  BitVec.ofNat 32 (ofBE ((block.drop (4 * t)).take 4))

/-! ## §6.2.2 the hash computation -/

/-- Step 1, the message schedule: `W_0 … W_{15 + n}`. -/
def schedule (block : Bytes) : Nat → List Word
  | 0 => (List.range 16).map (blockWord block)
  | n + 1 =>
    let w := schedule block n
    w ++ [smallSigma1 (w.getD (n + 14) 0) + w.getD (n + 9) 0
      + smallSigma0 (w.getD (n + 1) 0) + w.getD n 0]

/-- Step 3, one round with the constant `k` and the schedule word `w`. -/
def round (r : Regs) (k w : Word) : Regs :=
  let t1 := r.h + bigSigma1 r.e + Ch r.e r.f r.g + k + w
  let t2 := bigSigma0 r.a + Maj r.a r.b r.c
  ⟨t1 + t2, r.a, r.b, r.c, r.d + t1, r.e, r.f, r.g⟩

/-- Steps 2 and 3 over the sixty-four rounds. -/
def rounds (block : Bytes) (r : Regs) : Regs :=
  (List.range 64).foldl (fun r t => round r (kTable.getD t 0) ((schedule block 48).getD t 0)) r

/-- Step 4: the intermediate hash value after one more block. -/
def compress (r : Regs) (block : Bytes) : Regs :=
  let v := rounds block r
  ⟨v.a + r.a, v.b + r.b, v.c + r.c, v.d + r.d, v.e + r.e, v.f + r.f, v.g + r.g, v.h + r.h⟩

/-- The intermediate hash values over `n` consecutive blocks of a byte string. -/
def absorb : Nat → Regs → Bytes → Regs
  | 0, r, _ => r
  | n + 1, r, bs => absorb n (compress r (bs.take 64)) (bs.drop 64)

/-- The final hash value as a byte string. -/
def digestOf (r : Regs) : Bytes := r.toList.flatMap fun w => toBE 4 w.toNat

/-- **SHA-256 of a byte string.** -/
def sha256 (m : Bytes) : Bytes := digestOf (absorb ((pad m).length / 64) initialHash (pad m))

@[simp] theorem sha256_length (m : Bytes) : (sha256 m).length = 32 := by
  simp [sha256, digestOf, Regs.toList]

/-! ## Facts about the schedule and the block fold -/

@[simp] theorem schedule_length (block : Bytes) (n : Nat) : (schedule block n).length = n + 16 := by
  induction n with
  | zero => simp [schedule]
  | succ n ih => simp [schedule, ih, Nat.add_right_comm]

/-- Only the bytes of the blocks it folds over matter to `absorb`. -/
theorem absorb_append (n : Nat) (r : Regs) (xs ys : Bytes) (h : xs.length = 64 * n) :
    absorb n r (xs ++ ys) = absorb n r xs := by
  induction n generalizing r xs with
  | zero => rfl
  | succ n ih =>
    simp only [absorb]
    rw [List.take_append_of_le_length (by omega), List.drop_append_of_le_length (by omega),
      ih _ _ (by rw [List.length_drop]; omega)]

theorem absorb_add (m n : Nat) (r : Regs) (xs : Bytes) :
    absorb (m + n) r xs = absorb n (absorb m r xs) (xs.drop (64 * m)) := by
  induction m generalizing r xs with
  | zero => simp [absorb]
  | succ m ih =>
    rw [show m + 1 + n = (m + n) + 1 by omega, absorb, absorb, ih, List.drop_drop,
      show 64 + 64 * m = 64 * (m + 1) by omega]

end Retriever.Fips180
