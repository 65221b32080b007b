/-
# Retriever.Sha256.Stream — `c/sha256.c`, the streaming SHA-256 of the C client

A transliteration of `c/sha256.c`. Words are `UInt32` and wrap as `uint32_t` does, `bit_count` is a
`UInt64`, the rotations are two shifts and an or, and `sha256_ctx` is the C struct: eight state
words, the bit count, the 64-byte buffer and the number of bytes waiting in it. The caller's
pointer-and-length pair is one byte string.

`Sha256Ctx.Valid` is what `sha256_init` sets up and every later call relies on: a buffer of one
block that is never left full. The padding loop of `sha256_final` runs on valid contexts only;
that it stops is part of its definition.
-/
import Retriever.Lib.BigEndian

namespace Retriever.CSha

def SHA256_DIGEST_SIZE : Nat := 32
def SHA256_BLOCK_SIZE : Nat := 64

/-! ## The macros and the round constants -/

def ROTR (x n : UInt32) : UInt32 := (x >>> n) ||| (x <<< (32 - n))
def CH (x y z : UInt32) : UInt32 := (x &&& y) ^^^ (~~~x &&& z)
def MAJ (x y z : UInt32) : UInt32 := (x &&& y) ^^^ (x &&& z) ^^^ (y &&& z)
def BSIG0 (x : UInt32) : UInt32 := ROTR x 2 ^^^ ROTR x 13 ^^^ ROTR x 22
def BSIG1 (x : UInt32) : UInt32 := ROTR x 6 ^^^ ROTR x 11 ^^^ ROTR x 25
def SSIG0 (x : UInt32) : UInt32 := ROTR x 7 ^^^ ROTR x 18 ^^^ (x >>> 3)
def SSIG1 (x : UInt32) : UInt32 := ROTR x 17 ^^^ ROTR x 19 ^^^ (x >>> 10)

def K : List UInt32 :=
  [0x428a2f98, 0x71374491, 0xb5c0fbcf, 0xe9b5dba5,
   0x3956c25b, 0x59f111f1, 0x923f82a4, 0xab1c5ed5,
   0xd807aa98, 0x12835b01, 0x243185be, 0x550c7dc3,
   0x72be5d74, 0x80deb1fe, 0x9bdc06a7, 0xc19bf174,
   0xe49b69c1, 0xefbe4786, 0x0fc19dc6, 0x240ca1cc,
   0x2de92c6f, 0x4a7484aa, 0x5cb0a9dc, 0x76f988da,
   0x983e5152, 0xa831c66d, 0xb00327c8, 0xbf597fc7,
   0xc6e00bf3, 0xd5a79147, 0x06ca6351, 0x14292967,
   0x27b70a85, 0x2e1b2138, 0x4d2c6dfc, 0x53380d13,
   0x650a7354, 0x766a0abb, 0x81c2c92e, 0x92722c85,
   0xa2bfe8a1, 0xa81a664b, 0xc24b8b70, 0xc76c51a3,
   0xd192e819, 0xd6990624, 0xf40e3585, 0x106aa070,
   0x19a4c116, 0x1e376c08, 0x2748774c, 0x34b0bcb5,
   0x391c0cb3, 0x4ed8aa4a, 0x5b9cca4f, 0x682e6ff3,
   0x748f82ee, 0x78a5636f, 0x84c87814, 0x8cc70208,
   0x90befffa, 0xa4506ceb, 0xbef9a3f7, 0xc67178f2]

/-! ## `sha256_block` -/

/-- `w[i]` for `i < 16`: four bytes of the block, big-endian. -/
def loadWord (block : Bytes) (i : Nat) : UInt32 :=
  ((block.getD (i * 4) 0).toUInt32 <<< 24)
    ||| ((block.getD (i * 4 + 1) 0).toUInt32 <<< 16)
    ||| ((block.getD (i * 4 + 2) 0).toUInt32 <<< 8)
    ||| (block.getD (i * 4 + 3) 0).toUInt32

/-- The array `w[64]` after both filling loops. -/
def messageWords (block : Bytes) : List UInt32 :=
  let w := (List.range 16).foldl (fun w i => w.set i (loadWord block i)) (List.replicate 64 0)
  (List.range' 16 48).foldl
    (fun w i => w.set i (SSIG1 (w.getD (i - 2) 0) + w.getD (i - 7) 0
      + SSIG0 (w.getD (i - 15) 0) + w.getD (i - 16) 0)) w

/-- The locals `a` to `h` of `sha256_block`. -/
structure Vars where
  a : UInt32
  b : UInt32
  c : UInt32
  d : UInt32
  e : UInt32
  f : UInt32
  g : UInt32
  h : UInt32

/-- One pass through the body of the 64-round loop. -/
def roundBody (w : List UInt32) (v : Vars) (i : Nat) : Vars :=
  let t1 := v.h + BSIG1 v.e + CH v.e v.f v.g + K.getD i 0 + w.getD i 0
  let t2 := BSIG0 v.a + MAJ v.a v.b v.c
  { h := v.g, g := v.f, f := v.e, e := v.d + t1, d := v.c, c := v.b, b := v.a, a := t1 + t2 }

/-- `sha256_block`, as a function of `ctx->state` and the 64 bytes it is given. -/
def sha256Block (state : Vector UInt32 8) (block : Bytes) : Vector UInt32 8 :=
  let w := messageWords block
  let v := (List.range 64).foldl (roundBody w)
    ⟨state[0], state[1], state[2], state[3], state[4], state[5], state[6], state[7]⟩
  #v[state[0] + v.a, state[1] + v.b, state[2] + v.c, state[3] + v.d,
     state[4] + v.e, state[5] + v.f, state[6] + v.g, state[7] + v.h]

/-! ## The streaming context -/

structure Sha256Ctx where
  state : Vector UInt32 8
  bitCount : UInt64
  buffer : Bytes
  buffered : Nat

/-- A block-sized buffer with room for at least one more byte. -/
def Sha256Ctx.Valid (ctx : Sha256Ctx) : Prop := ctx.buffer.length = 64 ∧ ctx.buffered < 64

/-- `sha256_init`. The buffer's bytes are whatever the memory held before. -/
def sha256Init (garbage : Vector UInt8 64) : Sha256Ctx where
  state := #v[0x6a09e667, 0xbb67ae85, 0x3c6ef372, 0xa54ff53a,
    0x510e527f, 0x9b05688c, 0x1f83d9ab, 0x5be0cd19]
  bitCount := 0
  buffer := garbage.toList
  buffered := 0

/-- `memcpy(dst + off, src, len)` inside one array. -/
def memcpy (dst : Bytes) (off : Nat) (src : Bytes) : Bytes :=
  dst.take off ++ src ++ dst.drop (off + src.length)

/-- The loop that takes whole blocks straight from the caller's buffer. -/
def wholeBlocks (state : Vector UInt32 8) (p : Bytes) : Vector UInt32 8 × Bytes :=
  if 64 ≤ p.length then wholeBlocks (sha256Block state (p.take 64)) (p.drop 64) else (state, p)
termination_by p.length
decreasing_by simp only [List.length_drop]; omega

/-- The first `if` of `sha256_update`: top up a partial block left over from last time. Returns
the context and the bytes still to be taken. -/
def topUp (ctx : Sha256Ctx) (p : Bytes) : Sha256Ctx × Bytes :=
  if 0 < ctx.buffered then
    let need := SHA256_BLOCK_SIZE - ctx.buffered
    let take := if p.length < need then p.length else need
    let ctx := { ctx with
      buffer := memcpy ctx.buffer ctx.buffered (p.take take)
      buffered := ctx.buffered + take }
    if ctx.buffered = SHA256_BLOCK_SIZE then
      ({ ctx with state := sha256Block ctx.state ctx.buffer, buffered := 0 }, p.drop take)
    else (ctx, p.drop take)
  else (ctx, p)

/-- The rest of `sha256_update`: whole blocks, then keep what is left for next time. -/
def drain (ctx : Sha256Ctx) (p : Bytes) : Sha256Ctx :=
  let (state, p) := wholeBlocks ctx.state p
  let ctx := { ctx with state := state }
  if 0 < p.length then { ctx with buffer := memcpy ctx.buffer 0 p, buffered := p.length } else ctx

def sha256Update (ctx : Sha256Ctx) (data : Bytes) : Sha256Ctx :=
  let ctx := { ctx with bitCount := ctx.bitCount + UInt64.ofNat data.length * 8 }
  let (ctx, p) := topUp ctx data
  drain ctx p

/-! ## What the calls do to the fill level -/

@[simp] theorem memcpy_length {dst src : Bytes} {off : Nat} (h : off + src.length ≤ dst.length) :
    (memcpy dst off src).length = dst.length := by
  simp only [memcpy, List.length_append, List.length_take, List.length_drop]
  omega

theorem wholeBlocks_snd (state : Vector UInt32 8) (p : Bytes) :
    (wholeBlocks state p).2 = p.drop (64 * (p.length / 64)) := by
  induction state, p using wholeBlocks.induct with
  | case1 state p h ih =>
    rw [wholeBlocks, if_pos h, ih, List.length_drop, List.drop_drop]
    congr 1
    omega
  | case2 state p h =>
    rw [wholeBlocks, if_neg h, Nat.div_eq_of_lt (by omega), Nat.mul_zero, List.drop_zero]

/-- Either the new bytes stay in the buffer, or the buffer is emptied and the rest goes on. -/
theorem topUp_cases (ctx : Sha256Ctx) (p : Bytes) (hv : ctx.Valid) :
    (ctx.buffered = 0 ∧ topUp ctx p = (ctx, p)) ∨
    (0 < ctx.buffered ∧ ctx.buffered + p.length < 64 ∧
      topUp ctx p = ({ ctx with
        buffer := memcpy ctx.buffer ctx.buffered p, buffered := ctx.buffered + p.length }, [])) ∨
    (0 < ctx.buffered ∧ 64 ≤ ctx.buffered + p.length ∧
      topUp ctx p = ({ ctx with
        state := sha256Block ctx.state
          (memcpy ctx.buffer ctx.buffered (p.take (64 - ctx.buffered)))
        buffer := memcpy ctx.buffer ctx.buffered (p.take (64 - ctx.buffered))
        buffered := 0 }, p.drop (64 - ctx.buffered))) := by
  obtain ⟨_, hlt⟩ := hv
  by_cases h0 : 0 < ctx.buffered
  · right
    by_cases hshort : p.length < 64 - ctx.buffered
    · left
      refine ⟨h0, by omega, ?_⟩
      have hne : ctx.buffered + p.length ≠ 64 := by omega
      simp [topUp, SHA256_BLOCK_SIZE, h0, hshort, hne]
    · right
      refine ⟨h0, by omega, ?_⟩
      have hfull : ctx.buffered + (64 - ctx.buffered) = 64 := by omega
      simp [topUp, SHA256_BLOCK_SIZE, h0, hshort, hfull]
  · left
    exact ⟨by omega, by simp [topUp, h0]⟩

theorem drain_valid {ctx : Sha256Ctx} (hv : ctx.Valid) (p : Bytes)
    (h : p = [] ∨ ctx.buffered = 0) :
    (drain ctx p).Valid ∧ (drain ctx p).buffered = (ctx.buffered + p.length) % 64 := by
  obtain ⟨hlen, hlt⟩ := hv
  simp only [drain, wholeBlocks_snd, List.length_drop]
  split
  · next hpos =>
    have hb : ctx.buffered = 0 := h.resolve_left (by rintro rfl; simp at hpos)
    refine ⟨⟨?_, ?_⟩, ?_⟩ <;> dsimp only
    · rw [memcpy_length (by rw [List.length_drop]; omega), hlen]
    · omega
    · omega
  · next hpos =>
    refine ⟨⟨hlen, hlt⟩, ?_⟩
    rcases h with rfl | hb <;> dsimp only
    · simp [Nat.mod_eq_of_lt hlt]
    · omega

theorem topUp_valid {ctx : Sha256Ctx} (hv : ctx.Valid) (p : Bytes) :
    (topUp ctx p).1.Valid ∧ ((topUp ctx p).2 = [] ∨ (topUp ctx p).1.buffered = 0) ∧
      ((topUp ctx p).1.buffered + (topUp ctx p).2.length) % 64 = (ctx.buffered + p.length) % 64 := by
  obtain ⟨hlen, hlt⟩ := hv
  rcases topUp_cases ctx p ⟨hlen, hlt⟩ with ⟨h0, h⟩ | ⟨h0, hs, h⟩ | ⟨h0, hs, h⟩ <;> rw [h]
  · exact ⟨⟨hlen, hlt⟩, .inr h0, rfl⟩
  · refine ⟨⟨?_, hs⟩, .inl rfl, by simp⟩
    dsimp only
    rw [memcpy_length (by omega), hlen]
  · refine ⟨⟨?_, by dsimp only; omega⟩, .inr rfl, ?_⟩
    · dsimp only
      rw [memcpy_length (by rw [List.length_take]; omega), hlen]
    · dsimp only
      rw [List.length_drop]
      omega

theorem sha256Update_valid {ctx : Sha256Ctx} (hv : ctx.Valid) (data : Bytes) :
    (sha256Update ctx data).Valid ∧
      (sha256Update ctx data).buffered = (ctx.buffered + data.length) % 64 := by
  obtain ⟨hv', hrest, hmod⟩ := topUp_valid
    (show Sha256Ctx.Valid { ctx with bitCount := ctx.bitCount + UInt64.ofNat data.length * 8 }
      from hv) data
  rw [← hmod]
  exact drain_valid hv' _ hrest

theorem sha256Init_valid (garbage : Vector UInt8 64) : (sha256Init garbage).Valid :=
  ⟨by simp [sha256Init], by simp [sha256Init]⟩

/-! ## `sha256_final` and `sha256_file` -/

/-- `sha256_update` with `ctx->bit_count` put back to `bits` afterwards, as the padding does. -/
def padByte (bits : UInt64) (ctx : Sha256Ctx) (b : UInt8) : Sha256Ctx :=
  { sha256Update ctx [b] with bitCount := bits }

theorem padByte_valid (bits : UInt64) {ctx : Sha256Ctx} (hv : ctx.Valid) (b : UInt8) :
    (padByte bits ctx b).Valid ∧ (padByte bits ctx b).buffered = (ctx.buffered + 1) % 64 :=
  sha256Update_valid hv [b]

/-- The `while (ctx->buffered != SHA256_BLOCK_SIZE - 8)` loop. The measure is the number of zero
bytes still missing, counted round the block boundary. -/
def padZeros (bits : UInt64) (ctx : { c : Sha256Ctx // c.Valid }) : { c : Sha256Ctx // c.Valid } :=
  if ctx.1.buffered = SHA256_BLOCK_SIZE - 8 then ctx
  else padZeros bits ⟨padByte bits ctx.1 0, (padByte_valid bits ctx.2 0).1⟩
termination_by (120 - ctx.1.buffered) % 64
decreasing_by
  have hlt := ctx.2.2
  have hstep := (padByte_valid bits ctx.2 0).2
  simp only [SHA256_BLOCK_SIZE] at *
  omega

/-- `length_bytes`: the bit count, one shift and mask per byte. -/
def lengthBytes (bits : UInt64) : Bytes :=
  (List.range 8).map fun i => ((bits >>> UInt64.ofNat (56 - 8 * i)) &&& 0xFF).toUInt8

/-- The closing loop of `sha256_final`: four shifts and masks per state word. -/
def digestBytes (state : Vector UInt32 8) : Bytes :=
  state.toList.flatMap fun (s : UInt32) =>
    [((s >>> 24) &&& 0xFF).toUInt8, ((s >>> 16) &&& 0xFF).toUInt8,
     ((s >>> 8) &&& 0xFF).toUInt8, (s &&& 0xFF).toUInt8]

def sha256Final (ctx : { c : Sha256Ctx // c.Valid }) : Bytes :=
  let bits := ctx.1.bitCount
  let ctx := padZeros bits ⟨padByte bits ctx.1 0x80, (padByte_valid bits ctx.2 0x80).1⟩
  digestBytes (sha256Update ctx.1 (lengthBytes bits)).state

/-- `sha256_update` on each chunk in turn. -/
def sha256Updates (ctx : { c : Sha256Ctx // c.Valid }) (chunks : List Bytes) :
    { c : Sha256Ctx // c.Valid } :=
  chunks.foldl (fun ctx chunk => ⟨sha256Update ctx.1 chunk, (sha256Update_valid ctx.2 chunk).1⟩) ctx

/-- The `fread` loop of `sha256_file`: blocks of `sizeof(buf)` bytes until a read returns none. -/
def freadChunks (content : Bytes) : List Bytes :=
  if content = [] then []
  else content.take 65536 :: freadChunks (content.drop 65536)
termination_by content.length
decreasing_by
  rename_i h
  have := List.length_pos_iff.mpr h
  simp only [List.length_drop]
  omega

/-- `sha256_file` on a file that opens and reads without error. -/
def sha256FileOf (garbage : Vector UInt8 64) (content : Bytes) : Bytes :=
  sha256Final (sha256Updates ⟨sha256Init garbage, sha256Init_valid garbage⟩ (freadChunks content))

end Retriever.CSha
