/-
# Retriever.Sha256.Refine — the C streaming hash computes FIPS 180-4 SHA-256

`Stream` is the code, `Fips180` the standard. The bridge between them is `Holds ctx m`: the state
words are the standard's intermediate hash value over the whole blocks of `m`, and the live part of
the buffer is the rest of `m`. Every `sha256_update` keeps it (`sha256Update_holds`), whatever the
fill level and however the bytes are cut up, so the padding that `sha256_final` feeds through the
same function is just more message: `padZeros_holds` says how far its loop goes.
-/
import Retriever.Sha256.Fips180
import Retriever.Sha256.Stream
import Mathlib.Tactic.IntervalCases

namespace Retriever.CSha

open Retriever.Fips180 (Regs absorb absorb_add absorb_append compress blockWord schedule
  schedule_length kTable pad)

/-! ## Words -/

theorem ROTR_toBitVec (x n : UInt32) (h0 : 0 < n.toNat) (h : n.toNat < 32) :
    (ROTR x n).toBitVec = x.toBitVec.rotateRight n.toNat := by
  have hr : (n.toBitVec % 32).toNat = n.toNat := by
    rw [BitVec.toNat_umod, UInt32.toNat_toBitVec]
    exact Nat.mod_eq_of_lt h
  have hl : ((32 - n).toBitVec % 32).toNat = 32 - n.toNat := by
    rw [BitVec.toNat_umod, UInt32.toNat_toBitVec, UInt32.toNat_sub_of_le _ _ (by
      rw [UInt32.le_iff_toNat_le]; exact Nat.le_of_lt h)]
    exact Nat.mod_eq_of_lt (show 32 - n.toNat < 32 by omega)
  rw [ROTR, BitVec.rotateRight_def, Nat.mod_eq_of_lt h, UInt32.toBitVec_or,
    UInt32.toBitVec_shiftRight, UInt32.toBitVec_shiftLeft, BitVec.ushiftRight_eq',
    BitVec.shiftLeft_eq', hr, hl]

theorem BSIG0_toBitVec (x : UInt32) : (BSIG0 x).toBitVec = Fips180.bigSigma0 x.toBitVec := by
  simp only [BSIG0, UInt32.toBitVec_xor]
  rw [ROTR_toBitVec x 2 (by decide) (by decide), ROTR_toBitVec x 13 (by decide) (by decide),
    ROTR_toBitVec x 22 (by decide) (by decide)]
  rfl

theorem BSIG1_toBitVec (x : UInt32) : (BSIG1 x).toBitVec = Fips180.bigSigma1 x.toBitVec := by
  simp only [BSIG1, UInt32.toBitVec_xor]
  rw [ROTR_toBitVec x 6 (by decide) (by decide), ROTR_toBitVec x 11 (by decide) (by decide),
    ROTR_toBitVec x 25 (by decide) (by decide)]
  rfl

theorem SSIG0_toBitVec (x : UInt32) : (SSIG0 x).toBitVec = Fips180.smallSigma0 x.toBitVec := by
  simp only [SSIG0, UInt32.toBitVec_xor]
  rw [ROTR_toBitVec x 7 (by decide) (by decide), ROTR_toBitVec x 18 (by decide) (by decide)]
  rfl

theorem SSIG1_toBitVec (x : UInt32) : (SSIG1 x).toBitVec = Fips180.smallSigma1 x.toBitVec := by
  simp only [SSIG1, UInt32.toBitVec_xor]
  rw [ROTR_toBitVec x 17 (by decide) (by decide), ROTR_toBitVec x 19 (by decide) (by decide)]
  rfl

theorem K_toBitVec (i : Nat) : (K.getD i 0).toBitVec = kTable.getD i 0 := by
  have hmap : kTable = K.map UInt32.toBitVec := rfl
  rw [hmap, show (0 : BitVec 32) = UInt32.toBitVec 0 from rfl, List.getD_map]

/-! ## One block -/

/-- The state words as the standard's eight-word hash value. -/
def regsOf (s : Vector UInt32 8) : Regs :=
  ⟨(s.get 0).toBitVec, (s.get 1).toBitVec, (s.get 2).toBitVec, (s.get 3).toBitVec,
   (s.get 4).toBitVec, (s.get 5).toBitVec, (s.get 6).toBitVec, (s.get 7).toBitVec⟩

theorem byteShift_toNat (b : UInt8) (k : UInt32) (hk : k.toNat ≤ 24) :
    (b.toUInt32 <<< k).toNat = 2 ^ k.toNat * b.toNat := by
  have hb := b.toNat_lt
  have hp : 2 ^ k.toNat ≤ 2 ^ 24 := Nat.pow_le_pow_right (by decide) hk
  rw [UInt32.toNat_shiftLeft, UInt8.toNat_toUInt32, Nat.mod_eq_of_lt (show k.toNat < 32 by omega),
    Nat.shiftLeft_eq, Nat.mul_comm, Nat.mod_eq_of_lt]
  calc 2 ^ k.toNat * b.toNat ≤ 2 ^ 24 * b.toNat := Nat.mul_le_mul_right _ hp
    _ < 2 ^ 32 := by omega

/-- Four bytes shifted into place and or-ed together are their big-endian value. -/
theorem shiftOr_toNat (b0 b1 b2 b3 : UInt8) :
    ((b0.toUInt32 <<< 24) ||| (b1.toUInt32 <<< 16) ||| (b2.toUInt32 <<< 8) ||| b3.toUInt32).toNat
      = ofBE [b0, b1, b2, b3] := by
  have h1 := b1.toNat_lt
  have h2 := b2.toNat_lt
  have h3 := b3.toNat_lt
  have e1 := Nat.two_pow_add_eq_or_of_lt (i := 24) (b := 2 ^ 16 * b1.toNat) (by omega) b0.toNat
  have e2 := Nat.two_pow_add_eq_or_of_lt (i := 16) (b := 2 ^ 8 * b2.toNat) (by omega)
    (2 ^ 8 * b0.toNat + b1.toNat)
  have e3 := Nat.two_pow_add_eq_or_of_lt (i := 8) (b := b3.toNat) (by omega)
    (2 ^ 16 * b0.toNat + 2 ^ 8 * b1.toNat + b2.toNat)
  simp only [UInt32.toNat_or, byteShift_toNat _ 24 (by decide), byteShift_toNat _ 16 (by decide),
    byteShift_toNat _ 8 (by decide), UInt8.toNat_toUInt32]
  rw [show (24 : UInt32).toNat = 24 from rfl, show (16 : UInt32).toNat = 16 from rfl,
    show (8 : UInt32).toNat = 8 from rfl, ← e1,
    show 2 ^ 24 * b0.toNat + 2 ^ 16 * b1.toNat = 2 ^ 16 * (2 ^ 8 * b0.toNat + b1.toNat) by omega,
    ← e2,
    show 2 ^ 16 * (2 ^ 8 * b0.toNat + b1.toNat) + 2 ^ 8 * b2.toNat
      = 2 ^ 8 * (2 ^ 16 * b0.toNat + 2 ^ 8 * b1.toNat + b2.toNat) by omega, ← e3]
  simp only [ofBE, List.foldl_cons, List.foldl_nil]
  omega

theorem blockBytes_eq {block : Bytes} (h : block.length = 64) {i : Nat} (hi : i < 16) :
    (block.drop (4 * i)).take 4
      = [block.getD (i * 4) 0, block.getD (i * 4 + 1) 0, block.getD (i * 4 + 2) 0,
         block.getD (i * 4 + 3) 0] := by
  apply List.ext_getElem
  · simp only [List.length_take, List.length_drop, List.length_cons, List.length_nil]
    omega
  · intro j h1 h2
    simp only [List.length_cons, List.length_nil] at h2
    have hj : 4 * i + j < block.length := by omega
    have hget : block.getD (i * 4 + j) 0 = block[4 * i + j] := by
      rw [Nat.mul_comm, List.getD_eq_getElem _ _ hj]
    rw [List.getElem_take, List.getElem_drop, ← hget]
    interval_cases j <;> rfl

theorem loadWord_toBitVec {block : Bytes} (h : block.length = 64) {i : Nat} (hi : i < 16) :
    (loadWord block i).toBitVec = blockWord block i := by
  apply BitVec.eq_of_toNat_eq
  rw [blockWord, blockBytes_eq h hi, loadWord, UInt32.toNat_toBitVec, shiftOr_toNat,
    BitVec.toNat_ofNat]
  have hlt := ofBE_lt [block.getD (i * 4) 0, block.getD (i * 4 + 1) 0, block.getD (i * 4 + 2) 0,
    block.getD (i * 4 + 3) 0]
  simp only [List.length_cons, List.length_nil] at hlt
  omega

/-- Filling the first `n` places of an array in order. -/
theorem foldl_set_range {α : Type} (f : Nat → α) (init : List α) (n : Nat) (h : n ≤ init.length) :
    (List.range n).foldl (fun w i => w.set i (f i)) init
      = (List.range n).map f ++ init.drop n := by
  induction n with
  | zero => simp
  | succ n ih =>
    rw [List.range_succ, List.foldl_append, ih (by omega), List.map_append]
    simp only [List.foldl_cons, List.foldl_nil, List.map_cons, List.map_nil]
    rw [List.set_append_right _ _ (by simp), List.length_map, List.length_range, Nat.sub_self,
      List.drop_eq_getElem_cons (by omega), List.set_cons_zero, List.append_assoc]
    rfl

/-- The second filling loop of `sha256_block` extends the schedule by one word per pass. -/
theorem extendLoop_toBitVec (block : Bytes) (w : List UInt32) (k n : Nat)
    (hw : w.map UInt32.toBitVec = schedule block 0 ++ List.replicate (n + k) 0) :
    ((List.range' 16 n).foldl
      (fun w i => w.set i (SSIG1 (w.getD (i - 2) 0) + w.getD (i - 7) 0
        + SSIG0 (w.getD (i - 15) 0) + w.getD (i - 16) 0)) w).map UInt32.toBitVec
      = schedule block n ++ List.replicate k 0 := by
  induction n generalizing k with
  | zero => simpa using hw
  | succ n ih =>
    rw [List.range'_concat, List.foldl_append]
    have ih' := ih (k + 1) (by rwa [show n + (k + 1) = n + 1 + k by omega])
    set v := (List.range' 16 n).foldl _ w with hv
    have hget : ∀ j, (v.getD j 0).toBitVec = (schedule block n).getD j 0 := by
      intro j
      have hlen := schedule_length block n
      rw [← List.getD_map (f := UInt32.toBitVec), ih']
      by_cases hj : j < n + 16
      · rw [List.getD_append _ _ _ _ (by omega)]; rfl
      · rw [List.getD_append_right _ _ _ _ (by omega), List.getD_eq_default (schedule _ _) _ (by omega)]
        simp only [List.getD_eq_getElem?_getD, List.getElem?_replicate]
        split <;> rfl
    simp only [List.foldl_cons, List.foldl_nil, List.map_set, ih', Nat.one_mul]
    rw [List.set_append_right _ _ (by simp; omega), schedule, List.append_assoc]
    congr 1
    simp only [schedule_length, UInt32.toBitVec_add, SSIG0_toBitVec, SSIG1_toBitVec, hget]
    rw [show 16 + n - (n + 16) = 0 by omega, List.replicate_succ, List.set_cons_zero,
      show 16 + n - 2 = n + 14 by omega, show 16 + n - 7 = n + 9 by omega,
      show 16 + n - 15 = n + 1 by omega, show 16 + n - 16 = n by omega]
    rfl

theorem messageWords_toBitVec {block : Bytes} (h : block.length = 64) :
    (messageWords block).map UInt32.toBitVec = schedule block 48 := by
  rw [messageWords]
  have hfill : ((List.range 16).foldl (fun w i => w.set i (loadWord block i))
      (List.replicate 64 (0 : UInt32))).map UInt32.toBitVec
      = schedule block 0 ++ List.replicate (48 + 0) 0 := by
    rw [foldl_set_range _ _ _ (by simp), List.map_append, List.map_map, schedule]
    congr 1
    exact List.map_congr_left fun i hi => loadWord_toBitVec h (List.mem_range.mp hi)
  simpa using extendLoop_toBitVec block _ 0 48 hfill

/-- The locals `a` to `h` as the standard's working variables. -/
def Vars.toRegs (v : Vars) : Regs :=
  ⟨v.a.toBitVec, v.b.toBitVec, v.c.toBitVec, v.d.toBitVec,
   v.e.toBitVec, v.f.toBitVec, v.g.toBitVec, v.h.toBitVec⟩

theorem roundBody_toRegs (w : List UInt32) (v : Vars) (i : Nat) :
    (roundBody w v i).toRegs
      = Fips180.round v.toRegs (kTable.getD i 0) ((w.map UInt32.toBitVec).getD i 0) := by
  have hw : (w.getD i 0).toBitVec = (w.map UInt32.toBitVec).getD i 0 := by
    rw [show (0 : BitVec 32) = UInt32.toBitVec 0 from rfl, List.getD_map]
  simp only [roundBody, Vars.toRegs, Fips180.round, UInt32.toBitVec_add, BSIG0_toBitVec,
    BSIG1_toBitVec, K_toBitVec, hw]
  rfl

theorem rounds_toRegs (w : List UInt32) (v : Vars) (is : List Nat) :
    (is.foldl (roundBody w) v).toRegs
      = is.foldl (fun r t => Fips180.round r (kTable.getD t 0)
          ((w.map UInt32.toBitVec).getD t 0)) v.toRegs := by
  induction is generalizing v with
  | nil => rfl
  | cons i is ih => rw [List.foldl_cons, List.foldl_cons, ih, roundBody_toRegs]

/-- **One block.** `sha256_block` is the standard's compression of that block. -/
theorem sha256Block_regsOf (state : Vector UInt32 8) {block : Bytes} (h : block.length = 64) :
    regsOf (sha256Block state block) = compress (regsOf state) block := by
  have hr := rounds_toRegs (messageWords block)
    ⟨state[0], state[1], state[2], state[3], state[4], state[5], state[6], state[7]⟩ (List.range 64)
  rw [messageWords_toBitVec h] at hr
  have hv : ∀ v : Vars, v.toRegs = Fips180.rounds block (regsOf state) →
      (⟨(state.get 0 + v.a).toBitVec, (state.get 1 + v.b).toBitVec, (state.get 2 + v.c).toBitVec,
        (state.get 3 + v.d).toBitVec, (state.get 4 + v.e).toBitVec, (state.get 5 + v.f).toBitVec,
        (state.get 6 + v.g).toBitVec, (state.get 7 + v.h).toBitVec⟩ : Regs)
        = compress (regsOf state) block := by
    intro v hv
    simp only [compress, ← hv, UInt32.toBitVec_add]
    simp only [regsOf, Vars.toRegs, BitVec.add_comm]
  exact hv _ hr

/-! ## The live part of the buffer -/

/-- The bytes of `m` after its last whole block. -/
def residue (m : Bytes) : Bytes := m.drop (64 * (m.length / 64))

/-- The standard's hash value over the whole blocks of `m`, starting from `r`. -/
def absorbAll (r : Regs) (m : Bytes) : Regs := absorb (m.length / 64) r m

@[simp] theorem residue_length (m : Bytes) : (residue m).length = m.length % 64 := by
  rw [residue, List.length_drop]
  omega

theorem residue_short {m : Bytes} (h : m.length < 64) : residue m = m := by
  rw [residue, Nat.div_eq_of_lt h, Nat.mul_zero, List.drop_zero]

theorem absorbAll_short (r : Regs) {m : Bytes} (h : m.length < 64) : absorbAll r m = r := by
  rw [absorbAll, Nat.div_eq_of_lt h, absorb]

theorem residue_residue_append (m d : Bytes) : residue (residue m ++ d) = residue (m ++ d) := by
  simp only [residue, List.length_append, List.length_drop]
  have hfront : m.drop (64 * (m.length / 64)) ++ d = (m ++ d).drop (64 * (m.length / 64)) :=
    (List.drop_append_of_le_length (by omega)).symm
  rw [hfront, List.drop_drop]
  congr 1
  omega

/-- Hashing what is already there first, and the rest with the left-over bytes in front of it. -/
theorem absorbAll_append (r : Regs) (m d : Bytes) :
    absorbAll r (m ++ d) = absorbAll (absorbAll r m) (residue m ++ d) := by
  have hm : m = m.take (64 * (m.length / 64)) ++ residue m := by
    rw [residue, List.take_append_drop]
  have hlen : (m.take (64 * (m.length / 64))).length = 64 * (m.length / 64) := by
    rw [List.length_take]
    omega
  have hpre : absorb (m.length / 64) r (m ++ d) = absorb (m.length / 64) r m := by
    have h1 := absorb_append (m.length / 64) r _ (residue m ++ d) hlen
    have h2 := absorb_append (m.length / 64) r _ (residue m) hlen
    rwa [← List.append_assoc, ← hm, ← h2, ← hm] at h1
  have hcount : (m ++ d).length / 64 = m.length / 64 + (residue m ++ d).length / 64 := by
    simp only [List.length_append, residue_length]
    omega
  rw [absorbAll, hcount, absorb_add, hpre,
    List.drop_append_of_le_length (show 64 * (m.length / 64) ≤ m.length by omega)]
  rfl

theorem absorbAll_block (r : Regs) {b : Bytes} (h : b.length = 64) (d : Bytes) :
    absorbAll r (b ++ d) = absorbAll (compress r b) d ∧ residue (b ++ d) = residue d := by
  have hres : residue b = [] := List.eq_nil_of_length_eq_zero (by simp [h])
  have habs : absorbAll r b = compress r b := by
    rw [absorbAll, h]
    simp only [absorb, Nat.reduceDiv]
    rw [List.take_of_length_le (by omega)]
  constructor
  · rw [absorbAll_append, hres, habs, List.nil_append]
  · rw [← residue_residue_append, hres, List.nil_append]

theorem wholeBlocks_spec (state : Vector UInt32 8) (p : Bytes) :
    regsOf (wholeBlocks state p).1 = absorbAll (regsOf state) p ∧
      (wholeBlocks state p).2 = residue p := by
  refine ⟨?_, wholeBlocks_snd state p⟩
  induction state, p using wholeBlocks.induct with
  | case1 state p h ih =>
    have hb : (p.take 64).length = 64 := by rw [List.length_take]; omega
    have hsplit := absorbAll_block (regsOf state) hb (p.drop 64)
    rw [List.take_append_drop] at hsplit
    rw [wholeBlocks, if_pos h, ih, sha256Block_regsOf state hb, hsplit.1]
  | case2 state p h =>
    rw [wholeBlocks, if_neg h, absorbAll_short _ (by omega)]

/-! ## The stream invariant -/

/-- The context has taken in exactly the bytes of `m`. -/
structure Holds (ctx : Sha256Ctx) (m : Bytes) : Prop where
  valid : ctx.Valid
  state : regsOf ctx.state = absorbAll Fips180.initialHash m
  buffer : ctx.buffer.take ctx.buffered = residue m
  buffered : ctx.buffered = m.length % 64

theorem sha256Init_holds (garbage : Vector UInt8 64) : Holds (sha256Init garbage) [] where
  valid := sha256Init_valid garbage
  state := rfl
  buffer := rfl
  buffered := rfl

theorem take_memcpy (dst src : Bytes) {off : Nat} (h : off ≤ dst.length) :
    (memcpy dst off src).take (off + src.length) = dst.take off ++ src := by
  have hoff : (dst.take off).length = off := by rw [List.length_take]; omega
  rw [memcpy, List.take_append_of_le_length (by simp; omega), List.take_of_length_le (by simp)]

/-- What `drain` leaves, when the bytes in front of `p` are exactly the live part of the buffer:
either the buffer is empty or there is nothing more to take. -/
theorem drain_holds {ctx : Sha256Ctx} {m p : Bytes} (h : Holds ctx m)
    (hp : p = [] ∨ ctx.buffered = 0) : Holds (drain ctx p) (m ++ p) := by
  have hvalid := drain_valid h.valid p hp
  rcases hp with rfl | h0
  · have hdrain : drain ctx [] = ctx := by
      simp [drain, wholeBlocks]
    rwa [hdrain, List.append_nil]
  · have hm : residue m = [] := by
      rw [← h.buffer, h0, List.take_zero]
    have hstate : absorbAll Fips180.initialHash (m ++ p) = absorbAll (regsOf ctx.state) p := by
      rw [absorbAll_append, hm, List.nil_append, h.state]
    have hres : residue (m ++ p) = residue p := by
      rw [← residue_residue_append, hm, List.nil_append]
    obtain ⟨hfst, hsnd⟩ := wholeBlocks_spec ctx.state p
    refine ⟨hvalid.1, ?_, ?_, ?_⟩
    · rw [hstate, ← hfst]
      simp only [drain]
      split <;> rfl
    · rw [hres, drain]
      dsimp only
      rw [hsnd]
      split
      · have htake := take_memcpy ctx.buffer (residue p) (Nat.zero_le _)
        rwa [List.take_zero, List.nil_append, Nat.zero_add] at htake
      · next hempty =>
        have : residue p = [] := List.eq_nil_of_length_eq_zero (by omega)
        rw [this]
        simp [h0]
    · rw [hvalid.2, h.buffered, List.length_append]
      omega

theorem topUp_holds {ctx : Sha256Ctx} {m : Bytes} (h : Holds ctx m) (data : Bytes) :
    ∃ taken, data = taken ++ (topUp ctx data).2 ∧ Holds (topUp ctx data).1 (m ++ taken) := by
  have hv := h.valid
  have hbuf : ctx.buffered ≤ ctx.buffer.length := by rw [hv.1]; exact Nat.le_of_lt hv.2
  have hvalid := topUp_valid hv data
  rcases topUp_cases ctx data hv with ⟨h0, he⟩ | ⟨h0, hs, he⟩ | ⟨h0, hs, he⟩ <;> rw [he] at hvalid ⊢
  · exact ⟨[], by simp, by rwa [List.append_nil]⟩
  · refine ⟨data, by simp, hvalid.1, ?_, ?_, ?_⟩ <;> dsimp only
    · rw [absorbAll_append, ← h.buffer, absorbAll_short _ (by simp; omega), h.state]
    · rw [take_memcpy _ _ hbuf, h.buffer, ← residue_residue_append,
        residue_short (m := residue m ++ data)
          (by simp only [List.length_append, residue_length]; rw [← h.buffered]; exact hs)]
    · rw [List.length_append, ← Nat.mod_add_mod, ← h.buffered, Nat.mod_eq_of_lt hs]
  · have hfull : (data.take (64 - ctx.buffered)).length = 64 - ctx.buffered := by
      rw [List.length_take]; omega
    have hle : ctx.buffered + (64 - ctx.buffered) ≤ 64 := by
      have := hv.2
      omega
    have hblock : memcpy ctx.buffer ctx.buffered (data.take (64 - ctx.buffered))
        = residue m ++ data.take (64 - ctx.buffered) := by
      have ht := take_memcpy ctx.buffer (data.take (64 - ctx.buffered)) hbuf
      rwa [h.buffer, List.take_of_length_le (by
        rw [memcpy_length (by rw [hfull, hv.1]; exact hle), hv.1, hfull]; omega)] at ht
    have hblen : (residue m ++ data.take (64 - ctx.buffered)).length = 64 := by
      rw [List.length_append, residue_length, hfull, ← h.buffered]
      have := hv.2
      omega
    obtain ⟨habs, hres⟩ := absorbAll_block (regsOf ctx.state) hblen []
    rw [List.append_nil] at habs hres
    refine ⟨data.take (64 - ctx.buffered), (List.take_append_drop _ _).symm, hvalid.1, ?_, ?_, ?_⟩ <;>
      dsimp only
    · rw [hblock, sha256Block_regsOf _ hblen, absorbAll_append, ← h.state, habs,
        absorbAll_short _ (by simp)]
    · rw [← residue_residue_append, hres]
      rfl
    · rw [List.length_append, hfull, h.buffered]
      have := hv.2
      omega

/-- **The streaming step.** Whatever the fill level, `sha256_update` takes in exactly its bytes. -/
theorem sha256Update_holds {ctx : Sha256Ctx} {m : Bytes} (h : Holds ctx m) (data : Bytes) :
    Holds (sha256Update ctx data) (m ++ data) := by
  have h' : Holds { ctx with bitCount := ctx.bitCount + UInt64.ofNat data.length * 8 } m :=
    ⟨h.valid, h.state, h.buffer, h.buffered⟩
  obtain ⟨taken, hsplit, htop⟩ := topUp_holds h' data
  have hdrain := drain_holds htop (topUp_valid h'.valid data).2.1
  rwa [List.append_assoc, ← hsplit] at hdrain

theorem sha256Update_bitCount (ctx : Sha256Ctx) (data : Bytes) :
    (sha256Update ctx data).bitCount = ctx.bitCount + UInt64.ofNat data.length * 8 := by
  have htop : ∀ (c : Sha256Ctx) (p : Bytes), (topUp c p).1.bitCount = c.bitCount := by
    intro c p
    unfold topUp
    dsimp only
    split
    · split_ifs <;> rfl
    · rfl
  have hdrain : ∀ (c : Sha256Ctx) (p : Bytes), (drain c p).bitCount = c.bitCount := by
    intro c p
    simp only [drain]
    split <;> rfl
  rw [sha256Update]
  dsimp only
  rw [hdrain, htop]

theorem sha256Updates_holds (ctx : { c : Sha256Ctx // c.Valid }) (m : Bytes)
    (h : Holds ctx.1 m) (hbits : ctx.1.bitCount = UInt64.ofNat (8 * m.length))
    (chunks : List Bytes) :
    Holds (sha256Updates ctx chunks).1 (m ++ chunks.flatten) ∧
      (sha256Updates ctx chunks).1.bitCount = UInt64.ofNat (8 * (m ++ chunks.flatten).length) := by
  induction chunks generalizing ctx m with
  | nil =>
    rw [List.flatten_nil, List.append_nil]
    exact ⟨h, hbits⟩
  | cons c cs ih =>
    have hstep := sha256Update_holds h c
    have hcount : (sha256Update ctx.1 c).bitCount = UInt64.ofNat (8 * (m ++ c).length) := by
      rw [sha256Update_bitCount, hbits, List.length_append, Nat.mul_add, UInt64.ofNat_add,
        Nat.mul_comm 8 c.length, UInt64.ofNat_mul c.length 8]
      rfl
    have := ih ⟨sha256Update ctx.1 c, (sha256Update_valid ctx.2 c).1⟩ (m ++ c) hstep hcount
    simpa [sha256Updates, List.append_assoc] using this

/-! ## Padding -/

theorem padByte_holds (bits : UInt64) {ctx : Sha256Ctx} {m : Bytes} (h : Holds ctx m) (b : UInt8) :
    Holds (padByte bits ctx b) (m ++ [b]) := by
  obtain ⟨h1, h2, h3, h4⟩ := sha256Update_holds h [b]
  exact ⟨h1, h2, h3, h4⟩

/-- The zero loop appends the fewest zeros that bring the length to 56 modulo 64. -/
theorem padZeros_holds (bits : UInt64) (ctx : { c : Sha256Ctx // c.Valid }) (m : Bytes)
    (h : Holds ctx.1 m) :
    Holds (padZeros bits ctx).1 (m ++ List.replicate ((120 - m.length % 64) % 64) 0) := by
  induction ctx using padZeros.induct bits generalizing m with
  | case1 ctx hdone =>
    have hm : m.length % 64 = 56 := by rw [← h.buffered, hdone]; rfl
    rw [padZeros, if_pos hdone, hm]
    simpa using h
  | case2 ctx hmore ih =>
    have hm : m.length % 64 ≠ 56 := by rw [← h.buffered]; exact hmore
    have hnext := ih (m ++ [0]) (padByte_holds bits h 0)
    rw [padZeros, if_neg hmore]
    have hcount : (120 - m.length % 64) % 64 = (120 - (m ++ [(0 : UInt8)]).length % 64) % 64 + 1 := by
      rw [List.length_append, List.length_singleton]
      omega
    rw [hcount, List.replicate_succ]
    simpa [List.append_assoc] using hnext

theorem lengthBytes_eq (bits : UInt64) : lengthBytes bits = toBE 8 bits.toNat := by
  rw [toBE_eq_shifts, lengthBytes]
  apply List.map_congr_left
  intro i hi
  have hi8 : i < 8 := List.mem_range.mp hi
  have hsh : (UInt64.ofNat (56 - 8 * i)).toNat = 56 - 8 * i :=
    UInt64.toNat_ofNat_of_lt' (by simp only [UInt64.size]; omega)
  apply UInt8.toNat_inj.mp
  rw [UInt64.toNat_toUInt8, UInt64.toNat_and, UInt64.toNat_shiftRight, hsh, UInt8.toNat_ofNat',
    Nat.mod_eq_of_lt (show 56 - 8 * i < 64 by omega), show 56 - 8 * i = 8 * (8 - 1 - i) by omega,
    show (0xFF : UInt64).toNat = 2 ^ 8 - 1 from rfl, Nat.and_two_pow_sub_one_eq_mod,
    Nat.mod_mod]

theorem wordBytes_eq (s : UInt32) :
    [((s >>> 24) &&& 0xFF).toUInt8, ((s >>> 16) &&& 0xFF).toUInt8,
      ((s >>> 8) &&& 0xFF).toUInt8, (s &&& 0xFF).toUInt8] = toBE 4 s.toBitVec.toNat := by
  have hmask : ∀ x : UInt32, (x &&& 0xFF).toUInt8 = UInt8.ofNat x.toNat := by
    intro x
    apply UInt8.toNat_inj.mp
    rw [UInt32.toNat_toUInt8, UInt32.toNat_and, UInt8.toNat_ofNat',
      show (0xFF : UInt32).toNat = 2 ^ 8 - 1 from rfl, Nat.and_two_pow_sub_one_eq_mod, Nat.mod_mod]
  rw [toBE_eq_shifts, UInt32.toNat_toBitVec]
  simp only [hmask, UInt32.toNat_shiftRight]
  rfl

theorem digestBytes_eq (state : Vector UInt32 8) :
    digestBytes state = Fips180.digestOf (regsOf state) := by
  have hlist : state.toList
      = [state.get 0, state.get 1, state.get 2, state.get 3, state.get 4, state.get 5, state.get 6,
        state.get 7] := by
    apply List.ext_getElem
    · simp
    · intro i h1 h2
      rw [Vector.getElem_toList]
      simp only [List.length_cons, List.length_nil] at h2
      interval_cases i <;> rfl
  simp only [digestBytes, hlist, Fips180.digestOf, Regs.toList, regsOf, wordBytes_eq,
    List.flatMap_cons, List.flatMap_nil]

/-- `sha256_final` on a context that has taken in `m` writes the digest of `m`. -/
theorem sha256Final_eq (ctx : { c : Sha256Ctx // c.Valid }) (m : Bytes) (h : Holds ctx.1 m)
    (hbits : ctx.1.bitCount = UInt64.ofNat (8 * m.length)) :
    sha256Final ctx = Fips180.sha256 m := by
  have hone := padByte_holds ctx.1.bitCount h 0x80
  have hzeros := padZeros_holds ctx.1.bitCount
    ⟨padByte ctx.1.bitCount ctx.1 0x80, (padByte_valid ctx.1.bitCount ctx.2 0x80).1⟩ _ hone
  have hall := sha256Update_holds hzeros (lengthBytes ctx.1.bitCount)
  have hlen : lengthBytes ctx.1.bitCount = toBE 8 (8 * m.length) := by
    rw [lengthBytes_eq, hbits, UInt64.toNat_ofNat', ← toBE_mod 8 (8 * m.length),
      show 256 ^ 8 = 2 ^ 64 by decide]
  have hpad : m ++ [0x80] ++ List.replicate ((120 - (m ++ [(0x80 : UInt8)]).length % 64) % 64) 0
      ++ toBE 8 (8 * m.length) = pad m := by
    rw [pad, List.length_append, List.length_singleton,
      show (120 - (m.length + 1) % 64) % 64 = (119 - m.length % 64) % 64 by omega]
    simp
  rw [hlen, hpad] at hall
  rw [sha256Final, digestBytes_eq, hlen, hall.state]
  rfl

theorem freadChunks_flatten (content : Bytes) : (freadChunks content).flatten = content := by
  induction content using freadChunks.induct with
  | case1 => simp [freadChunks]
  | case2 content h ih => rw [freadChunks, if_neg h, List.flatten_cons, ih, List.take_append_drop]

/-- `sha256_init`, `sha256_update` on each chunk and `sha256_final`. -/
theorem sha256Chunks_eq (garbage : Vector UInt8 64) (chunks : List Bytes) :
    sha256Final (sha256Updates ⟨sha256Init garbage, sha256Init_valid garbage⟩ chunks)
      = Fips180.sha256 chunks.flatten := by
  have h := sha256Updates_holds ⟨sha256Init garbage, sha256Init_valid garbage⟩ []
    (sha256Init_holds garbage) rfl chunks
  rw [List.nil_append] at h
  exact sha256Final_eq _ _ h.1 h.2

theorem sha256FileOf_eq (garbage : Vector UInt8 64) (content : Bytes) :
    sha256FileOf garbage content = Fips180.sha256 content := by
  rw [sha256FileOf, sha256Chunks_eq, freadChunks_flatten]

/-- **The C hash is SHA-256.** For every list of chunks, of any number and any lengths,
`sha256_init`, `sha256_update` on each chunk in order and `sha256_final` write the FIPS 180-4 digest
of the concatenation, and `sha256_file` with its 64 KiB reads writes the digest of the whole
content. Every function here is total, so the calls return; below 2^61 bytes the length field is
the true bit length, and above it both sides keep its low 64 bits. -/
theorem sha256_stream_eq_fips (garbage : Vector UInt8 64) (chunks : List Bytes) (content : Bytes) :
    sha256Final (sha256Updates ⟨sha256Init garbage, sha256Init_valid garbage⟩ chunks)
        = Fips180.sha256 chunks.flatten ∧
      sha256FileOf garbage content = Fips180.sha256 content :=
  ⟨sha256Chunks_eq garbage chunks, sha256FileOf_eq garbage content⟩

end Retriever.CSha
