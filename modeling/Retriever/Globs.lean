/-
# Retriever.Globs — what a pattern finds

`glob` matches code points, the kernel has bytes. Decoding loses nothing (`fsencode_fsdecode`), and an
ASCII byte is a code point of its own wherever it stands (`fsdecode_append`), so what an escaped name
matches can be said in bytes: itself (`fnmatch_partialPattern`). A pattern whose directory part has
no magic characters finds the entries of that directory that match (`glob_dir`).
-/
import Mathlib.Data.List.Infix
import Retriever.Paths
import Retriever.Protocol

namespace Retriever

/-! ## Decoding and encoding -/

/-- `os.fsencode`, from code points. -/
def fsencode (cs : List Nat) : Bytes :=
  cs.flatMap fun c =>
    if 0xDC80 ≤ c ∧ c ≤ 0xDCFF then [UInt8.ofNat (c - 0xDC00)] else String.utf8EncodeChar (Char.ofNat c)

theorem fsencode_append (a b : List Nat) : fsencode (a ++ b) = fsencode a ++ fsencode b :=
  List.flatMap_append

/-- The bytes of a sequence of which `need` bytes are missing and whose value so far is `cp`. -/
def pendingOf (need cp : Nat) : Bytes :=
  if need = 3 then [UInt8.ofNat (0xF0 + cp)]
  else if need = 2 then
    if cp < 16 then [UInt8.ofNat (0xE0 + cp)]
    else [UInt8.ofNat (0xF0 + cp / 64), UInt8.ofNat (0x80 + cp % 64)]
  else
    if cp < 32 then [UInt8.ofNat (0xC0 + cp)]
    else if cp < 1024 then [UInt8.ofNat (0xE0 + cp / 64), UInt8.ofNat (0x80 + cp % 64)]
    else [UInt8.ofNat (0xF0 + cp / 4096), UInt8.ofNat (0x80 + cp / 64 % 64),
      UInt8.ofNat (0x80 + cp % 64)]

/-- The states of the decoder: nothing is pending, or the front of a sequence that can still become a
character. The values leave out overlong forms and surrogates. -/
structure Utf8State.Sound (s : Utf8State) : Prop where
  bytes : s.need ≠ 0 → s.pending = pendingOf s.need s.cp
  range : s.need ≠ 0 → 0x80 ≤ s.lo ∧ s.hi ≤ 0xBF
  one : s.need = 1 → (2 ≤ s.cp ∧ s.cp < 864) ∨ (896 ≤ s.cp ∧ s.cp < 17408)
  two : s.need = 2 → (s.cp = 0 ∧ s.lo = 0xA0) ∨ (1 ≤ s.cp ∧ s.cp < 13) ∨ (s.cp = 13 ∧ s.hi = 0x9F) ∨
    (14 ≤ s.cp ∧ s.cp < 272)
  three : s.need = 3 → (s.cp = 0 ∧ s.lo = 0x90) ∨ (1 ≤ s.cp ∧ s.cp < 4) ∨ (s.cp = 4 ∧ s.hi = 0x8F)
  few : s.need ≤ 3

theorem Utf8State.Sound.start : Utf8State.Sound .start where
  bytes h := absurd rfl h
  range h := absurd rfl h
  one h := by cases h
  two h := by cases h
  three h := by cases h
  few := Nat.zero_le _

/-- The bytes of what has been decoded. -/
def unitBytes (us : List (Except Bytes Char)) : Bytes :=
  us.flatMap fun
    | .ok c => String.utf8EncodeChar c
    | .error bad => bad

/-- The bytes that are pending in a state. -/
def Utf8State.held (s : Utf8State) : Bytes := if s.need = 0 then [] else s.pending

theorem char_ofNat_toNat {n : Nat} (h : n < 0xD800 ∨ (0xE000 ≤ n ∧ n < 0x110000)) :
    (Char.ofNat n).toNat = n := by
  have hv : n.isValidChar := by
    rcases h with h | h
    · exact .inl h
    · exact .inr ⟨by omega, h.2⟩
  rw [Char.ofNat, dif_pos hv]
  show (UInt32.ofNatLT n _).toNat = n
  simp

theorem utf8EncodeChar_ascii {n : Nat} (h : n < 128) :
    String.utf8EncodeChar (Char.ofNat n) = [UInt8.ofNat n] := by
  have hn : (Char.ofNat n).val.toNat = n := char_ofNat_toNat (.inl (by omega))
  unfold String.utf8EncodeChar
  simp only [hn]
  rw [if_pos (by omega)]

/-- A first byte is decoded, refused, or pending. -/
theorem utf8Lead_spec (b : UInt8) : (utf8Lead b).2.Sound ∧
    unitBytes (utf8Lead b).1 ++ (utf8Lead b).2.held = [b] := by
  have hb : UInt8.ofNat b.toNat = b := UInt8.ofNat_toNat
  unfold utf8Lead
  simp only
  split
  · next h =>
    refine ⟨.start, ?_⟩
    show unitBytes [.ok _] ++ [] = _
    rw [List.append_nil]
    show String.utf8EncodeChar _ ++ [] = _
    rw [List.append_nil, utf8EncodeChar_ascii h, hb]
  split
  · next h =>
    refine ⟨⟨?_, ?_, ?_, ?_, ?_, ?_⟩, rfl⟩
    · intro _
      show [b] = pendingOf 1 (b.toNat - 0xC0)
      rw [pendingOf, if_neg (by decide), if_neg (by decide), if_pos (by omega),
        show 0xC0 + (b.toNat - 0xC0) = b.toNat by omega, hb]
    · intro _
      exact ⟨Nat.le_refl 0x80, Nat.le_refl 0xBF⟩
    · intro _
      show (2 ≤ b.toNat - 0xC0 ∧ b.toNat - 0xC0 < 864) ∨ _
      omega
    · rintro ⟨⟩
    · rintro ⟨⟩
    · show 1 ≤ 3
      decide
  split
  · next h =>
    refine ⟨⟨?_, ?_, ?_, ?_, ?_, ?_⟩, rfl⟩
    · intro _
      show [b] = pendingOf 2 (b.toNat - 0xE0)
      rw [pendingOf, if_neg (by decide), if_pos rfl, if_pos (by omega),
        show 0xE0 + (b.toNat - 0xE0) = b.toNat by omega, hb]
    · intro _
      simp only
      constructor <;> split <;> omega
    · rintro ⟨⟩
    · intro _
      simp only
      split <;> split <;> omega
    · rintro ⟨⟩
    · show 2 ≤ 3
      decide
  split
  · next h =>
    refine ⟨⟨?_, ?_, ?_, ?_, ?_, ?_⟩, rfl⟩
    · intro _
      show [b] = pendingOf 3 (b.toNat - 0xF0)
      rw [pendingOf, if_pos rfl, show 0xF0 + (b.toNat - 0xF0) = b.toNat by omega, hb]
    · intro _
      simp only
      constructor <;> split <;> omega
    · rintro ⟨⟩
    · rintro ⟨⟩
    · intro _
      simp only
      split <;> split <;> omega
    · exact Nat.le_refl 3
  · exact ⟨.start, rfl⟩

theorem ofNat_congr {m n : Nat} (h : m % 256 = n % 256) : UInt8.ofNat m = UInt8.ofNat n := by
  apply UInt8.toNat_inj.mp
  simpa using h

/-- The last byte of a sequence: the character is encoded as these bytes. -/
theorem utf8EncodeChar_complete {cp : Nat} {b : UInt8}
    (hcp : (2 ≤ cp ∧ cp < 864) ∨ (896 ≤ cp ∧ cp < 17408)) (hb : 0x80 ≤ b.toNat ∧ b.toNat ≤ 0xBF) :
    String.utf8EncodeChar (Char.ofNat (cp * 64 + (b.toNat - 0x80))) = pendingOf 1 cp ++ [b] := by
  have hv : (Char.ofNat (cp * 64 + (b.toNat - 0x80))).val.toNat = cp * 64 + (b.toNat - 0x80) :=
    char_ofNat_toNat (by omega)
  have hlast : UInt8.ofNat ((cp * 64 + (b.toNat - 0x80)) % 0x40 + 0x80) = b := by
    rw [show (cp * 64 + (b.toNat - 0x80)) % 0x40 + 0x80 = b.toNat by omega]
    exact UInt8.ofNat_toNat
  have hone : pendingOf 1 cp =
      if cp < 32 then [UInt8.ofNat (0xC0 + cp)]
      else if cp < 1024 then [UInt8.ofNat (0xE0 + cp / 64), UInt8.ofNat (0x80 + cp % 64)]
      else [UInt8.ofNat (0xF0 + cp / 4096), UInt8.ofNat (0x80 + cp / 64 % 64),
        UInt8.ofNat (0x80 + cp % 64)] := rfl
  unfold String.utf8EncodeChar
  simp only [hv]
  rw [if_neg (by omega), hone]
  by_cases h32 : cp < 32
  · rw [if_pos (by omega), if_pos h32, hlast]
    refine congrArg (· :: [b]) (ofNat_congr ?_)
    omega
  · rw [if_neg (by omega), if_neg h32]
    by_cases h1024 : cp < 1024
    · rw [if_pos (by omega), if_pos h1024, hlast]
      refine congrArg₂ (fun x y => [x, y, b]) (ofNat_congr ?_) (ofNat_congr ?_)
      · omega
      · omega
    · rw [if_neg (by omega), if_neg h1024, hlast]
      have h0 : (cp * 64 + (b.toNat - 0x80)) / 262144 % 0x08 + 0xf0 = 0xF0 + cp / 4096 := by omega
      have h1 : (cp * 64 + (b.toNat - 0x80)) / 4096 % 0x40 + 0x80 = 0x80 + cp / 64 % 64 := by omega
      have h2 : (cp * 64 + (b.toNat - 0x80)) / 64 % 0x40 + 0x80 = 0x80 + cp % 64 := by omega
      rw [h0, h1, h2]
      rfl

/-- One byte more of a sequence of three or four. -/
theorem pendingOf_snoc {s : Utf8State} (h : s.Sound) {b : UInt8} (h0 : s.need ≠ 0)
    (h1 : s.need ≠ 1) (hb : s.lo ≤ b.toNat ∧ b.toNat ≤ s.hi) :
    pendingOf s.need s.cp ++ [b] = pendingOf (s.need - 1) (s.cp * 64 + (b.toNat - 0x80)) := by
  have hrange := h.range h0
  have hfew := h.few
  have hlast : UInt8.ofNat (0x80 + (s.cp * 64 + (b.toNat - 0x80)) % 64) = b := by
    rw [show 0x80 + (s.cp * 64 + (b.toNat - 0x80)) % 64 = b.toNat by omega]
    exact UInt8.ofNat_toNat
  by_cases h2 : s.need = 2
  · have hcp := h.two h2
    rw [h2]
    unfold pendingOf
    by_cases h16 : s.cp < 16
    · rw [if_neg (by decide), if_pos rfl, if_pos h16, if_neg (by decide), if_neg (by decide),
        if_neg (by omega), if_pos (by omega), hlast]
      refine congrArg (fun x => [x, b]) (ofNat_congr ?_)
      omega
    · rw [if_neg (by decide), if_pos rfl, if_neg h16, if_neg (by decide), if_neg (by decide),
        if_neg (by omega), if_neg (by omega), hlast]
      refine congrArg₂ (fun x y => [x, y, b]) (ofNat_congr ?_) (ofNat_congr ?_)
      · omega
      · omega
  · have h3 : s.need = 3 := by omega
    have hcp := h.three h3
    rw [h3]
    unfold pendingOf
    rw [if_pos rfl, if_neg (by decide), if_pos rfl, if_neg (by omega), hlast]
    refine congrArg (fun x => [x, b]) (ofNat_congr ?_)
    omega

/-- Bytes of an unfinished sequence are not ASCII. -/
theorem pendingOf_high {need cp : Nat} (h : (need = 3 ∧ cp < 16) ∨ (need = 2 ∧ cp < 1024) ∨
    (need = 1 ∧ cp < 65536)) : ∀ x ∈ pendingOf need cp, 128 ≤ x.toNat := by
  have hbyte : ∀ n, 128 ≤ n → n < 256 → 128 ≤ (UInt8.ofNat n).toNat := by
    intro n h1 h2
    rw [UInt8.toNat_ofNat', Nat.mod_eq_of_lt h2]
    exact h1
  intro x hx
  unfold pendingOf at hx
  split at hx
  · obtain rfl := List.mem_singleton.mp hx
    exact hbyte _ (by omega) (by omega)
  split at hx
  · split at hx
    · obtain rfl := List.mem_singleton.mp hx
      exact hbyte _ (by omega) (by omega)
    · simp only [List.mem_cons, List.not_mem_nil, or_false] at hx
      rcases hx with rfl | rfl
      · exact hbyte _ (by omega) (by omega)
      · exact hbyte _ (by omega) (by omega)
  split at hx
  · obtain rfl := List.mem_singleton.mp hx
    exact hbyte _ (by omega) (by omega)
  split at hx
  · simp only [List.mem_cons, List.not_mem_nil, or_false] at hx
    rcases hx with rfl | rfl
    · exact hbyte _ (by omega) (by omega)
    · exact hbyte _ (by omega) (by omega)
  · simp only [List.mem_cons, List.not_mem_nil, or_false] at hx
    rcases hx with rfl | rfl | rfl
    · exact hbyte _ (by omega) (by omega)
    · exact hbyte _ (by omega) (by omega)
    · exact hbyte _ (by omega) (by omega)

theorem Utf8State.Sound.high {s : Utf8State} (h : s.Sound) : ∀ x ∈ s.held, 128 ≤ x.toNat := by
  intro x hx
  unfold held at hx
  split at hx
  · cases hx
  · next hn =>
    rw [h.bytes hn] at hx
    refine pendingOf_high ?_ x hx
    have hfew := h.few
    by_cases h3 : s.need = 3
    · have := h.three h3
      omega
    · by_cases h2 : s.need = 2
      · have := h.two h2
        omega
      · have := h.one (by omega)
        omega

/-- Units that are errors consist of bytes above ASCII. -/
def HighErrors (us : List (Except Bytes Char)) : Prop :=
  ∀ bad, .error bad ∈ us → ∀ x ∈ bad, 128 ≤ x.toNat

theorem utf8Lead_high (b : UInt8) : HighErrors (utf8Lead b).1 := by
  intro bad hbad
  unfold utf8Lead at hbad
  simp only at hbad
  split at hbad
  · simp at hbad
  split at hbad
  · simp at hbad
  split at hbad
  · simp at hbad
  split at hbad
  · simp at hbad
  · next h _ _ _ =>
    simp only [List.mem_singleton, Except.error.injEq] at hbad
    subst hbad
    intro x hx
    obtain rfl := List.mem_singleton.mp hx
    omega

/-- **One byte further.** -/
theorem utf8Feed_spec {s : Utf8State} (h : s.Sound) (b : UInt8) : (utf8Feed s b).2.Sound ∧
    unitBytes (utf8Feed s b).1 ++ (utf8Feed s b).2.held = s.held ++ [b] ∧
      HighErrors (utf8Feed s b).1 := by
  unfold utf8Feed
  simp only
  by_cases h0 : s.need = 0
  · obtain ⟨hs, hb⟩ := utf8Lead_spec b
    have hheld : s.held = [] := if_pos h0
    rw [if_pos h0, hheld]
    exact ⟨hs, hb, utf8Lead_high b⟩
  rw [if_neg h0]
  have hheld : s.held = pendingOf s.need s.cp := by
    rw [Utf8State.held, if_neg h0, h.bytes h0]
  have hrange := h.range h0
  have hfew := h.few
  by_cases hin : s.lo ≤ b.toNat ∧ b.toNat ≤ s.hi
  · rw [if_pos hin, hheld]
    by_cases h1 : s.need = 1
    · rw [if_pos h1]
      refine ⟨.start, ?_, ?_⟩
      · have hstart : Utf8State.start.held = [] := if_pos rfl
        rw [hstart, List.append_nil, h1, ← utf8EncodeChar_complete (h.one h1) (by omega)]
        unfold unitBytes
        rw [List.flatMap_cons, List.flatMap_nil, List.append_nil]
      · intro bad hbad
        simp at hbad
    · rw [if_neg h1]
      refine ⟨⟨?_, ?_, ?_, ?_, ?_, ?_⟩, ?_, ?_⟩
      · intro _
        show s.pending ++ [b] = _
        rw [h.bytes h0, pendingOf_snoc h h0 h1 hin]
      · intro _
        exact ⟨Nat.le_refl 0x80, Nat.le_refl 0xBF⟩
      · intro hn
        have h2 : s.need = 2 := by
          change s.need - 1 = 1 at hn
          omega
        have := h.two h2
        show (2 ≤ s.cp * 64 + (b.toNat - 0x80) ∧ s.cp * 64 + (b.toNat - 0x80) < 864) ∨
          (896 ≤ s.cp * 64 + (b.toNat - 0x80) ∧ s.cp * 64 + (b.toNat - 0x80) < 17408)
        omega
      · intro hn
        have h3 : s.need = 3 := by
          change s.need - 1 = 2 at hn
          omega
        have := h.three h3
        show _ ∨ _ ∨ _ ∨ (14 ≤ s.cp * 64 + (b.toNat - 0x80) ∧ s.cp * 64 + (b.toNat - 0x80) < 272)
        omega
      · intro hn
        change s.need - 1 = 3 at hn
        omega
      · show s.need - 1 ≤ 3
        omega
      · have hneed : s.need - 1 ≠ 0 := by omega
        unfold Utf8State.held
        rw [if_neg hneed, h.bytes h0]
        rfl
      · intro bad hbad
        cases hbad
  · rw [if_neg hin]
    obtain ⟨hs, hb⟩ := utf8Lead_spec b
    refine ⟨hs, ?_, ?_⟩
    · show (s.pending ++ unitBytes _) ++ _ = _
      rw [List.append_assoc, hb, Utf8State.held, if_neg h0]
    · intro bad hbad
      rcases List.mem_cons.mp hbad with he | hmem
      · cases he
        intro x hx
        exact h.high x (by rw [Utf8State.held, if_neg h0]; exact hx)
      · exact utf8Lead_high b bad hmem

theorem HighErrors.append {us vs : List (Except Bytes Char)} (hu : HighErrors us)
    (hv : HighErrors vs) : HighErrors (us ++ vs) := by
  intro bad hbad
  rcases List.mem_append.mp hbad with h | h
  · exact hu bad h
  · exact hv bad h

/-- The units of a byte string hold its bytes. -/
theorem utf8DecodeFrom_spec (bs : Bytes) {s : Utf8State} (h : s.Sound) :
    unitBytes (utf8DecodeFrom s bs) = s.held ++ bs ∧ HighErrors (utf8DecodeFrom s bs) := by
  induction bs generalizing s with
  | nil =>
    have hhigh := h.high
    unfold utf8DecodeFrom
    by_cases h0 : s.need = 0
    · have hheld : s.held = [] := if_pos h0
      rw [if_pos h0, hheld]
      exact ⟨rfl, fun bad hbad => by cases hbad⟩
    · have hheld : s.held = s.pending := if_neg h0
      rw [if_neg h0, hheld]
      refine ⟨rfl, fun bad hbad => ?_⟩
      cases List.mem_singleton.mp hbad
      rw [← hheld]
      exact hhigh
  | cons b bs ih =>
    obtain ⟨hs, hbytes, hhigh⟩ := utf8Feed_spec h b
    obtain ⟨hrest, hrest'⟩ := ih hs
    refine ⟨?_, hhigh.append hrest'⟩
    calc unitBytes (utf8DecodeFrom s (b :: bs))
        = unitBytes (utf8Feed s b).1 ++ unitBytes (utf8DecodeFrom (utf8Feed s b).2 bs) :=
          List.flatMap_append
      _ = (unitBytes (utf8Feed s b).1 ++ (utf8Feed s b).2.held) ++ bs := by
          rw [hrest, List.append_assoc]
      _ = s.held ++ b :: bs := by rw [hbytes, List.append_assoc, List.singleton_append]

theorem fsencode_char (c : Char) : fsencode [c.toNat] = String.utf8EncodeChar c := by
  have hv : c.toNat < 0xD800 ∨ (0xDFFF < c.toNat ∧ c.toNat < 0x110000) := c.valid
  unfold fsencode
  rw [List.flatMap_singleton, if_neg (by omega), Char.ofNat_toNat]

theorem fsencode_escaped {bad : Bytes} (h : ∀ x ∈ bad, 128 ≤ x.toNat) :
    fsencode (bad.map fun b => 0xDC00 + b.toNat) = bad := by
  induction bad with
  | nil => rfl
  | cons b bad ih =>
    have hb := h b (by simp)
    have hlt := b.toNat_lt
    unfold fsencode at ih ⊢
    rw [List.map_cons, List.flatMap_cons, ih fun x hx => h x (by simp [hx]),
      if_pos (by omega), Nat.add_sub_cancel_left, UInt8.ofNat_toNat]
    rfl

/-- **Decoding loses nothing.** -/
theorem fsencode_fsdecode (bs : Bytes) : fsencode (fsdecode bs) = bs := by
  obtain ⟨hbytes, hhigh⟩ := utf8DecodeFrom_spec bs .start
  have hunits : ∀ us : List (Except Bytes Char), HighErrors us → fsencode (us.flatMap fun
      | .ok c => [c.toNat]
      | .error bad => bad.map fun b => 0xDC00 + b.toNat) = unitBytes us := by
    intro us hus
    induction us with
    | nil => rfl
    | cons u us ih =>
      have ih' := ih fun bad hbad => hus bad (List.mem_cons_of_mem _ hbad)
      unfold unitBytes at ih' ⊢
      rw [List.flatMap_cons, List.flatMap_cons, fsencode_append, ih']
      cases u with
      | ok c => rw [fsencode_char]
      | error bad => rw [fsencode_escaped (hus bad (by simp))]
  calc fsencode (fsdecode bs) = unitBytes (utf8Decode bs) := hunits _ hhigh
    _ = bs := hbytes

/-! ## ASCII bytes are code points of their own -/

theorem utf8Feed_ascii {s : Utf8State} (h : s.Sound) {b : UInt8} (hb : b.toNat < 128) :
    utf8Feed s b =
      ((if s.need = 0 then [] else [.error s.pending]) ++ [.ok (Char.ofNat b.toNat)], .start) := by
  have hlead : utf8Lead b = ([.ok (Char.ofNat b.toNat)], .start) := by
    unfold utf8Lead
    simp only
    rw [if_pos hb]
  unfold utf8Feed
  simp only
  by_cases h0 : s.need = 0
  · rw [if_pos h0, if_pos h0, hlead]
    rfl
  · have hrange := h.range h0
    rw [if_neg h0, if_neg h0, if_neg (by omega), hlead]
    rfl

theorem utf8DecodeFrom_ascii {s : Utf8State} (h : s.Sound) {b : UInt8} (hb : b.toNat < 128)
    (bs : Bytes) :
    utf8DecodeFrom s (b :: bs) =
      utf8DecodeFrom s [] ++ .ok (Char.ofNat b.toNat) :: utf8Decode bs := by
  have hcons : utf8DecodeFrom s (b :: bs) =
      (utf8Feed s b).1 ++ utf8DecodeFrom (utf8Feed s b).2 bs := rfl
  rw [hcons, utf8Feed_ascii h hb, List.append_assoc]
  rfl

theorem utf8DecodeFrom_append {s : Utf8State} (h : s.Sound) (a : Bytes) {b : UInt8}
    (hb : b.toNat < 128) (bs : Bytes) :
    utf8DecodeFrom s (a ++ b :: bs) =
      utf8DecodeFrom s a ++ .ok (Char.ofNat b.toNat) :: utf8Decode bs := by
  induction a generalizing s with
  | nil => exact utf8DecodeFrom_ascii h hb bs
  | cons x a ih =>
    rw [List.cons_append, utf8DecodeFrom, utf8DecodeFrom, ih (utf8Feed_spec h x).1,
      List.append_assoc]

theorem fsdecode_append (a : Bytes) {b : UInt8} (hb : b.toNat < 128) (bs : Bytes) :
    fsdecode (a ++ b :: bs) = fsdecode a ++ b.toNat :: fsdecode bs := by
  have hchar : (Char.ofNat b.toNat).toNat = b.toNat := char_ofNat_toNat (.inl (by omega))
  unfold fsdecode utf8Decode
  rw [utf8DecodeFrom_append .start a hb bs, List.flatMap_append, List.flatMap_cons]
  simp only [hchar]
  rfl

theorem fsdecode_cons {b : UInt8} (hb : b.toNat < 128) (bs : Bytes) :
    fsdecode (b :: bs) = b.toNat :: fsdecode bs := fsdecode_append [] hb bs

/-! ## Escaped names as patterns -/

namespace Glob

theorem isMagic_iff {b : UInt8} :
    isMagic b = true ↔ b.toNat = 42 ∨ b.toNat = 63 ∨ b.toNat = 91 := by
  unfold isMagic
  simp only [Bool.or_eq_true, decide_eq_true_eq, ← UInt8.toNat_inj, or_assoc]
  rfl

/-- `glob.escape`, on code points. -/
def escapeCodes (cs : List Nat) : List Nat :=
  cs.flatMap fun c => if c = 42 ∨ c = 63 ∨ c = 91 then [91, c, 93] else [c]

theorem escapeCodes_append (a b : List Nat) :
    escapeCodes (a ++ b) = escapeCodes a ++ escapeCodes b := List.flatMap_append

/-- The pattern that matches one character only. -/
def literal (c : Nat) : Pat := if c = 42 ∨ c = 63 ∨ c = 91 then .set false [(c, c)] else .lit c

theorem literal_accepts (c x : Nat) : (literal c).accepts x = true ↔ x = c := by
  unfold literal
  split
  · simp only [Pat.accepts, List.any_cons, List.any_nil, Bool.or_false, Bool.bne_false,
      decide_eq_true_eq]
    omega
  · rw [Pat.accepts, decide_eq_true_eq]

theorem literal_ne_star (c : Nat) : literal c ≠ .star := by
  unfold literal
  split <;> simp

theorem parse_plain {c : Nat} (h : ¬ (c = 42 ∨ c = 63 ∨ c = 91)) (fuel : Nat) (cs : List Nat) :
    parse (fuel + 1) (c :: cs) = .lit c :: parse fuel cs := by
  rw [not_or, not_or] at h
  conv_lhs => unfold parse
  rw [if_neg h.1, if_neg h.2.1, if_neg h.2.2]

/-- An escaped name is parsed as the characters of the name. -/
theorem parse_escapeCodes (cs rest : List Nat) (fuel : Nat) :
    parse (cs.length + fuel) (escapeCodes cs ++ rest) = cs.map literal ++ parse fuel rest := by
  induction cs with
  | nil => rw [List.length_nil, Nat.zero_add]; rfl
  | cons c cs ih =>
    have hlen : (c :: cs).length + fuel = cs.length + fuel + 1 := by
      rw [List.length_cons]
      omega
    rw [hlen, List.map_cons, List.cons_append, ← ih]
    have hcons : escapeCodes (c :: cs) =
        (if c = 42 ∨ c = 63 ∨ c = 91 then [91, c, 93] else [c]) ++ escapeCodes cs := rfl
    rw [hcons]
    unfold literal
    split
    · next hm =>
      have hclose : closing (c :: 93 :: (escapeCodes cs ++ rest)) =
          some ([c], escapeCodes cs ++ rest) := by
        simp [closing]
      have h33 : ∀ cs', c :: 93 :: (escapeCodes cs ++ rest) = 33 :: cs' → False := by
        intro cs' he
        have := (List.cons.inj he).1
        omega
      show parse (cs.length + fuel + 1) (91 :: c :: 93 :: (escapeCodes cs ++ rest)) = _
      rw [parse]
      · rw [if_neg (by decide), if_neg (by decide), if_pos rfl, hclose]
        rfl
      · exact h33
    · next hm =>
      exact parse_plain hm _ _

theorem matches_literal (c : Nat) (ps : List Pat) (s : List Nat) :
    matches? (literal c :: ps) s = true ↔ ∃ s', s = c :: s' ∧ matches? ps s' = true := by
  have hstar := literal_ne_star c
  have hacc := literal_accepts c
  generalize literal c = q at hstar hacc ⊢
  cases s with
  | nil =>
    constructor
    · intro h
      cases q with
      | star => exact absurd rfl hstar
      | any => cases h
      | lit _ => cases h
      | set _ _ => cases h
    · rintro ⟨s', hs, -⟩
      cases hs
  | cons x s =>
    have hstep : matches? (q :: ps) (x :: s) = (q.accepts x && matches? ps s) := by
      cases q with
      | star => exact absurd rfl hstar
      | any => rfl
      | lit _ => rfl
      | set _ _ => rfl
    rw [hstep, Bool.and_eq_true, hacc]
    constructor
    · rintro ⟨rfl, h⟩
      exact ⟨s, rfl, h⟩
    · rintro ⟨s', hs, h⟩
      cases hs
      exact ⟨rfl, h⟩

theorem matches_literals (cs : List Nat) (ps : List Pat) (s : List Nat) :
    matches? (cs.map literal ++ ps) s = true ↔ ∃ s', s = cs ++ s' ∧ matches? ps s' = true := by
  induction cs generalizing s with
  | nil => simp
  | cons c cs ih =>
    rw [List.map_cons, List.cons_append, matches_literal]
    constructor
    · rintro ⟨s₁, rfl, h⟩
      obtain ⟨s', rfl, h'⟩ := (ih s₁).mp h
      exact ⟨s', rfl, h'⟩
    · rintro ⟨s', rfl, h⟩
      exact ⟨cs ++ s', rfl, (ih _).mpr ⟨s', rfl, h⟩⟩

theorem matches_star (ps : List Pat) (s : List Nat) :
    matches? (.star :: ps) s = true ↔ ∃ x y, s = x ++ y ∧ matches? ps y = true := by
  have hstep : matches? (.star :: ps) s = s.tails.any (matches? ps) := by
    cases s <;> rfl
  rw [hstep, List.any_eq_true]
  constructor
  · rintro ⟨y, hy, h⟩
    obtain ⟨x, rfl⟩ := (List.mem_tails y s).mp hy
    exact ⟨x, y, rfl, h⟩
  · rintro ⟨x, y, rfl, h⟩
    exact ⟨y, (List.mem_tails y _).mpr (List.suffix_append x y), h⟩

end Glob

/-- An ASCII code point comes from the byte. -/
theorem mem_of_mem_fsdecode {bs : Bytes} {c : Nat} (h : c ∈ fsdecode bs) (hc : c < 128) :
    UInt8.ofNat c ∈ bs := by
  obtain ⟨x, y, hxy⟩ := List.append_of_mem h
  have hbs := fsencode_fsdecode bs
  have hone : fsencode [c] = [UInt8.ofNat c] := by
    unfold fsencode
    rw [List.flatMap_singleton, if_neg (by omega), utf8EncodeChar_ascii hc]
  rw [hxy, ← List.singleton_append, fsencode_append, fsencode_append, hone] at hbs
  rw [← hbs]
  simp

namespace Glob

theorem escapeCodes_of_free {bs : Bytes} (h : ∀ b ∈ bs, isMagic b = false) :
    escapeCodes (fsdecode bs) = fsdecode bs := by
  have hfree : ∀ c ∈ fsdecode bs, ¬ (c = 42 ∨ c = 63 ∨ c = 91) := by
    intro c hc hm
    have hlt : c < 128 := by omega
    have hb := h _ (mem_of_mem_fsdecode hc hlt)
    have hn : (UInt8.ofNat c).toNat = c := by
      rw [UInt8.toNat_ofNat', Nat.mod_eq_of_lt (by omega)]
    rw [Bool.eq_false_iff, ne_eq, isMagic_iff, hn] at hb
    exact hb hm
  unfold escapeCodes
  calc (fsdecode bs).flatMap (fun c => if c = 42 ∨ c = 63 ∨ c = 91 then [91, c, 93] else [c])
      = (fsdecode bs).flatMap fun c => [c] := List.flatMap_congr fun c hc => if_neg (hfree c hc)
    _ = fsdecode bs := List.flatMap_singleton' _

/-- Escaping bytes is escaping code points. The induction keeps in `a` the bytes since the last
magic character, where no sequence can be cut. -/
theorem fsdecode_escape_from (bs : Bytes) {a : Bytes} (ha : ∀ b ∈ a, isMagic b = false) :
    fsdecode (a ++ escape bs) = escapeCodes (fsdecode (a ++ bs)) := by
  induction bs generalizing a with
  | nil =>
    rw [show escape [] = [] from rfl, List.append_nil, escapeCodes_of_free ha]
  | cons b bs ih =>
    have hcons : escape (b :: bs) = (if isMagic b then [91, b, 93] else [b]) ++ escape bs := rfl
    rw [hcons]
    by_cases hm : isMagic b = true
    · have hb := isMagic_iff.mp hm
      have hlt : b.toNat < 128 := by omega
      have hrest : fsdecode (escape bs) = escapeCodes (fsdecode bs) :=
        ih (a := []) (fun x hx => by cases hx)
      have hsplit : fsdecode (a ++ 91 :: b :: 93 :: escape bs) =
          fsdecode a ++ 91 :: b.toNat :: 93 :: fsdecode (escape bs) := by
        rw [fsdecode_append a (by decide), fsdecode_cons hlt, fsdecode_cons (by decide)]
        rfl
      have hone : escapeCodes [b.toNat] = [91, b.toNat, 93] := by
        unfold escapeCodes
        rw [List.flatMap_singleton, if_pos hb]
      rw [if_pos hm, fsdecode_append a hlt, ← List.singleton_append (x := b.toNat),
        escapeCodes_append, escapeCodes_append, escapeCodes_of_free ha, hone, ← hrest]
      exact hsplit
    · rw [if_neg hm, List.singleton_append, List.append_cons, ih, ← List.append_cons]
      intro x hx
      rcases List.mem_append.mp hx with hx | hx
      · exact ha x hx
      · rw [List.mem_singleton.mp hx, Bool.eq_false_iff]
        exact hm

theorem fsdecode_escape (bs : Bytes) : fsdecode (escape bs) = escapeCodes (fsdecode bs) :=
  fsdecode_escape_from bs (a := []) fun _ hx => by cases hx

theorem length_le_escapeCodes (cs : List Nat) : cs.length ≤ (escapeCodes cs).length := by
  induction cs with
  | nil => exact Nat.le_refl 0
  | cons c cs ih =>
    have hcons : escapeCodes (c :: cs) =
        (if c = 42 ∨ c = 63 ∨ c = 91 then [91, c, 93] else [c]) ++ escapeCodes cs := rfl
    rw [hcons, List.length_append, List.length_cons]
    split <;> simp only [List.length_cons, List.length_nil] <;> omega

end Glob

/-! ## The pattern of partials -/

/-- `.part` as code points. -/
def partCodes : List Nat := [46, 112, 97, 114, 116]

theorem parse_partials (base : Bytes) :
    Glob.parse (fsdecode ([Os.DOT] ++ Glob.escape base ++ ascii ".*.part")).length
        (fsdecode ([Os.DOT] ++ Glob.escape base ++ ascii ".*.part")) =
      ((46 :: fsdecode base) ++ [46]).map Glob.literal ++ .star :: partCodes.map Glob.literal := by
  have hascii : ascii ".*.part" = 46 :: [42, 46, 112, 97, 114, 116] := by decide
  have hrest : fsdecode [42, 46, 112, 97, 114, 116] = [42, 46, 112, 97, 114, 116] := by decide
  have hcodes : fsdecode ([Os.DOT] ++ Glob.escape base ++ ascii ".*.part") =
      46 :: (Glob.escapeCodes (fsdecode base) ++ 46 :: [42, 46, 112, 97, 114, 116]) := by
    rw [hascii, List.append_assoc, List.singleton_append, fsdecode_cons (by decide),
      fsdecode_append _ (by decide), hrest, Glob.fsdecode_escape]
    rfl
  have hle := Glob.length_le_escapeCodes (fsdecode base)
  obtain ⟨k, hk⟩ := Nat.exists_eq_add_of_le hle
  have hlen : (46 :: (Glob.escapeCodes (fsdecode base) ++
      46 :: [42, 46, 112, 97, 114, 116])).length = ((fsdecode base).length + (k + 7)) + 1 := by
    simp only [List.length_cons, List.length_append, List.length_nil, hk]
    omega
  have hend : Glob.parse k [] = [] := by
    cases k <;> rfl
  have htail : Glob.parse (k + 7) (46 :: [42, 46, 112, 97, 114, 116]) =
      .lit 46 :: .star :: partCodes.map Glob.literal := by
    simp only [Glob.parse, hend]
    rfl
  rw [hcodes, hlen, Glob.parse_plain (by decide), Glob.parse_escapeCodes, htail]
  rw [List.map_append, List.map_cons, List.cons_append, List.cons_append, List.append_assoc]
  rfl

/-- **What an escaped name matches**: the name between dots, anything, and `.part`. -/
theorem fnmatch_partials {base n : Bytes} :
    Glob.fnmatch n ([Os.DOT] ++ Glob.escape base ++ ascii ".*.part") = true ↔
      ∃ x, fsdecode n = 46 :: fsdecode base ++ 46 :: x ++ partCodes := by
  unfold Glob.fnmatch
  simp only
  rw [parse_partials, Glob.matches_literals]
  constructor
  · rintro ⟨s', hs, hm⟩
    obtain ⟨x, y, rfl, hy⟩ := (Glob.matches_star _ _).mp hm
    rw [← List.append_nil (partCodes.map Glob.literal)] at hy
    obtain ⟨z, rfl, hz⟩ := (Glob.matches_literals _ _ _).mp hy
    obtain rfl : z = [] := by simpa [Glob.matches?] using hz
    refine ⟨x, ?_⟩
    rw [hs]
    simp
  · rintro ⟨x, hx⟩
    refine ⟨x ++ partCodes, ?_, ?_⟩
    · rw [hx]
      simp
    · refine (Glob.matches_star _ _).mpr ⟨x, partCodes, rfl, ?_⟩
      rw [← List.append_nil (partCodes.map Glob.literal)]
      exact (Glob.matches_literals _ _ _).mpr ⟨[], by simp, rfl⟩

/-- A partial of the name matches. -/
theorem fnmatch_partialBase (base digest : Bytes) :
    Glob.fnmatch (partialBase base digest) ([Os.DOT] ++ Glob.escape base ++ ascii ".*.part") = true := by
  refine fnmatch_partials.mpr ⟨fsdecode (hex (digest.take TOKEN_SIZE)), ?_⟩
  have hpart : fsdecode [112, 97, 114, 116] = [112, 97, 114, 116] := by decide
  have hbytes : partialBase base digest =
      46 :: (base ++ 46 :: (hex (digest.take TOKEN_SIZE) ++ 46 :: [112, 97, 114, 116])) := by
    unfold partialBase
    rw [ascii_part]
    simp [Os.DOT]
  rw [hbytes, fsdecode_cons (by decide), fsdecode_append _ (by decide),
    fsdecode_append _ (by decide), hpart]
  simp [partCodes]

/-- What matches ends in `.part`. -/
theorem suffix_of_fnmatch {base n : Bytes}
    (h : Glob.fnmatch n ([Os.DOT] ++ Glob.escape base ++ ascii ".*.part") = true) :
    ascii ".part" <:+ n := by
  obtain ⟨x, hx⟩ := fnmatch_partials.mp h
  have hn := fsencode_fsdecode n
  have hpart : fsencode partCodes = ascii ".part" := by decide
  rw [hx, fsencode_append, hpart] at hn
  rw [← hn]
  exact List.suffix_append _ _

end Retriever
