/-
# Retriever.Names — which names the programs can use, and partial names

A *plain* name is one that the kernel takes as an entry of the working directory. Every name
`check_filename` accepts is plain or is `.`, and the partial of a plain name is plain again. The
token in a partial name has a fixed width, so the name and the token can be read back from it: two
uploads share a partial file exactly when they agree on the name and on the first eight bytes of
the digest.
-/
import Mathlib.Data.List.TakeWhile
import Retriever.Server

namespace Retriever

open Os (SLASH DOT)

/-! ## Plain names -/

/-- An entry of the working directory, as a path. -/
structure Plain (n : Bytes) : Prop where
  ne_nil : n ≠ []
  no_slash : SLASH ∉ n
  ne_dot : n ≠ [DOT]
  ne_dotdot : n ≠ [DOT, DOT]

theorem Os.isDir_cwd (os : Os) : os.isDir os.cwd = true := by
  simp [Os.isDir, Os.slot]

theorem Os.locate_plain (os : Os) {n : Bytes} (h : Plain n) : os.locate n = some (os.cwd ++ [n]) := by
  cases n with
  | nil => exact absurd rfl h.ne_nil
  | cons b rest =>
    have hb : b ≠ SLASH := fun hb => h.no_slash (by simp [hb])
    simp only [Os.locate, if_neg hb]
    rw [List.splitOn_eq_singleton h.no_slash]
    simp [Os.walk, Os.isDir_cwd, Os.enter, h.ne_dot, h.ne_dotdot]

theorem Os.locate_dot (os : Os) : os.locate [DOT] = some os.cwd := by
  simp only [Os.locate, if_neg (show DOT ≠ SLASH by decide)]
  rw [List.splitOn_eq_singleton (show SLASH ∉ [DOT] by decide)]
  simp [Os.walk, Os.isDir_cwd, Os.enter]

theorem Os.not_prefix_cwd (os : Os) (n : Bytes) : ¬ os.cwd ++ [n] <+: os.cwd := by
  intro h
  have := h.length_le
  simp at this

theorem Os.slot_entry (os : Os) (n : Bytes) :
    os.slot (os.cwd ++ [n]) = os.store.lookup (os.cwd ++ [n]) := if_neg (os.not_prefix_cwd n)

/-! ## Accepted names -/

theorem encode_ascii {t : Text} (h : ∀ c ∈ t, c.toNat < 128) :
    encode t = t.map fun c => UInt8.ofNat c.toNat := by
  induction t with
  | nil => rfl
  | cons c t ih =>
    have hc : c.val.toNat ≤ 127 := Nat.le_of_lt_succ (h c (by simp))
    rw [encode, List.flatMap_cons, String.utf8EncodeChar]
    simp only [hc, if_true]
    rw [← encode, ih fun c' hc' => h c' (by simp [hc'])]
    rfl

/-- Bytes below 128 are decoded one by one. -/
theorem utf8Decode_ascii {n : Bytes} (h : ∀ b ∈ n, b.toNat < 128) :
    utf8Decode n = n.map fun b => .ok (Char.ofNat b.toNat) := by
  unfold utf8Decode
  induction n with
  | nil => rfl
  | cons b n ih =>
    have hlead : utf8Feed .start b = ([.ok (Char.ofNat b.toNat)], .start) := by
      unfold utf8Feed utf8Lead
      simp only [if_pos (show b.toNat < 0x80 from h b (by simp))]
      rfl
    rw [utf8DecodeFrom, hlead, ih fun b' hb' => h b' (by simp [hb'])]
    rfl

theorem decodeReplace_ascii {t : Text}
    (h : ∀ c ∈ t, c.toNat < 128 ∧ (UInt8.ofNat c.toNat).toNat = c.toNat) :
    decodeReplace (t.map fun c => UInt8.ofNat c.toNat) = t := by
  unfold decodeReplace
  rw [utf8Decode_ascii, List.map_map, List.map_map]
  · conv_rhs => rw [← List.map_id t]
    refine List.map_congr_left fun c hc => ?_
    show Char.ofNat (UInt8.ofNat c.toNat).toNat = c
    rw [(h c hc).2, Char.ofNat_toNat]
  · intro b hb
    obtain ⟨c, hc, rfl⟩ := List.mem_map.mp hb
    rw [(h c hc).2]
    exact (h c hc).1

structure Accepted (t : Text) : Prop where
  ne_nil : t ≠ []
  length_le : t.length ≤ 255
  no_slash : '/' ∉ t
  no_dotdot : hasDotDot t = false
  printable : ∀ c ∈ t, 32 ≤ c.toNat ∧ c.toNat < 127

theorem accepted_of_checkFilename {t : Text} (h : checkFilename t = true) : Accepted t := by
  unfold checkFilename at h
  split at h
  · cases h
  · next h1 =>
    split at h
    · cases h
    · next h2 =>
      simp only [Bool.or_eq_true, List.isEmpty_iff, decide_eq_true_eq, not_or, Nat.not_lt,
        List.contains_eq_mem, Bool.not_eq_true] at h1 h2
      simp only [List.all_eq_true, Bool.and_eq_true, decide_eq_true_eq] at h
      exact ⟨h1.1, h1.2, h2.1.1, h2.2, h⟩

namespace Accepted

variable {t : Text}

theorem lt_128 (h : Accepted t) : ∀ c ∈ t, c.toNat < 128 := fun c hc =>
  Nat.lt_succ_of_lt (h.printable c hc).2

theorem encode_eq (h : Accepted t) : encode t = t.map fun c => UInt8.ofNat c.toNat :=
  encode_ascii h.lt_128

theorem encode_length (h : Accepted t) : (encode t).length ≤ 255 := by
  rw [h.encode_eq, List.length_map]
  exact h.length_le

theorem encode_ne_nil (h : Accepted t) : encode t ≠ [] := by
  rw [h.encode_eq]
  simpa using h.ne_nil

theorem toNat_ofNat (h : Accepted t) {c : Char} (hc : c ∈ t) :
    (UInt8.ofNat c.toNat).toNat = c.toNat := by
  have := h.lt_128 c hc
  simp only [UInt8.toNat_ofNat']
  omega

/-- The server reads an accepted name back as it was. -/
theorem decode_encode (h : Accepted t) : decodeReplace (encode t) = t := by
  rw [h.encode_eq]
  exact decodeReplace_ascii fun c hc => ⟨h.lt_128 c hc, h.toNat_ofNat hc⟩

/-- Different accepted names are different paths. -/
theorem encode_inj {t' : Text} (h : Accepted t) (h' : Accepted t') (he : encode t = encode t') :
    t = t' := by
  rw [h.encode_eq, h'.encode_eq] at he
  have hlen : t.length = t'.length := by simpa using congrArg List.length he
  refine List.ext_getElem hlen fun i hi hi' => ?_
  have hc := congrArg (fun l => l[i]?) he
  simp only [List.getElem?_map, List.getElem?_eq_getElem hi, List.getElem?_eq_getElem hi',
    Option.map_some, Option.some.injEq] at hc
  have hc' := congrArg UInt8.toNat hc
  rw [h.toNat_ofNat (List.getElem_mem hi), h'.toNat_ofNat (List.getElem_mem hi')] at hc'
  exact Char.toNat_inj.mp hc'

theorem encode_no_slash (h : Accepted t) : SLASH ∉ encode t := by
  rw [h.encode_eq]
  intro hs
  obtain ⟨c, hc, he⟩ := List.mem_map.mp hs
  have hn : c.toNat = '/'.toNat := by
    rw [← h.toNat_ofNat hc, he]
    rfl
  exact h.no_slash (by rwa [← Char.toNat_inj.mp hn])

theorem encode_ne_dots (h : Accepted t) (rest : Bytes) : encode t ≠ DOT :: DOT :: rest := by
  rw [h.encode_eq]
  intro hd
  obtain ⟨a, t', rfl, ha, ht⟩ := List.map_eq_cons_iff.mp hd
  obtain ⟨b, t'', rfl, hb, -⟩ := List.map_eq_cons_iff.mp ht
  have hdot : ∀ c ∈ a :: b :: t'', UInt8.ofNat c.toNat = DOT → c = '.' := by
    intro c hc he
    apply Char.toNat_inj.mp
    rw [← h.toNat_ofNat hc, he]
    rfl
  have h2 := h.no_dotdot
  rw [hdot a (by simp) ha, hdot b (by simp) hb] at h2
  simp [hasDotDot] at h2

theorem encode_ne_dotdot (h : Accepted t) : encode t ≠ [DOT, DOT] := h.encode_ne_dots []

/-- An accepted name is plain or is the working directory itself. -/
theorem plain_or_dot (h : Accepted t) : Plain (encode t) ∨ encode t = [DOT] := by
  by_cases hd : encode t = [DOT]
  · exact .inr hd
  · exact .inl ⟨h.encode_ne_nil, h.encode_no_slash, hd, h.encode_ne_dotdot⟩

end Accepted

/-! ## Partial names -/

theorem ascii_part : ascii ".part" = [46, 112, 97, 114, 116] := by decide

theorem hexDigit_ne_slash {n : Nat} (h : n < 16) : hexDigit n ≠ SLASH := by
  have key : ∀ a < 16, hexDigit a ≠ SLASH := by decide
  exact key n h

theorem hexDigit_inj {m n : Nat} (hm : m < 16) (hn : n < 16) (h : hexDigit m = hexDigit n) :
    m = n := by
  have key : ∀ a < 16, ∀ b < 16, hexDigit a = hexDigit b → a = b := by decide
  exact key m hm n hn h

@[simp] theorem hex_length (bs : Bytes) : (hex bs).length = 2 * bs.length := by
  induction bs with
  | nil => rfl
  | cons b bs ih =>
    rw [hex, List.flatMap_cons, ← hex, List.length_append, ih]
    simp only [List.length_cons, List.length_nil]
    omega

theorem hex_inj {a b : Bytes} (h : hex a = hex b) : a = b := by
  induction a generalizing b with
  | nil =>
    have := congrArg List.length h
    simp only [hex_length, List.length_nil] at this
    exact (List.length_eq_zero_iff.mp (by omega)).symm
  | cons x a ih =>
    cases b with
    | nil =>
      have := congrArg List.length h
      simp at this
    | cons y b =>
      simp only [hex, List.flatMap_cons, List.cons_append, List.nil_append, List.cons.injEq] at h
      have hx := x.toNat_lt
      have hy := y.toNat_lt
      have h1 := hexDigit_inj (by omega) (by omega) h.1
      have h2 := hexDigit_inj (by omega) (by omega) h.2.1
      rw [ih h.2.2, show x = y from UInt8.toNat_inj.mp (by omega)]

theorem hex_no_slash (bs : Bytes) : SLASH ∉ hex bs := by
  intro h
  obtain ⟨b, -, hb⟩ := List.mem_flatMap.mp h
  have hlt := b.toNat_lt
  simp only [List.mem_cons, List.not_mem_nil, or_false] at hb
  rcases hb with hb | hb
  · exact hexDigit_ne_slash (by omega) hb.symm
  · exact hexDigit_ne_slash (by omega) hb.symm

theorem partialBase_plain {base digest : Bytes} (h : SLASH ∉ base) :
    Plain (partialBase base digest) where
  ne_nil := by simp [partialBase]
  no_slash := by
    have hx := hex_no_slash (digest.take TOKEN_SIZE)
    simp only [partialBase, ascii_part, List.mem_append, not_or]
    exact ⟨⟨⟨⟨by decide, h⟩, by decide⟩, hx⟩, by decide⟩
  ne_dot := by
    intro h
    have := congrArg List.length h
    simp [partialBase, ascii_part] at this
  ne_dotdot := by
    intro h
    have := congrArg List.length h
    simp only [partialBase, ascii_part, List.length_append, List.length_cons, List.length_nil] at this
    omega

theorem Path.tail_eq_self {n : Bytes} (h : SLASH ∉ n) : Path.tail n = n := by
  unfold Path.tail
  have hall : ∀ x ∈ n.reverse, decide (x ≠ SLASH) = true := by
    intro x hx
    rw [decide_eq_true_eq]
    rintro rfl
    exact h (List.mem_reverse.mp hx)
  rw [List.takeWhile_eq_self_iff.mpr hall, List.reverse_reverse]

theorem Path.split_plain {n : Bytes} (h : SLASH ∉ n) : Path.split n = ([], n) := by
  simp [Path.split, Path.head, Path.tail_eq_self h]

theorem partialName_plain {n : Bytes} (h : SLASH ∉ n) (d : Bytes) :
    partialName n d = partialBase n d := by
  simp [partialName, Path.split_plain h, Path.join, partialBase, show ¬ DOT = SLASH by decide]

theorem Plain.partialName {n : Bytes} (h : SLASH ∉ n) (d : Bytes) : Plain (partialName n d) := by
  rw [partialName_plain h]
  exact partialBase_plain h

theorem partialBase_length (n : Bytes) {d : Bytes} (hd : d.length = HASH_SIZE) :
    (partialBase n d).length = n.length + 23 := by
  unfold partialBase
  simp only [List.length_append, hex_length, List.length_take, hd, ascii_part, List.length_cons,
    List.length_nil]
  rw [show min TOKEN_SIZE HASH_SIZE = 8 from rfl]
  omega

theorem partialName_length {n d : Bytes} (h : SLASH ∉ n) (hd : d.length = HASH_SIZE) :
    (partialName n d).length = n.length + 23 := by
  rw [partialName_plain h, partialBase_length n hd]

/-- The form of a partial name. -/
def IsPartialName (k : Bytes) : Prop := ∃ n d, d.length = HASH_SIZE ∧ partialName n d = k

theorem partialBase_inj {b b' d d' : Bytes} (hd : TOKEN_SIZE ≤ d.length)
    (hd' : TOKEN_SIZE ≤ d'.length) (h : partialBase b d = partialBase b' d') :
    b = b' ∧ d.take TOKEN_SIZE = d'.take TOKEN_SIZE := by
  have hl : (hex (d.take TOKEN_SIZE)).length = (hex (d'.take TOKEN_SIZE)).length := by
    simp [Nat.min_eq_left hd, Nat.min_eq_left hd']
  obtain ⟨h1, -⟩ := List.append_inj' h rfl
  obtain ⟨h2, h3⟩ := List.append_inj' h1 hl
  obtain ⟨h4, -⟩ := List.append_inj' h2 rfl
  exact ⟨List.append_cancel_left h4, hex_inj h3⟩

/-- A partial name ends in `.part`. -/
theorem IsPartialName.suffix {k : Bytes} (h : IsPartialName k) : ascii ".part" <:+ k := by
  obtain ⟨n, d, -, rfl⟩ := h
  have hb : ascii ".part" <:+ partialBase (Path.split n).2 d := List.suffix_append _ _
  unfold partialName Path.join
  split
  · exact hb
  · split
    · exact hb.trans (List.suffix_append _ _)
    · exact hb.trans ((List.suffix_cons _ _).trans (List.suffix_append _ _))

/-- A partial name without a slash. -/
theorem IsPartialName.base {k : Bytes} (h : IsPartialName k) (hk : SLASH ∉ k) :
    ∃ b d, k = partialBase b d := by
  obtain ⟨n, d, -, rfl⟩ := h
  have hdir : (Path.split n).1 = [] := by
    by_contra hne
    unfold partialName Path.join at hk
    rw [if_neg (by simp [partialBase, DOT, SLASH])] at hk
    split at hk
    · next hlast =>
      have hmem := List.mem_of_getLast? (hlast.resolve_left hne)
      exact hk (List.mem_append_left _ hmem)
    · exact hk (List.mem_append_right _ List.mem_cons_self)
  refine ⟨(Path.split n).2, d, ?_⟩
  unfold partialName Path.join
  rw [hdir, if_neg (by simp [partialBase, DOT, SLASH]), if_pos (.inl rfl), List.nil_append]

/-- A partial name determines the name it was made from and the token. -/
theorem partialName_inj {n n' d d' : Bytes} (hn : SLASH ∉ n) (hn' : SLASH ∉ n')
    (hd : d.length = HASH_SIZE) (hd' : d'.length = HASH_SIZE)
    (h : partialName n d = partialName n' d') :
    n = n' ∧ d.take TOKEN_SIZE = d'.take TOKEN_SIZE := by
  rw [partialName_plain hn, partialName_plain hn'] at h
  exact partialBase_inj (by rw [hd]; decide) (by rw [hd']; decide) h

theorem sha256_length (m : Bytes) : (sha256 m).length = HASH_SIZE := Fips180.sha256_length m

end Retriever
