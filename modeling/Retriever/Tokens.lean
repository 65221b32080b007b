/-
# Retriever.Tokens — the partial that is found and the partial that is written to

`rtrv_find_partial` takes an entry for a partial when it is the destination between two dots, 16
characters and `.part`. It reads the characters with `sscanf`, which also knows upper case, white space
and signs; `rtrv_partial_name` writes the token in lower case. So the two names are the same exactly
when the characters are what `sha256_hex` writes.
-/
import Retriever.Partials

namespace Retriever

open Os (SLASH DOT)

/-! ## The digits in the name of a partial -/

/-- The 16 characters before `.part`. -/
def C.tokenDigits (entry : Bytes) : Bytes :=
  (entry.drop (entry.length - 5 - TOKEN_SIZE * 2)).take (TOKEN_SIZE * 2)

/-- The characters are digits that `sha256_hex` writes. -/
def C.LowerHex (digits : Bytes) : Prop := ∀ b ∈ digits, b ∈ ascii "0123456789abcdef"

instance (digits : Bytes) : Decidable (C.LowerHex digits) :=
  inferInstanceAs (Decidable (∀ b ∈ digits, b ∈ ascii "0123456789abcdef"))

theorem lowerDigits_eq : ascii "0123456789abcdef" = (List.range 16).map hexDigit := by rfl

theorem hexDigit_of_mem {b : UInt8} (h : b ∈ ascii "0123456789abcdef") :
    ∃ n < 16, b = hexDigit n := by
  rw [lowerDigits_eq] at h
  obtain ⟨n, hn, rfl⟩ := List.mem_map.mp h
  exact ⟨n, List.mem_range.mp hn, rfl⟩

theorem hexDigit_mem {n : Nat} (h : n < 16) : hexDigit n ∈ ascii "0123456789abcdef" := by
  rw [lowerDigits_eq]
  exact List.mem_map_of_mem (List.mem_range.mpr h)

theorem lowerHex_hex (bs : Bytes) : C.LowerHex (hex bs) := by
  intro c hc
  obtain ⟨b, -, hb⟩ := List.mem_flatMap.mp hc
  have hlt := b.toNat_lt
  simp only [List.mem_cons, List.not_mem_nil, or_false] at hb
  rcases hb with rfl | rfl
  · exact hexDigit_mem (by omega)
  · exact hexDigit_mem (by omega)

/-- Pairs of lower case digits are some bytes in hexadecimal. -/
theorem hex_of_lowerHex {k : Nat} {digits : Bytes} (hlen : digits.length = k * 2)
    (h : C.LowerHex digits) : ∃ bs : Bytes, bs.length = k ∧ digits = hex bs := by
  induction k generalizing digits with
  | zero => exact ⟨[], rfl, List.eq_nil_of_length_eq_zero (by omega)⟩
  | succ k ih =>
    obtain ⟨c, tail, rfl⟩ := List.exists_cons_of_length_pos (l := digits) (by omega)
    rw [List.length_cons] at hlen
    obtain ⟨c', rest, rfl⟩ := List.exists_cons_of_length_pos (l := tail) (by omega)
    have hrest : rest.length = k * 2 := by
      simp only [List.length_cons] at hlen
      omega
    obtain ⟨bs, hbs, rfl⟩ := ih hrest fun b hb => h b (by simp [hb])
    obtain ⟨x, hx, rfl⟩ := hexDigit_of_mem (h c (by simp))
    obtain ⟨y, hy, rfl⟩ := hexDigit_of_mem (h c' (by simp))
    have hval : (UInt8.ofNat (16 * x + y)).toNat = 16 * x + y := by
      rw [UInt8.toNat_ofNat']
      omega
    refine ⟨UInt8.ofNat (16 * x + y) :: bs, by simp [hbs], ?_⟩
    show _ = hexDigit ((UInt8.ofNat (16 * x + y)).toNat / 16) ::
      hexDigit ((UInt8.ofNat (16 * x + y)).toNat % 16) :: hex bs
    rw [hval, show (16 * x + y) / 16 = x by omega, show (16 * x + y) % 16 = y by omega]

/-- What the loop of `rtrv_find_partial` counts is the front, the digits and `.part`. -/
theorem C.eq_of_isPartialOf {front entry : Bytes} (h : C.isPartialOf front entry = true) :
    entry = front ++ C.tokenDigits entry ++ ascii ".part" ∧
      (C.tokenDigits entry).length = TOKEN_SIZE * 2 := by
  unfold C.isPartialOf at h
  simp only [Bool.and_eq_true, decide_eq_true_eq] at h
  obtain ⟨⟨hlen, hfront⟩, hpart⟩ := h
  have hpos : entry.length - 5 - TOKEN_SIZE * 2 = front.length := by omega
  have hrest : (entry.drop front.length).drop (TOKEN_SIZE * 2) = ascii ".part" := by
    rw [List.drop_drop, ← hpart]
    congr 1
    omega
  constructor
  · unfold C.tokenDigits
    rw [hpos]
    conv_lhs => rw [← List.take_append_drop front.length entry, hfront,
      ← List.take_append_drop (TOKEN_SIZE * 2) (entry.drop front.length), hrest]
    rw [List.append_assoc]
  · unfold C.tokenDigits
    rw [hpos, List.length_take, List.length_drop]
    omega

/-- The digits of a name the program writes. -/
theorem C.tokenDigits_partialBase (base : Bytes) {digest : Bytes} (hd : digest.length = HASH_SIZE) :
    C.tokenDigits (partialBase base digest) = hex (digest.take TOKEN_SIZE) := by
  obtain ⟨heq, -⟩ := C.eq_of_isPartialOf (C.isPartialOf_partialBase base hd)
  have hbase : partialBase base digest =
      ([DOT] ++ base ++ [DOT]) ++ hex (digest.take TOKEN_SIZE) ++ ascii ".part" := rfl
  rw [hbase] at heq ⊢
  exact (List.append_cancel_left (List.append_cancel_right heq)).symm

/-! ## The paths of the two functions -/

/-- The parts of a destination fit in the arrays of `rtrv_split_path`. -/
theorem C.splitPath_fits {dest dir base : Bytes} {k n : Nat}
    (h : C.splitPath dest k n = some (dir, base)) : dir.length < k ∧ base.length < n := by
  unfold C.splitPath at h
  simp only at h
  split at h
  · cases h
  next hname =>
  split at h
  · split at h
    · cases h
    · next hk =>
      cases h
      exact ⟨by simp only [List.length_singleton]; omega, by omega⟩
  · by_cases hk : (if dest.length - (Path.tail dest).length - 1 = 0 then 1
        else dest.length - (Path.tail dest).length - 1) ≥ k
    · rw [if_pos hk] at h
      cases h
    · rw [if_neg hk] at h
      cases h
      exact ⟨lt_of_le_of_lt (List.length_take_le _ _) (not_le.mp hk), not_le.mp hname⟩

/-- The path of an entry fits in the array for it. -/
theorem C.entryPath_fits {dest dir base entry : Bytes}
    (hsplit : C.splitPath dest C.DIR_MAX (C.MAX_NAME + 1) = some (dir, base))
    (h : C.isPartialOf ([DOT] ++ base ++ [DOT]) entry = true) :
    (C.entryPath dir dest entry).length < C.PATH_MAX := by
  obtain ⟨hdir, hbase⟩ := C.splitPath_fits hsplit
  obtain ⟨heq, hdigits⟩ := C.eq_of_isPartialOf h
  have hpart : (ascii ".part").length = 5 := by decide
  have hentry : entry.length = base.length + 2 + TOKEN_SIZE * 2 + 5 := by
    rw [heq]
    simp only [List.length_append, List.length_singleton, hdigits, hpart]
    omega
  simp only [C.DIR_MAX, C.MAX_NAME, C.PATH_MAX, TOKEN_SIZE] at *
  unfold C.entryPath
  split
  · omega
  · simp only [List.length_append, List.length_singleton]
    omega

/-- `rtrv_partial_name` makes the path of an entry as `rtrv_find_partial` does. -/
theorem C.partialName_eq {dest dir base digest : Bytes} (hd : digest.length = HASH_SIZE)
    (hsplit : C.splitPath dest C.DIR_MAX (C.MAX_NAME + 1) = some (dir, base)) :
    C.partialName dest digest = some (C.entryPath dir dest (partialBase base digest)) := by
  have hfits := C.entryPath_fits hsplit (C.isPartialOf_partialBase base hd)
  obtain ⟨-, -, -, hdot⟩ := Os.locateDir_splitPath Os.empty hsplit
  have hname : [DOT] ++ base ++ [DOT] ++ C.sha256Hex digest TOKEN_SIZE ++ ascii ".part" =
      partialBase base digest := by
    rw [C.sha256Hex_token hd]
    rfl
  have hpath : (if SLASH ∉ dest then partialBase base digest
      else dir ++ [SLASH] ++ partialBase base digest) =
        C.entryPath dir dest (partialBase base digest) := by
    unfold C.entryPath
    by_cases hslash : SLASH ∉ dest
    · rw [if_pos hslash, if_pos ⟨hdot hslash, hslash⟩]
    · rw [if_neg hslash, if_neg fun h => hslash h.2]
  unfold C.partialName
  rw [hsplit]
  simp only [hname, hpath]
  rw [if_neg (by omega)]

theorem C.entryPath_inj {dir dest n n' : Bytes}
    (h : C.entryPath dir dest n = C.entryPath dir dest n') : n = n' := by
  unfold C.entryPath at h
  split at h
  · exact h
  · exact List.append_cancel_left h

/-- What is known when `rtrv_find_partial` returns 1. -/
theorem C.findPartial_found {os : Os} {dest q t : Bytes} {s : UInt64}
    (h : (C.findPartial dest).eval os.ask = .ok (.found q s t)) :
    ∃ dir entry st, C.splitPath dest C.DIR_MAX (C.MAX_NAME + 1) = some (dir, Path.tail dest) ∧
      C.partialsOf os dest = [entry] ∧ q = C.entryPath dir dest entry ∧ os.statAt q = some st ∧
      s = UInt64.ofNat st.size ∧ C.scanToken entry = some t := by
  unfold C.findPartial at h
  cases hsplit : C.splitPath dest C.DIR_MAX (C.MAX_NAME + 1) with
  | none =>
    rw [hsplit] at h
    cases h
  | some db =>
    obtain ⟨dir, base⟩ := db
    obtain ⟨rfl, -, hdir, -⟩ := Os.locateDir_splitPath os hsplit
    rw [hsplit] at h
    simp only [Proc.eval_perform_bind] at h
    rw [show os.ask (.fs (.listdir dir)) = (os.run (.listdir dir)).1 from rfl, Os.run_listdir,
      hdir] at h
    cases hl : os.destDir dest with
    | none =>
      rw [hl] at h
      cases h
    | some l =>
      rw [hl] at h
      simp only at h
      split at h
      · next entry hentry =>
        rw [show (if dir = [DOT] ∧ SLASH ∉ dest then entry else dir ++ [SLASH] ++ entry) =
            C.entryPath dir dest entry from rfl, Proc.eval_perform_bind,
          show os.ask (.fs (.stat _)) = os.statAt (C.entryPath dir dest entry) from rfl] at h
        have hof : C.partialsOf os dest = [entry] := by
          unfold C.partialsOf
          rw [hl]
          exact hentry
        cases hst : os.statAt (C.entryPath dir dest entry) with
        | none =>
          rw [hst] at h
          cases h
        | some st =>
          rw [hst] at h
          simp only at h
          split at h
          · cases h
          · next token htoken =>
            cases h
            exact ⟨dir, entry, st, rfl, hof, rfl, hst, rfl, htoken⟩
      · cases h

/-- **The offset offered is the size of the file appended to**: the partial that was found is the one
that is named for any digest with its token, its size is the size that was sent, and a reply that
resumes is appended to it. -/
structure C.AppendsToFound (os : Os) (dest q : Bytes) (s : UInt64) (t : Bytes) : Prop where
  sized : ∃ st, os.statAt q = some st ∧ s = UInt64.ofNat st.size
  named : ∀ digest, digest.length = HASH_SIZE → digest.take TOKEN_SIZE = t →
    C.partialName dest digest = some q
  appended : ∀ metadata, metadata.length = GET_META → (metadata.drop 16).take TOKEN_SIZE = t →
    0 < C.getU64 (metadata.drop 8) →
      ∃ k, C.receiveDownload dest (.found q s t) metadata = Proc.call (Sys.fs (.openAb q)) k

theorem length_of_mapM {α β : Type} {f : α → Option β} {xs : List α} {ys : List β}
    (h : xs.mapM f = some ys) : ys.length = xs.length := by
  induction xs generalizing ys with
  | nil =>
    cases h
    rfl
  | cons x xs ih =>
    rw [List.mapM_cons] at h
    obtain ⟨y, -, h⟩ := Option.bind_eq_some_iff.mp h
    obtain ⟨ys', hys', h⟩ := Option.bind_eq_some_iff.mp h
    cases h
    rw [List.length_cons, List.length_cons, ih hys']

theorem C.length_scanToken {entry t : Bytes} (h : C.scanToken entry = some t) :
    t.length = TOKEN_SIZE := by
  unfold C.scanToken at h
  rw [length_of_mapM h, List.length_range]

/-- The client appends to the file it has found exactly when the 16 characters in its name are digits
in lower case. -/
theorem C.appendsToFound_iff {os : Os} {dest q t : Bytes} {s : UInt64}
    (h : (C.findPartial dest).eval os.ask = .ok (.found q s t)) :
    C.AppendsToFound os dest q s t ↔
      ∀ entry ∈ C.partialsOf os dest, C.LowerHex (C.tokenDigits entry) := by
  obtain ⟨dir, entry, st, hsplit, hof, rfl, hstat, hs, htoken⟩ := C.findPartial_found h
  have hpartial : C.isPartialOf ([DOT] ++ Path.tail dest ++ [DOT]) entry = true := by
    have : entry ∈ C.partialsOf os dest := by
      rw [hof]
      exact List.mem_singleton_self _
    exact (List.mem_filter.mp this).2
  rw [hof]
  simp only [List.mem_singleton, forall_eq]
  constructor
  · intro happ
    -- a digest that starts with the token
    have hlen : (t ++ List.replicate 24 0).length = HASH_SIZE := by
      rw [List.length_append, C.length_scanToken htoken]
      rfl
    have htake : (t ++ List.replicate 24 0).take TOKEN_SIZE = t :=
      List.take_left' (C.length_scanToken htoken)
    have hname := happ.named _ hlen htake
    rw [C.partialName_eq hlen hsplit, Option.some.injEq] at hname
    rw [← C.entryPath_inj hname, C.tokenDigits_partialBase _ hlen]
    exact lowerHex_hex _
  · intro hlower
    obtain ⟨heq, hdigits⟩ := C.eq_of_isPartialOf hpartial
    obtain ⟨bs, hbs, hhex⟩ := hex_of_lowerHex hdigits hlower
    have hentry : ∀ digest : Bytes, digest.take TOKEN_SIZE = bs →
        entry = partialBase (Path.tail dest) digest := by
      intro digest hd
      rw [heq, hhex, partialBase, hd]
    have hlen : (bs ++ List.replicate 24 0).length = HASH_SIZE := by
      rw [List.length_append, hbs]
      decide
    have htake : (bs ++ List.replicate 24 0).take TOKEN_SIZE = bs := List.take_left' hbs
    -- the digits are read back as the bytes they were written for
    obtain rfl : bs = t := by
      rw [hentry _ htake, C.scanToken_partialBase hlen, htake] at htoken
      exact Option.some.inj htoken
    have hnamed : ∀ digest, digest.length = HASH_SIZE → digest.take TOKEN_SIZE = bs →
        C.partialName dest digest = some (C.entryPath dir dest entry) := by
      intro digest hd ht
      rw [C.partialName_eq hd hsplit, ← hentry digest ht]
    refine ⟨⟨st, hstat, hs⟩, hnamed, fun metadata hmeta ht hstart => ?_⟩
    have hd : (metadata.drop 16).length = HASH_SIZE := by
      rw [List.length_drop, hmeta]
      rfl
    have hne : C.getU64 (metadata.drop 8) ≠ 0 := (UInt64.pos_iff_ne_zero).mp hstart
    unfold C.receiveDownload
    simp only [hnamed _ hd ht]
    rw [if_neg hne]
    unfold C.fopenPartial
    rw [if_pos hstart]
    exact ⟨_, rfl⟩

/-- The partial of a download that was cut off is the one that is appended to. -/
theorem C.appendsToFound_shelf : C.AppendsToFound (shelf (ascii "d")) (ascii "d/f")
    (ascii "d/.f.0707070707070707.part") 3 (List.replicate 8 7) := by
  have hshelf : (C.findPartial (ascii "d/f")).eval (shelf (ascii "d")).ask =
        .ok (.found (ascii "d/.f.0707070707070707.part") 3 (List.replicate 8 7)) ∧
      C.partialsOf (shelf (ascii "d")) (ascii "d/f") = [partialBase (ascii "f") sevens] ∧
      C.LowerHex (C.tokenDigits (partialBase (ascii "f") sevens)) := by decide +kernel
  apply (C.appendsToFound_iff hshelf.1).mpr
  rw [hshelf.2.1]
  intro entry hentry
  rw [List.mem_singleton.mp hentry]
  exact hshelf.2.2

/-- A directory with one file of three bytes, whose name looks like that of a partial of `a`. -/
def upperCase : Os := lone (ascii ".a.ABCDEF0123456789.part") [1, 2, 3]

/-- The file is found and three bytes are offered for the token, but a download with that token goes to
a file of another name. -/
theorem C.upperCase_not_appended :
    (C.findPartial (ascii "a")).eval upperCase.ask =
      .ok (.found (ascii ".a.ABCDEF0123456789.part") 3 [0xAB, 0xCD, 0xEF, 0x01, 0x23, 0x45, 0x67, 0x89]) ∧
    ¬ C.AppendsToFound upperCase (ascii "a") (ascii ".a.ABCDEF0123456789.part") 3
      [0xAB, 0xCD, 0xEF, 0x01, 0x23, 0x45, 0x67, 0x89] := by
  have hfound : (C.findPartial (ascii "a")).eval upperCase.ask = .ok (.found
      (ascii ".a.ABCDEF0123456789.part") 3 [0xAB, 0xCD, 0xEF, 0x01, 0x23, 0x45, 0x67, 0x89]) ∧
      C.partialName (ascii "a") ([0xAB, 0xCD, 0xEF, 0x01, 0x23, 0x45, 0x67, 0x89] ++
        List.replicate 24 0) = some (ascii ".a.abcdef0123456789.part") := by decide +kernel
  refine ⟨hfound.1, fun h => ?_⟩
  have hname := h.named ([0xAB, 0xCD, 0xEF, 0x01, 0x23, 0x45, 0x67, 0x89] ++ List.replicate 24 0)
    (by decide) rfl
  rw [hfound.2] at hname
  revert hname
  decide

end Retriever
