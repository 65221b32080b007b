/-
# Retriever.Server.Sweep — the sweep at startup

`sweep_partials` deletes by a wildcard, in the directory that also holds the published files. This module
says what it deletes, and compares the wildcard with the names that partials have.
-/
import Retriever.Neighbours
import Retriever.Tokens

namespace Retriever

open Os (SLASH DOT)
open Proc (Yields)

/-! ## The wildcard -/

/-- What the wildcard of the sweep matches. -/
theorem fnmatch_sweep {n : Bytes} :
    Glob.fnmatch n (ascii ".*.part") = true ↔ ∃ x, n = [DOT] ++ x ++ ascii ".part" := by
  have hcodes : fsdecode (ascii ".*.part") = [46, 42, 46, 112, 97, 114, 116] := by decide
  have hparse : Glob.parse [46, 42, 46, 112, 97, 114, 116].length [46, 42, 46, 112, 97, 114, 116] =
      [46].map Glob.literal ++ .star :: partCodes.map Glob.literal := by decide
  have hpart : fsencode partCodes = ascii ".part" := by decide
  unfold Glob.fnmatch
  simp only
  rw [hcodes, hparse, Glob.matches_literals]
  constructor
  · rintro ⟨s, hs, hm⟩
    obtain ⟨x, y, rfl, hy⟩ := (Glob.matches_star _ _).mp hm
    rw [← List.append_nil (partCodes.map Glob.literal)] at hy
    obtain ⟨z, rfl, hz⟩ := (Glob.matches_literals _ _ _).mp hy
    obtain rfl : z = [] := by simpa [Glob.matches?] using hz
    refine ⟨fsencode x, ?_⟩
    have hn := fsencode_fsdecode n
    rw [hs, List.append_nil, fsencode_append, fsencode_append, hpart, ← List.append_assoc] at hn
    exact hn.symm
  · rintro ⟨x, rfl⟩
    have htail : fsdecode [112, 97, 114, 116] = [112, 97, 114, 116] := by decide
    have hname : [DOT] ++ x ++ ascii ".part" = 46 :: (x ++ 46 :: [112, 97, 114, 116]) := by
      rw [ascii_part]
      rfl
    refine ⟨fsdecode x ++ partCodes, ?_, ?_⟩
    · rw [hname, fsdecode_cons (by decide), fsdecode_append x (by decide), htail]
      rfl
    · refine (Glob.matches_star _ _).mpr ⟨fsdecode x, partCodes, rfl, ?_⟩
      rw [← List.append_nil (partCodes.map Glob.literal)]
      exact (Glob.matches_literals _ _ _).mpr ⟨[], by simp, rfl⟩

section Glob

variable {N : Type} {net : Net N} {m : Machine N}

/-- A pattern for hidden files finds the entries of the working directory that match. -/
theorem Glob.glob_here {pattern : Bytes} (hno : SLASH ∉ pattern) (hmagic : Glob.hasMagic pattern = true)
    (hhidden : Glob.isHidden pattern = true) :
    Yields net.env (Glob.glob pattern) m
      (.ok ((m.os.entries m.os.cwd).filter fun n => Glob.fnmatch n pattern)) m := by
  have hlist : Yields net.env (Glob.listdir [] false) m (.ok (m.os.entries m.os.cwd)) m := by
    have h := @Glob.listdir_yields _ net m []
    rwa [show Os.dirPath [] = [DOT] from rfl, Os.locateDir_dot] at h
  unfold Glob.glob Glob.iglob
  rw [Path.split_plain hno]
  simp only
  rw [if_neg (by rw [hmagic]; simp), if_pos trivial]
  unfold Glob.glob1
  apply hlist.bind
  rw [if_pos hhidden]
  exact Proc.yields_done _ _

end Glob

/-! ## The sweep -/

/-- The disk without some entries of the working directory. -/
def Os.without (os : Os) (ns : List Bytes) : Os :=
  ns.foldl (fun os n => os.removeAt (os.cwd ++ [n])) os

namespace Os

variable {os : Os} {n : Bytes} {ns : List Bytes}

theorem without_cwd (os : Os) (ns : List Bytes) : (os.without ns).cwd = os.cwd := by
  induction ns generalizing os with
  | nil => rfl
  | cons n ns ih => exact (ih (os.removeAt (os.cwd ++ [n]))).trans rfl

theorem without_data (os : Os) (ns : List Bytes) : (os.without ns).store.data = os.store.data := by
  induction ns generalizing os with
  | nil => rfl
  | cons n ns ih => exact (ih (os.removeAt (os.cwd ++ [n]))).trans rfl

open Classical in
/-- The entries are gone and everything else is where it was. -/
theorem without_slot (os : Os) (ns : List Bytes) (l : Loc) :
    (os.without ns).slot l = if ∃ n ∈ ns, l = os.cwd ++ [n] then none else os.slot l := by
  induction ns generalizing os with
  | nil => simp [without]
  | cons n ns ih =>
    have hstep := ih (os.removeAt (os.cwd ++ [n]))
    rw [removeAt_slot (os.not_prefix_cwd n)] at hstep
    apply hstep.trans
    show (if ∃ n' ∈ ns, l = os.cwd ++ [n'] then none else if l = os.cwd ++ [n] then none else os.slot l) = _
    simp only [List.exists_mem_cons_iff]
    by_cases h : ∃ n' ∈ ns, l = os.cwd ++ [n']
    · rw [if_pos h, if_pos (.inr h)]
    · rw [if_neg h]
      by_cases hn : l = os.cwd ++ [n]
      · rw [if_pos hn, if_pos (.inl hn)]
      · rw [if_neg hn, if_neg (not_or.mpr ⟨hn, h⟩)]

theorem without_entry (os : Os) (ns : List Bytes) (n : Bytes) :
    (os.without ns).entry n = if n ∈ ns then none else os.entry n := by
  have h := os.without_slot ns (os.cwd ++ [n])
  have hcwd := os.without_cwd ns
  rw [slot_eq_entry, ← hcwd, slot_eq_entry, hcwd] at h
  refine h.trans (if_congr ⟨?_, fun hn => ⟨n, hn, rfl⟩⟩ rfl rfl)
  rintro ⟨n', hn', heq⟩
  obtain rfl : n = n' := by simpa using heq
  exact hn'

end Os

section Sweep

variable {N : Type} {net : Net N} {T : Type} [Sub T] [LT T] [DecidableLT T] {now maxAge : T}
  {mtime : Bytes → T}

theorem sweepOne_old {m : Machine N} {n : Bytes} {i : Nat} (hn : Plain n)
    (hfile : m.os.entry n = some (.file i)) (hold : now - mtime n > maxAge) :
    Yields net.env (sweepOne now maxAge (fun p => .ok (mtime p)) n) m (.ok 1)
      { m with os := m.os.without [n] } := by
  unfold sweepOne
  apply Yields.tryCatch
  show Yields net.env (if now - mtime n > maxAge then _ else _) _ _ _
  rw [if_pos hold]
  refine Yields.bind (a := ()) ?_ (Proc.yields_done 1 _)
  apply Py.wpm_remove.mpr
  rw [Os.run_unlink_entry hn hfile]
  exact ⟨rfl, rfl⟩

theorem sweepOne_young {m : Machine N} {n : Bytes} (hold : ¬ now - mtime n > maxAge) :
    Yields net.env (sweepOne now maxAge (fun p => .ok (mtime p)) n) m (.ok 0) m := by
  unfold sweepOne
  apply Yields.tryCatch
  show Yields net.env (if now - mtime n > maxAge then _ else _) _ _ _
  rw [if_neg hold]
  exact Proc.yields_done 0 m

/-- The loop: what is old goes, when it can be removed. -/
theorem sweepLoop_yields {m : Machine N} {removed : Nat} {ns : List Bytes} (hnodup : ns.Nodup)
    (hplain : ∀ n ∈ ns, Plain n)
    (hfile : ∀ n ∈ ns, now - mtime n > maxAge → ∃ i, m.os.entry n = some (.file i)) :
    Yields net.env (sweepLoop now maxAge (fun p => .ok (mtime p)) removed ns) m
      (.ok (removed + (ns.filter fun n => now - mtime n > maxAge).length))
      { m with os := m.os.without (ns.filter fun n => now - mtime n > maxAge) } := by
  induction ns generalizing m removed with
  | nil => exact Proc.yields_done _ _
  | cons n ns ih =>
    obtain ⟨hnot, hnodup'⟩ := List.nodup_cons.mp hnodup
    obtain ⟨hn, hplain'⟩ := List.forall_mem_cons.mp hplain
    by_cases hold : now - mtime n > maxAge
    · obtain ⟨i, hi⟩ := hfile n List.mem_cons_self hold
      apply (sweepOne_old hn hi hold).bind
      -- the files still to come are other ones
      have hfile' : ∀ n' ∈ ns, now - mtime n' > maxAge →
          ∃ i, (m.os.without [n]).entry n' = some (.file i) := by
        intro n' hn' hold'
        rw [Os.without_entry, if_neg (by rintro h; exact hnot (List.mem_singleton.mp h ▸ hn'))]
        exact hfile n' (List.mem_cons_of_mem n hn') hold'
      have hnext := @ih { m with os := m.os.without [n] } (removed + 1) hnodup' hplain' hfile'
      rw [Nat.add_right_comm removed 1] at hnext
      rw [List.filter_cons_of_pos (by simpa using hold)]
      exact hnext
    · apply (sweepOne_young hold).bind
      rw [List.filter_cons_of_neg (by simpa using hold)]
      exact ih hnodup' hplain' fun n' hn' => hfile n' (List.mem_cons_of_mem n hn')

end Sweep

/-! ## Partials of uploads -/

/-- The name of a partial of an upload: `.<name>.<16 lowercase hex digits>.part`, for a name that the
server accepts. -/
def IsUploadPartial (n : Bytes) : Prop := ∃ t digits, checkFilename t = true ∧ digits.length = 16 ∧
  C.LowerHex digits ∧ n = [DOT] ++ encode t ++ [DOT] ++ digits ++ ascii ".part"

/-- The partials that uploads leave have the form. -/
theorem isUploadPartial_partialBase {t : Text} {d : Bytes} (ht : checkFilename t = true)
    (hd : d.length = HASH_SIZE) : IsUploadPartial (partialBase (encode t) d) := by
  refine ⟨t, hex (d.take TOKEN_SIZE), ht, ?_, lowerHex_hex _, rfl⟩
  rw [hex_length, List.length_take, hd]
  rfl

/-- The wildcard finds all of them. -/
theorem IsUploadPartial.swept {n : Bytes} (h : IsUploadPartial n) :
    Glob.fnmatch n (ascii ".*.part") = true := by
  obtain ⟨t, digits, -, -, -, rfl⟩ := h
  refine fnmatch_sweep.mpr ⟨encode t ++ [DOT] ++ digits, ?_⟩
  simp only [List.append_assoc]

/-- **What the sweep should leave**: the partials of uploads that are old are gone, everything else is
where it was with the bytes it had, and the number of the entries that are gone is returned. -/
structure SweptExactly (os : Os) (old : Bytes → Prop) (r : Except Exn Nat) (os' : Os) : Prop where
  gone : ∀ n, os.entry n ≠ none → IsUploadPartial n → old n → os'.entry n = none
  kept : ∀ l, (¬ ∃ n, l = os.cwd ++ [n] ∧ IsUploadPartial n ∧ old n) → os'.slot l = os.slot l
  data : os'.store.data = os.store.data
  cwd : os'.cwd = os.cwd
  counted : r = .ok ((os.entries os.cwd).filter fun n => os'.entry n = none).length

section Swept

variable {os : Os} {T : Type} [Sub T] [LT T] [DecidableLT T] {now maxAge : T} {mtime : Bytes → T}

/-- What matches the wildcard can be used as a path. -/
theorem plain_of_swept {n : Bytes} (h : Glob.fnmatch n (ascii ".*.part") = true) (hno : SLASH ∉ n) :
    Plain n := by
  obtain ⟨x, rfl⟩ := fnmatch_sweep.mp h
  have hlen : 6 ≤ ([DOT] ++ x ++ ascii ".part").length := by
    rw [ascii_part]
    simp
  refine ⟨?_, hno, ?_, ?_⟩
  all_goals
    intro he
    rw [he] at hlen
    revert hlen
    decide

/-- What the sweep takes. -/
def swept (os : Os) (now maxAge : T) (mtime : Bytes → T) : List Bytes :=
  ((os.entries os.cwd).filter fun n => Glob.fnmatch n (ascii ".*.part")).filter fun n =>
    now - mtime n > maxAge

theorem mem_swept {n : Bytes} : n ∈ swept os now maxAge mtime ↔
    os.entry n ≠ none ∧ Glob.fnmatch n (ascii ".*.part") = true ∧ now - mtime n > maxAge := by
  rw [swept, List.mem_filter, List.mem_filter, Os.mem_entries, decide_eq_true_iff, and_assoc]

/-- The sweep, when `getmtime` and `remove` succeed. -/
theorem sweepPartials_yields {N : Type} {net : Net N} {m : Machine N} (hnamed : m.os.Named)
    (hremove : ∀ n, Glob.fnmatch n (ascii ".*.part") = true → now - mtime n > maxAge →
      m.os.entry n ≠ none → (m.os.run (.unlink n)).1 = .ok ()) :
    Yields net.env (sweepPartials now maxAge fun p => .ok (mtime p)) m
      (.ok (swept m.os now maxAge mtime).length)
      { m with os := m.os.without (swept m.os now maxAge mtime) } := by
  unfold sweepPartials
  apply (Glob.glob_here (by decide) (by decide) (by decide)).bind
  have hplain : ∀ n ∈ (m.os.entries m.os.cwd).filter fun n => Glob.fnmatch n (ascii ".*.part"),
      Plain n := by
    intro n hn
    obtain ⟨hmem, hmatch⟩ := List.mem_filter.mp hn
    exact plain_of_swept hmatch (hnamed _ n hmem)
  have h := @sweepLoop_yields N net T _ _ _ now maxAge mtime m 0 _ (m.os.entries_nodup.filter _) hplain ?_
  · rwa [Nat.zero_add] at h
  · intro n hn hold
    obtain ⟨hmem, hmatch⟩ := List.mem_filter.mp hn
    exact (Os.run_unlink_ok (hplain n hn) (hremove n hmatch hold (m.os.mem_entries.mp hmem))).1

/-- The entries that are gone are the ones that the sweep takes. -/
theorem without_swept_entry {n : Bytes} (hn : os.entry n ≠ none) :
    (os.without (swept os now maxAge mtime)).entry n = none ↔ n ∈ swept os now maxAge mtime := by
  rw [Os.without_entry]
  by_cases h : n ∈ swept os now maxAge mtime
  · rw [if_pos h]
    exact iff_of_true rfl h
  · rw [if_neg h]
    exact iff_of_false hn h

/-- The number of the entries that are gone. -/
theorem swept_length : (swept os now maxAge mtime).length =
    ((os.entries os.cwd).filter fun n =>
      (os.without (swept os now maxAge mtime)).entry n = none).length := by
  have hboth : swept os now maxAge mtime = (os.entries os.cwd).filter fun n =>
      decide (now - mtime n > maxAge) && Glob.fnmatch n (ascii ".*.part") := List.filter_filter ..
  refine congrArg List.length (hboth.trans (List.filter_congr fun n hn => ?_))
  have hmem : n ∈ swept os now maxAge mtime ↔ _ := mem_swept
  rw [← without_swept_entry (os.mem_entries.mp hn)] at hmem
  rw [Bool.eq_iff_iff, Bool.and_eq_true, decide_eq_true_iff, decide_eq_true_iff]
  exact ⟨fun h => hmem.mpr ⟨os.mem_entries.mp hn, h.2, h.1⟩, fun h => (hmem.mp h).2.symm⟩

/-- Where the sweep leaves what it should, the old entry that the wildcard matches is a partial. -/
theorem SweptExactly.isUploadPartial {r : Except Exn Nat} {n : Bytes}
    (h : SweptExactly os (fun n => now - mtime n > maxAge) r (os.without (swept os now maxAge mtime)))
    (hn : os.entry n ≠ none) (hold : now - mtime n > maxAge)
    (hform : Glob.fnmatch n (ascii ".*.part") = true) : IsUploadPartial n := by
  by_contra hnot
  -- the entry is gone, and should have been kept
  have hgone := (without_swept_entry hn).mpr (mem_swept.mpr ⟨hn, hform, hold⟩)
  have hkept : (os.without (swept os now maxAge mtime)).slot (os.cwd ++ [n]) = os.slot (os.cwd ++ [n]) := by
    apply h.kept _
    rintro ⟨n', heq, hpart, -⟩
    obtain rfl : n = n' := by simpa using heq
    exact hnot hpart
  rw [← Os.slot_eq_entry, h.cwd, hkept, Os.slot_eq_entry] at hgone
  exact hn hgone

/-- **`sweep_partials` takes exactly the old partials of uploads if and only if every old entry called
`.….part` is one.** A published file may be called so too: `check_filename` has nothing against it. -/
theorem swept_exactly_iff {m : Machine Wire} (hnamed : m.os.Named)
    (hremove : ∀ n, Glob.fnmatch n (ascii ".*.part") = true → now - mtime n > maxAge →
      m.os.entry n ≠ none → (m.os.run (.unlink n)).1 = .ok ()) :
    Proc.Ensures Net.wire.env (sweepPartials now maxAge fun p => .ok (mtime p)) m
        (fun r m' => SweptExactly m.os (fun n => now - mtime n > maxAge) r m'.os) ↔
      ∀ n, m.os.entry n ≠ none → now - mtime n > maxAge → (∃ x, n = [DOT] ++ x ++ ascii ".part") →
        IsUploadPartial n := by
  have hyields := @sweepPartials_yields T _ _ _ now maxAge mtime Wire Net.wire m hnamed hremove
  constructor
  · rintro ⟨⟨r, m', hrun⟩, hall⟩ n hn hold hform
    have hswept := hall r m' hrun
    obtain ⟨-, rfl⟩ := hyields.unique hrun
    exact hswept.isUploadPartial hn hold (fnmatch_sweep.mpr hform)
  · intro hcond
    refine Proc.ensures_of_wp Net.wire_live (hyields.wp (fun k hk => ?_) fun e he => by cases he)
    have hmem : ∀ n, n ∈ swept m.os now maxAge mtime ↔
        m.os.entry n ≠ none ∧ IsUploadPartial n ∧ now - mtime n > maxAge := by
      intro n
      rw [mem_swept]
      exact ⟨fun h => ⟨h.1, hcond n h.1 h.2.2 (fnmatch_sweep.mp h.2.1), h.2.2⟩,
        fun h => ⟨h.1, h.2.1.swept, h.2.2⟩⟩
    refine ⟨fun n hn hpart hold => ?_, fun l hl => ?_, m.os.without_data _, m.os.without_cwd _, ?_⟩
    · exact (without_swept_entry hn).mpr ((hmem n).mpr ⟨hn, hpart, hold⟩)
    · refine (m.os.without_slot _ l).trans (if_neg ?_)
      rintro ⟨n, hn, rfl⟩
      exact hl ⟨n, rfl, ((hmem n).mp hn).2⟩
    · rw [← hk, swept_length]

end Swept

/-- The only file of a directory can be removed. -/
theorem roomy_removable {name data n : Bytes} (hname : Plain name) (hn : (roomy name data).entry n ≠ none) :
    n = name ∧ ((roomy name data).run (.unlink n)).1 = .ok () := by
  obtain ⟨-, rfl⟩ := roomy_mem.mp ((roomy name data).mem_entries.mpr hn)
  have hcwd : (roomy n data).cwd = [] := Os.extend_cwd _ _ _
  have hfile : (roomy n data).entry n = some (.file 0) := by
    rw [← Os.slot_eq_entry, hcwd, List.nil_append, roomy_slot, if_pos rfl]
  rw [Os.run_unlink_entry hname hfile]
  exact ⟨rfl, rfl⟩

/-- A partial that is ten units old is taken when the limit is five. -/
theorem swept_exactly_one :
    Proc.Ensures Net.wire.env (sweepPartials (10 : Int) 5 fun _ => .ok 0)
      ⟨roomy (partialBase (ascii "f") sevens) [1], ∅, ⟨[], []⟩⟩
      (fun r m' => SweptExactly (roomy (partialBase (ascii "f") sevens) [1]) (fun _ => (10 : Int) - 0 > 5)
        r m'.os) := by
  have hplain : Plain (partialBase (ascii "f") sevens) := partialBase_plain (by decide)
  refine (swept_exactly_iff (m := ⟨roomy (partialBase (ascii "f") sevens) [1], ∅, ⟨[], []⟩⟩)
    (roomy_named hplain.no_slash) fun n _ _ hn => (roomy_removable hplain hn).2).mpr ?_
  intro n hn _ _
  rw [(roomy_removable hplain hn).1]
  exact isUploadPartial_partialBase (t := ['f']) (by decide) (by decide)

/-- A file published under the name `.a.part`, which the server accepts, is taken too. -/
theorem published_swept :
    checkFilename ".a.part".toList = true ∧
    ¬ Proc.Ensures Net.wire.env (sweepPartials (10 : Int) 5 fun _ => .ok 0)
      ⟨roomy (ascii ".a.part") [1], ∅, ⟨[], []⟩⟩
      (fun r m' => SweptExactly (roomy (ascii ".a.part") [1]) (fun _ => (10 : Int) - 0 > 5) r m'.os) := by
  refine ⟨by decide, ?_⟩
  have hform : Glob.fnmatch (ascii ".a.part") (ascii ".*.part") = true := by decide +kernel
  have hplain : Plain (ascii ".a.part") := plain_of_swept hform (by decide)
  rintro ⟨⟨r, m', hrun⟩, hall⟩
  have hswept := hall r m' hrun
  have hyields := @sweepPartials_yields Int _ _ _ 10 5 (fun _ => 0) Wire Net.wire
    ⟨roomy (ascii ".a.part") [1], ∅, ⟨[], []⟩⟩ (roomy_named hplain.no_slash)
    fun n _ _ hn => (roomy_removable hplain hn).2
  obtain ⟨-, rfl⟩ := hyields.unique hrun
  have hentry : (roomy (ascii ".a.part") [1]).entry (ascii ".a.part") ≠ none :=
    (Os.mem_entries _).mp (roomy_mem.mpr ⟨Os.extend_cwd _ _ _, rfl⟩)
  obtain ⟨t, digits, -, hdigits, -, heq⟩ := hswept.isUploadPartial hentry (by decide) hform
  -- the sixteen digits alone are longer
  have hlen := congrArg List.length heq
  simp only [List.length_append, hdigits] at hlen
  have : (ascii ".a.part").length = 7 := by decide
  omega

end Retriever
