/-
# Retriever.Neighbours — downloads to different names in one directory

`find_partial` looks for `.<name>.*.part`, and a name may contain dots. So the partials of
`<name>.<anything>` match too: when one of them is the only match, Python takes it for its own, offers
its length and its token, and removes it when the server starts over. Where no such name is concerned,
a download leaves the partials of its neighbours alone, whatever is in the directory and whatever the
server sends.
-/
import Retriever.Delivered

namespace Retriever

open Os (SLASH DOT)
open Proc (Yields Runs)

/-! ## Which partials match -/

/-- The bytes of a name that matches. -/
theorem fnmatch_form {base n : Bytes}
    (h : Glob.fnmatch n ([DOT] ++ Glob.escape base ++ ascii ".*.part") = true) :
    ∃ y, n = [DOT] ++ base ++ [DOT] ++ y ++ ascii ".part" := by
  obtain ⟨x, hx⟩ := fnmatch_partials.mp h
  have hn := fsencode_fsdecode n
  have hdot : fsencode [46] = [DOT] := by decide
  have hpart : fsencode partCodes = ascii ".part" := by decide
  refine ⟨fsencode x, ?_⟩
  rw [← hn, hx, ← List.singleton_append, List.append_cons, fsencode_append, fsencode_append,
    fsencode_append, fsencode_append, hdot, hpart, fsencode_fsdecode]

/-- The partials of a longer name match. -/
theorem fnmatch_of_prefix {d d' digest : Bytes} (h : d ++ [DOT] <+: d') :
    Glob.fnmatch (partialBase d' digest) ([DOT] ++ Glob.escape d ++ ascii ".*.part") = true := by
  obtain ⟨x, rfl⟩ := h
  refine fnmatch_partials.mpr ⟨fsdecode (x ++ 46 :: hex (digest.take TOKEN_SIZE)), ?_⟩
  have hpart : fsdecode [112, 97, 114, 116] = [112, 97, 114, 116] := by decide
  have hbytes : partialBase (d ++ [DOT] ++ x) digest =
      46 :: (d ++ 46 :: (x ++ 46 :: (hex (digest.take TOKEN_SIZE) ++ 46 :: [112, 97, 114, 116]))) := by
    unfold partialBase
    rw [ascii_part]
    simp [Os.DOT]
  rw [hbytes, fsdecode_cons (by decide), fsdecode_append _ (by decide), fsdecode_append x (by decide),
    fsdecode_append x (by decide), fsdecode_append _ (by decide), hpart]
  simp [partCodes]

/-- And no others. -/
theorem prefix_of_fnmatch {d d' digest : Bytes} (hne : d ≠ d')
    (h : Glob.fnmatch (partialBase d' digest) ([DOT] ++ Glob.escape d ++ ascii ".*.part") = true) :
    d ++ [DOT] <+: d' := by
  obtain ⟨y, hy⟩ := fnmatch_form h
  unfold partialBase at hy
  have hbody : d' ++ ([DOT] ++ hex (digest.take TOKEN_SIZE)) = (d ++ [DOT]) ++ y := by
    have h1 := List.append_cancel_right hy
    simp only [List.append_assoc, List.cons_append, List.cons.injEq, true_and] at h1 ⊢
    exact h1
  rcases List.append_eq_append_iff.mp hbody with ⟨z, hz, hz'⟩ | ⟨z, hz, -⟩
  · -- the dot after `d` would be in the token, or `d` would be `d'`
    cases z with
    | nil =>
      rw [List.append_nil] at hz
      exact ⟨[], by rw [List.append_nil, hz]⟩
    | cons b z =>
      exfalso
      rw [List.singleton_append, List.cons_append, List.cons.injEq] at hz'
      obtain ⟨rfl, htoken⟩ := hz'
      rcases List.eq_nil_or_concat z with rfl | ⟨z', c, rfl⟩
      · exact hne (List.append_cancel_right hz)
      · have hlast : c = DOT := by
          rw [List.concat_eq_append, ← List.cons_append, ← List.append_assoc] at hz
          exact (List.cons.inj (List.append_inj' hz rfl).2).1.symm
        apply hex_no_dot (digest.take TOKEN_SIZE)
        rw [htoken, hlast]
        simp
  · exact ⟨z, hz.symm⟩

/-! ## What Python can find -/

/-- `q` is an entry of some directory that matches the pattern for a destination. -/
def Os.Matched (os : Os) (dest q : Bytes) : Prop :=
  ∃ D l n, q = Path.join D n ∧ os.locateDir (Os.dirPath D) = some l ∧ n ∈ os.entries l ∧
    Glob.fnmatch n (partialsPattern dest) = true

section Glob

variable {N : Type} {net : Net N} {m : Machine N}

theorem Glob.glob1_matches (dest D : Bytes) : ∃ names,
    Yields net.env (Glob.glob1 D (partialsPattern dest) false) m (.ok names) m ∧
      ∀ n ∈ names, m.os.Matched dest (Path.join D n) := by
  have hlist := @Glob.listdir_yields N net m D
  refine ⟨_, hlist.bind (Proc.yields_done _ _), fun n hn => ?_⟩
  obtain ⟨hn, hmatch⟩ := List.mem_filter.mp hn
  rw [if_pos (show Glob.isHidden (partialsPattern dest) = true from rfl)] at hn
  unfold Os.namesIn at hn
  cases hl : m.os.locateDir (Os.dirPath D) with
  | none =>
    rw [hl] at hn
    cases hn
  | some l =>
    rw [hl] at hn
    exact ⟨D, l, n, rfl, hl, hn, hmatch⟩

theorem Glob.dirs_matches (dest : Bytes) (dirs : List Bytes) : ∃ found,
    Yields net.env (dirs.mapM fun d => do
      let names ← Glob.glob1 d (partialsPattern dest) false
      pure (names.map (Path.join d)) : Py (List (List Bytes))) m (.ok found) m ∧
      ∀ q ∈ found.flatten, m.os.Matched dest q := by
  induction dirs with
  | nil => exact ⟨[], Proc.yields_done _ _, nofun⟩
  | cons d dirs ih =>
    obtain ⟨names, hnames, hmatch⟩ := @Glob.glob1_matches N net m dest d
    obtain ⟨found, hfound, hall⟩ := ih
    refine ⟨names.map (Path.join d) :: found, ?_, ?_⟩
    · rw [List.mapM_cons]
      exact Yields.bind (hnames.bind (Proc.yields_done _ _)) (hfound.bind (Proc.yields_done _ _))
    · intro q hq
      rw [List.flatten_cons, List.mem_append] at hq
      rcases hq with hq | hq
      · obtain ⟨n, hn, rfl⟩ := List.mem_map.mp hq
        exact hmatch n hn
      · exact hall q hq

/-- **What is found matches**, in whichever directory it is. -/
theorem Glob.glob_matches (dest : Bytes) : ∃ found,
    Yields net.env (Glob.glob (partialPattern dest)) m (.ok found) m ∧
      ∀ q ∈ found, m.os.Matched dest q := by
  have hno := partialsPattern_no_slash dest
  have hpat : partialPattern dest = Path.join (Path.split dest).1 (partialsPattern dest) := rfl
  have hsplit := Path.split_join_split dest hno
  have hstar : Glob.hasMagic (partialsPattern dest) = true := by
    refine List.any_eq_true.mpr ⟨42, List.mem_append_right _ ?_, by decide⟩
    decide
  have hstar' : Glob.hasMagic (Path.join (Path.split dest).1 (partialsPattern dest)) = true := by
    obtain ⟨b, hb, hm⟩ := List.any_eq_true.mp hstar
    refine List.any_eq_true.mpr ⟨b, Path.mem_join _ hb, hm⟩
  unfold Glob.glob Glob.iglob
  rw [hpat, hsplit]
  simp only
  rw [if_neg (by rw [hstar']; simp)]
  split
  · next hD =>
    obtain ⟨names, hnames, hmatch⟩ := @Glob.glob1_matches N net m dest []
    rw [hD]
    refine ⟨names, hnames, fun q hq => ?_⟩
    have := hmatch q hq
    rwa [Path.join_nil] at this
  · -- the directories are found by their own pattern, or there is one
    have htail : ∀ dirs : List Bytes, ∃ found, Yields net.env (do
        let found ← dirs.mapM fun d => (do
          let names ← Glob.glob1 d (partialsPattern dest) false
          pure (names.map (Path.join d)))
        pure found.flatten : Py (List Bytes)) m (.ok found) m ∧ ∀ q ∈ found, m.os.Matched dest q := by
      intro dirs
      obtain ⟨found, hfound, hall⟩ := @Glob.dirs_matches N net m dest dirs
      exact ⟨found.flatten, hfound.bind (Proc.yields_done _ _), hall⟩
    split
    · cases heval : (Glob.iglob (Path.join (Path.split dest).1 (partialsPattern dest)).length
          (Path.split dest).1 true).eval m.os.ask with
      | ok dirs =>
        obtain ⟨found, hfound, hall⟩ := htail dirs
        exact ⟨found, Yields.bind (heval ▸ Net.yields_eval (X := fun _ => True) (Glob.uses_iglob _ _ _))
          hfound, hall⟩
      | error e => exact (Proc.eval_uses (X := fun _ => False) (Glob.uses_iglob _ _ _) heval).elim
    · obtain ⟨found, hfound, hall⟩ := htail [(Path.split dest).1]
      exact ⟨found, hfound, hall⟩

theorem findPartial_matches {os : Os} {dest q : Bytes}
    (h : (findPartial dest).eval os.ask = .ok (some q)) : os.Matched dest q := by
  obtain ⟨found, hfound, hall⟩ := @Glob.glob_matches Wire Net.wire ⟨os, ∅, ⟨[], []⟩⟩ dest
  have hy : Yields Net.wire.env (findPartial dest) ⟨os, ∅, ⟨[], []⟩⟩ (.ok (some q))
      ⟨os, ∅, ⟨[], []⟩⟩ := h ▸ Net.yields_eval (X := fun _ => True) (findPartial_uses dest)
  have hwp : (findPartial dest).wp Net.wire.env (fun r _ => ∀ q, r = some q → os.Matched dest q)
      (fun _ _ => True) ⟨os, ∅, ⟨[], []⟩⟩ := by
    refine Proc.wp_bind.mpr (hfound.wp ?_ fun _ _ => trivial)
    intro a ha
    cases ha
    split
    · rintro q ⟨⟩
      exact hall _ (List.mem_singleton_self _)
    · rintro q ⟨⟩
  obtain ⟨r, m', hrun⟩ := Proc.exists_runs Net.wire_live (findPartial dest) ⟨os, ∅, ⟨[], []⟩⟩
  obtain ⟨rfl, -⟩ := hy.unique hrun
  rcases Proc.wp_runs hwp hrun with ⟨a, ha, hq⟩ | ⟨e, he, -⟩
  · cases ha
    exact hq q rfl
  · cases he

end Glob

/-! ## The neighbours of a download -/

/-- No entry has a slash in its name. -/
def Os.Named (os : Os) : Prop := ∀ l, ∀ n ∈ os.entries l, SLASH ∉ n

/-- The place is bound to the file it was bound to, and the file has its bytes unless it has another
name. -/
def Spares (os os' : Os) (l : Loc) : Prop :=
  os'.slot l = os.slot l ∧ ∀ i, os.slot l = some (.file i) →
    (∀ l', os.slot l' = some (.file i) → l' = l) → os'.store.data i = os.store.data i

/-- **A download to `dest` leaves the partials of `dest'` alone**: on every disk and against every
server, it neither offers such a file nor deletes or changes it. -/
def LeavesAlone (dest dest' : Bytes) : Prop :=
  ∀ (os : Os) (fl : Finset Bytes) (digest : Bytes) (l : Loc) (i : Nat), os.Named →
    digest.length = HASH_SIZE → os.locate (partialName dest' digest) = some l →
    os.slot l = some (.file i) →
    (∀ q, (findPartial dest).eval os.ask = .ok (some q) → os.locate q ≠ some l) ∧
    ∀ filename output, getDest filename output = dest → ∀ r m',
      Runs Net.hostile.env (doGet filename output) ⟨os, fl, []⟩ r m' → Spares os m'.os l

section Alone

variable {d d' h : Bytes}

theorem Os.locate_matched {os : Os} {dest q : Bytes} {l : Loc} (hnamed : os.Named)
    (hq : os.Matched dest q) (hl : os.locate q = some l) :
    ∃ L n, l = L ++ [n] ∧ Glob.fnmatch n (partialsPattern dest) = true := by
  obtain ⟨D, L, n, rfl, hL, hn, hmatch⟩ := hq
  have hslash := hnamed L n hn
  obtain ⟨y, hy⟩ := fnmatch_form hmatch
  have hplain : Plain n := by
    refine ⟨?_, hslash, ?_, ?_⟩
    · rw [hy]
      simp
    · intro hdot
      have := congrArg List.length (hy.symm.trans hdot)
      simp [ascii_part] at this
    · intro hdot
      have := congrArg List.length (hy.symm.trans hdot)
      simp [ascii_part] at this
      omega
  rw [Os.locate_join hslash hplain.ne_nil, hL, Option.map_some, Os.enter_plain hplain] at hl
  exact ⟨L, n, (Option.some.inj hl).symm, hmatch⟩

/-- A download does not find the partial of another name that does not go on with a dot. -/
theorem found_elsewhere {os : Os} {digest q : Bytes} {l : Loc} (hh : Path.Closed h) (hd : SLASH ∉ d)
    (hd' : SLASH ∉ d') (hne : d ≠ d') (hapart : ¬ d ++ [DOT] <+: d') (hnamed : os.Named)
    (hl : os.locate (partialName (h ++ d') digest) = some l)
    (hq : (findPartial (h ++ d)).eval os.ask = .ok (some q)) : os.locate q ≠ some l := by
  intro hlq
  obtain ⟨L, n, rfl, hmatch⟩ := Os.locate_matched hnamed (findPartial_matches hq) hlq
  rw [locate_partialName, Path.tail_of_closed hh hd'] at hl
  obtain ⟨L', hL', heq⟩ := Option.map_eq_some_iff.mp hl
  obtain rfl : partialBase d' digest = n := by
    have := List.append_inj_right' heq rfl
    exact (List.cons.inj this).1
  refine hapart (@prefix_of_fnmatch d d' digest hne ?_)
  unfold partialsPattern at hmatch
  rwa [Path.tail_of_closed hh hd] at hmatch

/-- **Names that are no longer versions of each other do not meet.** -/
theorem leavesAlone_of_apart (hh : Path.Closed h) (hd : SLASH ∉ d) (hd' : SLASH ∉ d') (hne : d ≠ d')
    (hapart : ¬ d ++ [DOT] <+: d') : LeavesAlone (h ++ d) (h ++ d') := by
  intro os fl digest l i hnamed hdigest hl hs
  have helse : ∀ q, (findPartial (h ++ d)).eval os.ask = .ok (some q) → os.locate q ≠ some l :=
    fun q hq => found_elsewhere hh hd hd' hne hapart hnamed hl hq
  refine ⟨helse, fun filename output hdest r m' hrun => ?_⟩
  obtain ⟨found, hfind⟩ := findPartial_eval os (h ++ d)
  have hsafe := @doGet_safe os fl filename output found (by rw [hdest]; exact hfind)
  rw [hdest] at hsafe
  have hdown : ∃ ok, DownloadSafe os (h ++ d) found (fun d' => some (partialName (h ++ d) d')) ok m'.net
      m'.os := by
    rcases Proc.wp_runs hsafe hrun with ⟨_, -, hr⟩ | ⟨_, -, hr⟩
    · exact ⟨_, hr⟩
    · exact ⟨_, hr⟩
  obtain ⟨ok, hdown⟩ := hdown
  by_cases hfree : os.at? (h ++ d) = none
  · -- none of the places that are touched is `l`
    have hnot : ¬ Touched os (h ++ d) found (fun d' => some (partialName (h ++ d) d')) m'.net l := by
      rintro (hdst | ⟨q, rfl, hlq⟩ | ⟨hlen, p, ⟨⟩, hlp⟩)
      · rw [Os.at?_eq_none.mp hfree l hdst] at hs
        cases hs
      · exact helse q hfind hlq
      · have hhash : (metaHash m'.net).length = HASH_SIZE := by
          have h62 : HEADER_SIZE + GET_META = 62 := rfl
          have h30 : HEADER_SIZE + 16 = 30 := rfl
          have h32 : HASH_SIZE = 32 := rfl
          unfold metaHash
          rw [List.length_take, List.length_drop]
          omega
        rw [locate_partialName, Path.tail_of_closed hh hd] at hlp
        rw [locate_partialName, Path.tail_of_closed hh hd'] at hl
        obtain ⟨L, -, rfl⟩ := Option.map_eq_some_iff.mp hlp
        obtain ⟨L', -, heq⟩ := Option.map_eq_some_iff.mp hl
        have hbase := (List.cons.inj (List.append_inj_right' heq rfl)).1
        exact hne (partialBase_inj (by rw [hdigest]; decide) (by rw [hhash]; decide) hbase).1.symm
    refine ⟨hdown.confined.slot l hnot, fun i hi honly => ?_⟩
    refine hdown.confined.data i ?_ fun l' hl' hs' => ?_
    · exact os.store.fresh l i (Os.lookup_of_slot hi)
    · exact hnot (honly l' hs' ▸ hl')
  · rw [hdown.taken hfree]
    exact ⟨rfl, fun _ _ _ => rfl⟩

/-- A disk that takes every name, and has one file. -/
def roomy (name data : Bytes) : Os := { lone name data with accepts := fun _ => true }

theorem roomy_slot (name data : Bytes) (l : Loc) :
    (roomy name data).slot l = if l = [name] then some (.file 0) else Os.empty.slot l := by
  have hfree : Os.empty.slot [name] = none := by
    rw [Os.slot_of_apart _ (by simp [Os.empty])]
    rfl
  show (lone name data).slot l = _
  unfold lone
  rw [Os.extend_slot, Os.createAt_slot hfree]
  rfl

theorem roomy_mem {name data : Bytes} {l : Loc} {n : Bytes} :
    n ∈ (roomy name data).entries l ↔ l = [] ∧ n = name := by
  have hcwd : (roomy name data).cwd = [] := Os.extend_cwd _ _ _
  have hapart : ∀ l n, ¬ l ++ [n] <+: (roomy name data).cwd := by
    intro l n h
    rw [hcwd, List.prefix_nil] at h
    simp at h
  have hempty : Os.empty.slot (l ++ [n]) = none := by
    rw [Os.slot_of_apart _ (by simp [Os.empty])]
    rfl
  rw [Os.mem_entries_at, ← Os.slot_of_apart _ (hapart l n), roomy_slot, hempty]
  constructor
  · intro h
    by_cases hk : l ++ [n] = [name]
    · exact List.append_eq_singleton_iff.mp hk |>.elim (fun h => ⟨h.1, (List.cons.inj h.2).1⟩)
        fun h => absurd h.2 (by simp)
    · rw [if_neg hk] at h
      exact absurd rfl h
  · rintro ⟨rfl, rfl⟩
    rw [List.nil_append, if_pos rfl]
    simp

theorem roomy_named {name data : Bytes} (h : SLASH ∉ name) : (roomy name data).Named := by
  intro l n hn
  rw [(roomy_mem.mp hn).2]
  exact h

/-- **A name that goes on with a dot is met**: its partial is taken for the other's. -/
theorem found_neighbour (hd : Plain d) (hpre : d ++ [DOT] <+: d') (digest data : Bytes) :
    (findPartial d).eval (roomy (partialBase d' digest) data).ask =
      .ok (some (partialBase d' digest)) := by
  have hcwd : (roomy (partialBase d' digest) data).cwd = [] := Os.extend_cwd _ _ _
  have hsplit : Path.split d = ([], d) := Path.split_plain hd.no_slash
  have htail : Path.tail d = d := Path.tail_eq_self hd.no_slash
  have hdir : (roomy (partialBase d' digest) data).destDir d = some [] := by
    rw [← Os.locateDir_split, hsplit, Os.dirPath, if_pos rfl, Os.locateDir_dot, hcwd]
  have hof : (roomy (partialBase d' digest) data).partialsOf d = [partialBase d' digest] := by
    rw [partialsOf_eq hdir]
    refine filter_eq_singleton (Os.entries_nodup _) (roomy_mem.mpr ⟨rfl, rfl⟩) ?_ ?_
    · unfold partialsPattern
      rw [htail]
      exact fnmatch_of_prefix hpre
    · exact fun n hn _ => (roomy_mem.mp hn).2
  have hy := @findPartial_yields Wire Net.wire ⟨roomy (partialBase d' digest) data, ∅, ⟨[], []⟩⟩ d
    (partialBase d' digest) (by rw [hsplit]; rfl) hof
  rw [hsplit, Path.join_nil] at hy
  exact Os.eval_eq (X := fun _ => True) (findPartial_uses d) hy

theorem not_leavesAlone (hd : Plain d) (hd' : Plain d') (hpre : d ++ [DOT] <+: d') :
    ¬ LeavesAlone d d' := by
  intro h
  have hplain : Plain (partialBase d' sevens) := partialBase_plain hd'.no_slash
  have hloc : (roomy (partialBase d' sevens) []).locate (partialBase d' sevens) =
      some [partialBase d' sevens] := by
    rw [Os.locate_plain _ hplain, show (roomy (partialBase d' sevens) []).cwd = [] from
      Os.extend_cwd _ _ _]
    rfl
  have hnamed := @roomy_named (partialBase d' sevens) [] hplain.no_slash
  obtain ⟨hfound, -⟩ := h (roomy (partialBase d' sevens) []) ∅ sevens [partialBase d' sevens] 0 hnamed
    (by decide) (by rw [partialName_plain hd'.no_slash]; exact hloc) (by rw [roomy_slot, if_pos rfl])
  exact hfound _ (found_neighbour hd hpre sevens []) hloc

/-- **A download leaves the partials of another name of the directory alone exactly when that name is
not its own, a dot and something more.** -/
theorem downloads_apart_iff (hd : Plain d) (hd' : Plain d') (hne : d ≠ d') :
    (∀ h, Path.Closed h → LeavesAlone (h ++ d) (h ++ d')) ↔ ¬ d ++ [DOT] <+: d' := by
  constructor
  · intro h hpre
    exact not_leavesAlone hd hd' hpre (h [] (.inl rfl))
  · intro hapart h hh
    exact leavesAlone_of_apart hh hd.no_slash hd'.no_slash hne hapart

/-- Neither of `a` and `b` goes on after the other. -/
theorem downloads_apart_a_b : LeavesAlone (ascii "x/a") (ascii "x/b") :=
  (@downloads_apart_iff (ascii "a") (ascii "b") ⟨by decide, by decide, by decide, by decide⟩
    ⟨by decide, by decide, by decide, by decide⟩ (by decide)).mpr (by decide) (ascii "x/")
    (.inr ⟨ascii "x", by decide⟩)

/-- The partial of `a.b`, alone in its directory. -/
def partialOfAB : Bytes := partialBase (ascii "a.b") sevens

/-- A server that starts over with a file of one byte, and is cut off before the byte. -/
def startsOver : Bytes := okHeader (GET_META + 1) ++ (toBE 8 1 ++ toBE 8 0 ++ List.replicate HASH_SIZE 0)

/-- A download to `a` offers the three bytes of the partial of `a.b`, and when the server starts over,
the partial is gone. -/
theorem neighbour_deleted :
    (findPartial (ascii "a")).eval (roomy partialOfAB [1, 2, 3]).ask = .ok (some partialOfAB) ∧
    (roomy partialOfAB [1, 2, 3]).content partialOfAB = some [1, 2, 3] ∧
    (∃ r m', Runs Net.hostile.env (doGet (ascii "a") none) ⟨roomy partialOfAB [1, 2, 3], ∅, []⟩ r m' ∧
      m'.os.at? partialOfAB = none) ∧
    ¬ LeavesAlone (ascii "a") (ascii "a.b") := by
  have ha : Plain (ascii "a") := ⟨by decide, by decide, by decide, by decide⟩
  have hab : Plain (ascii "a.b") := ⟨by decide, by decide, by decide, by decide⟩
  have hpre : ascii "a" ++ [DOT] <+: ascii "a.b" := by decide
  refine ⟨found_neighbour ha hpre sevens [1, 2, 3], by decide +kernel, ?_, not_leavesAlone ha hab hpre⟩
  have hgone : (Machine.greedy ⟨roomy partialOfAB [1, 2, 3], ∅, ⟨startsOver, []⟩⟩
      (doGet (ascii "a") none)).2.os.at? partialOfAB = none := by decide +kernel
  have hruns := Machine.greedy_runs (doGet (ascii "a") none)
    ⟨roomy partialOfAB [1, 2, 3], ∅, ⟨startsOver, []⟩⟩
  generalize Machine.greedy _ (doGet (ascii "a") none) = out at hgone hruns
  obtain ⟨got, hrun⟩ := hruns.hostile []
  exact ⟨out.1, _, hrun, hgone⟩

end Alone

end Retriever
