/-
# Retriever.Destination — where a destination and its partials lie

The two clients take a destination apart in different ways: Python keeps what `os.path.split` gives
and joins it again, the C client cuts at the last slash and always puts a slash back. Repeated
slashes, a destination below `/` and one without a directory part all come out as different paths.
They lead to the same place: to the directory of the destination (`Os.destDir`), where the partial
is an entry.
-/
import Retriever.CClient.Transfer
import Retriever.Globs

namespace Retriever

open Os (SLASH DOT)

/-! ## The last slash -/

namespace Path

theorem head_append_tail (p : Bytes) : head p ++ tail p = p := by
  have hsuffix : tail p <:+ p := by
    unfold tail
    rw [← List.reverse_prefix, List.reverse_reverse]
    exact List.takeWhile_prefix _
  unfold head
  rw [List.suffix_iff_eq_append] at hsuffix
  exact hsuffix

theorem tail_no_slash (p : Bytes) : SLASH ∉ tail p := by
  intro h
  unfold tail at h
  have := List.mem_takeWhile_imp (List.mem_reverse.mp h)
  simp at this

/-- What stands before the last component is empty or ends in a slash. -/
def Closed (h : Bytes) : Prop := h = [] ∨ ∃ t, h = t ++ [SLASH]

theorem tail_of_closed {h n : Bytes} (hh : Closed h) (hn : SLASH ∉ n) : tail (h ++ n) = n := by
  have hall : ∀ x ∈ n.reverse, decide (x ≠ SLASH) = true := by
    intro x hx
    rw [decide_eq_true_eq]
    rintro rfl
    exact hn (List.mem_reverse.mp hx)
  have hstop : h.reverse.takeWhile (fun x => decide (x ≠ SLASH)) = [] := by
    rcases hh with rfl | ⟨t, rfl⟩
    · rfl
    · rw [List.reverse_append]
      rfl
  unfold tail
  rw [List.reverse_append, List.takeWhile_append_of_pos hall, hstop, List.append_nil,
    List.reverse_reverse]

theorem head_of_closed {h n : Bytes} (hh : Closed h) (hn : SLASH ∉ n) : head (h ++ n) = h := by
  unfold head
  rw [tail_of_closed hh hn, List.length_append, Nat.add_sub_cancel, List.take_left]

theorem head_closed (p : Bytes) : Closed (head p) := by
  have hp := head_append_tail p
  have hrev : p.reverse = (tail p).reverse ++ (head p).reverse := by
    rw [← List.reverse_append, hp]
  have htail : (tail p).reverse = p.reverse.takeWhile fun x => decide (x ≠ SLASH) := by
    unfold tail
    rw [List.reverse_reverse]
  have hdrop : (head p).reverse = p.reverse.dropWhile fun x => decide (x ≠ SLASH) := by
    have happ : (tail p).reverse ++ (head p).reverse =
        (tail p).reverse ++ p.reverse.dropWhile fun x => decide (x ≠ SLASH) := by
      rw [← hrev, htail, List.takeWhile_append_dropWhile]
    exact List.append_cancel_left happ
  cases hd : (head p).reverse with
  | nil => exact .inl (List.reverse_eq_nil_iff.mp hd)
  | cons b t =>
    have hb : b = SLASH := by
      have hne : p.reverse.dropWhile (fun x => decide (x ≠ SLASH)) ≠ [] := by
        rw [← hdrop, hd]
        simp
      have hhead := List.head_dropWhile_not (fun x => decide (x ≠ SLASH)) hne
      simp only [← hdrop, hd, List.head_cons, decide_eq_false_iff_not, not_not] at hhead
      exact hhead
    right
    refine ⟨t.reverse, ?_⟩
    rw [← List.reverse_reverse (head p), hd, hb, List.reverse_cons]

theorem rstrip_append (p : Bytes) : ∃ k, p = rstrip p ++ List.replicate k SLASH := by
  have hp : (p.reverse.dropWhile fun x => decide (x = SLASH)).reverse ++
      (p.reverse.takeWhile fun x => decide (x = SLASH)).reverse = p := by
    rw [← List.reverse_append, List.takeWhile_append_dropWhile, List.reverse_reverse]
  have hrep : p.reverse.takeWhile (fun x => decide (x = SLASH)) =
      List.replicate (p.reverse.takeWhile fun x => decide (x = SLASH)).length SLASH := by
    refine List.eq_replicate_iff.mpr ⟨rfl, fun x hx => ?_⟩
    have hx' := List.mem_takeWhile_imp hx
    exact of_decide_eq_true hx'
  refine ⟨(p.reverse.takeWhile fun x => decide (x = SLASH)).length, ?_⟩
  rw [hrep, List.reverse_replicate] at hp
  exact hp.symm

theorem rstrip_not_slash (p : Bytes) : (rstrip p).getLast? ≠ some SLASH := by
  unfold rstrip
  rw [List.getLast?_reverse]
  intro h
  have hne : p.reverse.dropWhile (fun x => decide (x = SLASH)) ≠ [] := by
    intro hnil
    rw [hnil] at h
    cases h
  have hhead := List.head_dropWhile_not (fun x => decide (x = SLASH)) hne
  rw [List.head?_eq_some_head hne, Option.some.injEq] at h
  rw [h] at hhead
  simp at hhead

theorem rstrip_ne_nil {p : Bytes} (h : ¬ p.all (· = SLASH) = true) : rstrip p ≠ [] := by
  intro hnil
  obtain ⟨k, hk⟩ := rstrip_append p
  rw [hnil, List.nil_append] at hk
  apply h
  rw [hk]
  simp

theorem rstrip_slash (p : Bytes) : rstrip (p ++ [SLASH]) = rstrip p := by
  unfold rstrip
  rw [List.reverse_append]
  rfl

theorem rstrip_idem (p : Bytes) : rstrip (rstrip p) = rstrip p := by
  have hhead : ∀ b, (rstrip p).reverse.head? = some b → b ≠ SLASH := by
    rintro b hb rfl
    rw [List.head?_reverse] at hb
    exact rstrip_not_slash p hb
  have hdrop : (rstrip p).reverse.dropWhile (fun x => decide (x = SLASH)) = (rstrip p).reverse := by
    cases hr : (rstrip p).reverse with
    | nil => rfl
    | cons b t =>
      have hb := hhead b (by rw [hr]; rfl)
      rw [List.dropWhile_cons_of_neg (by simpa using hb)]
  have hstrip : rstrip (rstrip p) =
      ((rstrip p).reverse.dropWhile fun x => decide (x = SLASH)).reverse := rfl
  rw [hstrip, hdrop, List.reverse_reverse]

/-- Taking the parts together again gives a path with the same parts. -/
theorem split_join_split (p : Bytes) {n : Bytes} (hn : SLASH ∉ n) :
    split (join (split p).1 n) = ((split p).1, n) := by
  have hhead : n.head? ≠ some SLASH := by
    intro h
    exact hn (List.mem_of_mem_head? h)
  have hsplit : ∀ h, Closed h → (if h.all (· = SLASH) then h else rstrip h) = (split p).1 →
      join (split p).1 n = h ++ n → split (join (split p).1 n) = ((split p).1, n) := by
    intro h hh hs hj
    rw [hj, ← hs]
    unfold split
    rw [head_of_closed hh hn, tail_of_closed hh hn]
  have hclosed := head_closed p
  have hfst : (split p).1 = if (head p).all (· = SLASH) then head p else rstrip (head p) := rfl
  by_cases hall : (head p).all (· = SLASH) = true
  · rw [if_pos hall] at hfst
    apply hsplit (head p) hclosed (by rw [if_pos hall, hfst])
    rw [hfst, join, if_neg hhead]
    rcases hclosed with hnil | ⟨t, ht⟩
    · rw [hnil, if_pos (.inl rfl)]
    · rw [ht, if_pos (.inr (by simp))]
  · rw [if_neg hall] at hfst
    have hne := rstrip_ne_nil hall
    have hlast := rstrip_not_slash (head p)
    have hclosed' : Closed (rstrip (head p) ++ [SLASH]) := .inr ⟨_, rfl⟩
    have hall' : ¬ (rstrip (head p) ++ [SLASH]).all (· = SLASH) = true := by
      intro h
      rw [List.all_append, Bool.and_eq_true, List.all_eq_true] at h
      have := h.1 _ (List.getLast_mem hne)
      rw [decide_eq_true_eq] at this
      exact hlast (by rw [List.getLast?_eq_some_getLast hne, this])
    refine hsplit (rstrip (head p) ++ [SLASH]) hclosed' ?_ ?_
    · rw [if_neg hall', rstrip_slash, rstrip_idem, hfst]
    · rw [hfst, join, if_neg hhead, if_neg (not_or.mpr ⟨hne, hlast⟩), List.append_assoc]
      rfl

end Path

/-! ## Directories -/

namespace Os

variable {os : Os} {p n D : Bytes} {l : Loc}

/-- Where a path starts. -/
def origin (os : Os) (p : Bytes) : Loc := if p.head? = some SLASH then [] else os.cwd

theorem walk_append (l : Loc) (cs ds : List Bytes) :
    os.walk l (cs ++ ds) = (os.walk l cs).bind fun l' => os.walk l' ds := by
  induction cs generalizing l with
  | nil => rfl
  | cons c cs ih =>
    rw [List.cons_append, walk, walk]
    split
    · exact ih _
    · rfl

theorem isDir_root (os : Os) : os.isDir [] = true := by
  simp [isDir, slot]

/-- An empty component in front leads nowhere else. -/
theorem locate_eq_walk (hp : p ≠ []) : os.locate p = os.walk (os.origin p) (p.splitOn SLASH) := by
  cases p with
  | nil => exact absurd rfl hp
  | cons b rest =>
    unfold locate origin
    simp only [List.head?_cons, Option.some.injEq]
    by_cases hb : b = SLASH
    · subst hb
      have hcons : (SLASH :: rest).splitOn SLASH = [] :: rest.splitOn SLASH :=
        List.splitOn_append_cons_self [] rest
      rw [if_pos rfl, if_pos rfl, hcons, walk, if_pos (isDir_root os)]
      rfl
    · rw [if_neg hb, if_neg hb]

/-- The directory a path leads to. -/
def locateDir (os : Os) (p : Bytes) : Option Loc := (os.locate p).filter os.isDir

theorem walk_one (l : Loc) (n : Bytes) :
    os.walk l [n] = if os.isDir l then some (enter l n) else none := rfl

/-- An entry of a directory, as a path. -/
theorem locate_below (hD : D ≠ []) (hn : SLASH ∉ n) :
    os.locate (D ++ SLASH :: n) = (os.locateDir D).map fun l => enter l n := by
  have horigin : os.origin (D ++ SLASH :: n) = os.origin D := by
    unfold origin
    rw [List.head?_append_of_ne_nil _ hD]
  rw [locate_eq_walk (by simp), horigin, List.splitOn_append_cons_self, walk_append,
    List.splitOn_eq_singleton hn, ← locate_eq_walk hD, locateDir]
  cases os.locate D with
  | none => rfl
  | some l =>
    simp only [Option.bind_some, walk_one, Option.filter_some]
    split <;> rfl

/-- A slash at the end asks for a directory and leads nowhere else. -/
theorem locateDir_slash (hD : D ≠ []) : os.locateDir (D ++ [SLASH]) = os.locateDir D := by
  have henter : (fun l => enter l []) = (id : Loc → Loc) := by
    funext l
    exact if_pos (.inl rfl)
  have hlocate : os.locate (D ++ [SLASH]) = os.locateDir D := by
    rw [locate_below hD (by simp), henter, Option.map_id, id]
  conv_lhs => rw [locateDir, hlocate, locateDir, Option.filter_filter]
  simp only [Bool.and_self]
  rfl

theorem locateDir_slashes (hD : D ≠ []) (k : Nat) :
    os.locateDir (D ++ List.replicate k SLASH) = os.locateDir D := by
  induction k with
  | zero => rw [List.replicate_zero, List.append_nil]
  | succ k ih =>
    rw [List.replicate_succ', ← List.append_assoc, locateDir_slash (by simp [hD]), ih]

theorem locateDir_root : os.locateDir [SLASH] = some [] := by
  have hsplit : [SLASH].splitOn SLASH = [[], []] := by decide
  rw [locateDir, locate_eq_walk (by simp), hsplit]
  simp [origin, walk, isDir_root, enter]

theorem locateDir_dot : os.locateDir [DOT] = some os.cwd := by
  rw [locateDir, locate_dot, Option.filter_some, if_pos (isDir_cwd os)]

/-- The directory the first part of `os.path.split` stands for. -/
def dirPath (D : Bytes) : Bytes := if D = [] then [DOT] else D

/-- A path that is empty or ends in a slash, and a component. -/
theorem locate_closed {h : Bytes} (hh : Path.Closed h) (hn : SLASH ∉ n) (hne : n ≠ []) :
    os.locate (h ++ n) = (os.locateDir (dirPath h)).map fun l => enter l n := by
  rcases hh with rfl | ⟨t, rfl⟩
  · have horigin : os.origin n = os.cwd := if_neg fun h => hn (List.mem_of_mem_head? h)
    rw [dirPath, if_pos rfl, locateDir_dot, List.nil_append, locate_eq_walk hne,
      List.splitOn_eq_singleton hn, horigin, walk_one, if_pos (isDir_cwd os)]
    rfl
  · rw [dirPath, if_neg (by simp), List.append_assoc, List.singleton_append]
    by_cases ht : t = []
    · subst ht
      have horigin : os.origin ([] ++ SLASH :: n) = [] := if_pos rfl
      rw [locate_eq_walk (by simp), List.splitOn_append_cons_self, horigin, walk_append,
        List.splitOn_eq_singleton hn, List.nil_append, locateDir_root]
      simp [walk, isDir_root, enter]
    · rw [locate_below ht hn, locateDir_slash ht]

theorem locate_join (hn : SLASH ∉ n) (hne : n ≠ []) :
    os.locate (Path.join D n) = (os.locateDir (dirPath D)).map fun l => enter l n := by
  have hhead : n.head? ≠ some SLASH := fun h => hn (List.mem_of_mem_head? h)
  unfold Path.join
  rw [if_neg hhead]
  split
  · next h =>
    refine locate_closed ?_ hn hne
    rcases h with rfl | hlast
    · exact .inl rfl
    · exact .inr (List.getLast?_eq_some_iff.mp hlast)
  · next h =>
    rw [not_or] at h
    rw [locate_below h.1 hn, dirPath, if_neg h.1]

theorem locateDir_rstrip {h : Bytes} (hall : ¬ h.all (· = SLASH) = true) :
    os.locateDir (Path.rstrip h) = os.locateDir h := by
  obtain ⟨k, hk⟩ := Path.rstrip_append h
  conv_rhs => rw [hk, locateDir_slashes (Path.rstrip_ne_nil hall)]

/-- The directory of a destination. -/
def destDir (os : Os) (dest : Bytes) : Option Loc := os.locateDir (dirPath (Path.head dest))

theorem locateDir_split (os : Os) (dest : Bytes) :
    os.locateDir (dirPath (Path.split dest).1) = os.destDir dest := by
  have hfst : (Path.split dest).1 =
      if (Path.head dest).all (· = SLASH) then Path.head dest else Path.rstrip (Path.head dest) := rfl
  rw [hfst, destDir]
  split
  · rfl
  · next hall =>
    have hne : Path.head dest ≠ [] := by
      intro hnil
      rw [hnil] at hall
      exact hall rfl
    rw [dirPath, dirPath, if_neg hne, if_neg (Path.rstrip_ne_nil hall), locateDir_rstrip hall]

/-- A destination lies in its directory. -/
theorem locate_dest {dest : Bytes} (hne : Path.tail dest ≠ []) :
    os.locate dest = (os.destDir dest).map fun l => enter l (Path.tail dest) := by
  conv_lhs => rw [← Path.head_append_tail dest]
  exact locate_closed (Path.head_closed dest) (Path.tail_no_slash dest) hne

/-- Another entry of the directory is another place than the destination. -/
theorem dest_ne_entry {dest : Bytes} {L ld : Loc} (hL : os.destDir dest = some L)
    (hd : os.locate dest = some ld) (hn : n ≠ Path.tail dest) : ld ≠ L ++ [n] := by
  have hlen : ∀ l : Loc, l.length ≤ L.length → l ≠ L ++ [n] := by
    rintro l hle rfl
    simp at hle
  by_cases htail : Path.tail dest = []
  · have hp := Path.head_append_tail dest
    rw [htail, List.append_nil] at hp
    rcases Path.head_closed dest with hnil | ⟨t, ht⟩
    · rw [← hp, hnil] at hd
      cases hd
    · rw [← hp, ht] at hd
      rw [destDir, ht, dirPath, if_neg (by simp)] at hL
      have hfilter : os.locateDir (t ++ [SLASH]) = some L → ld = L := by
        intro h
        rw [locateDir, hd, Option.filter_some] at h
        split at h
        · exact Option.some.inj h
        · cases h
      exact hlen ld (by rw [hfilter hL])
  · rw [locate_dest htail, hL] at hd
    have hld : ld = enter L (Path.tail dest) := (Option.some.inj hd).symm
    rw [hld]
    unfold enter
    split
    · exact hlen L (Nat.le_refl _)
    split
    · exact hlen _ (by rw [List.length_dropLast]; omega)
    · intro h
      exact hn (by simpa using h.symm)

/-- Every directory on the way to a location is there. -/
def Rooted (os : Os) (l : Loc) : Prop := ∀ l', l' <+: l → l' ≠ l → os.isDir l' = true

theorem Rooted.enter (h : os.Rooted l) (hl : os.isDir l = true) (c : Bytes) :
    os.Rooted (Os.enter l c) := by
  have hall : ∀ l', l' <+: l → os.isDir l' = true := by
    intro l' hl'
    by_cases he : l' = l
    · rw [he, hl]
    · exact h l' hl' he
  unfold Os.enter
  split
  · exact h
  split
  · exact fun l' hl' _ => hall l' (hl'.trans (List.dropLast_prefix l))
  · intro l' hl' hne
    rcases List.prefix_concat_iff.mp hl' with he | hp
    · exact absurd he hne
    · exact hall l' hp

theorem walk_rooted {cs : List Bytes} {l' : Loc} (h : os.Rooted l) (hw : os.walk l cs = some l') :
    os.Rooted l' := by
  induction cs generalizing l with
  | nil =>
    cases hw
    exact h
  | cons c cs ih =>
    rw [walk] at hw
    split at hw
    · next hl => exact ih (h.enter hl c) hw
    · cases hw

theorem locate_rooted (hl : os.locate p = some l) : os.Rooted l := by
  by_cases hp : p = []
  · rw [hp] at hl
    cases hl
  · rw [locate_eq_walk hp] at hl
    refine walk_rooted ?_ hl
    unfold origin
    split
    · intro l' hl' hne
      exact absurd (List.prefix_nil.mp hl') hne
    · intro l' hl' _
      rw [isDir, slot, if_pos hl', decide_eq_true rfl]

/-- A path that does not name an entry names a directory that is there. -/
theorem plain_of_absent {dest : Bytes} {L : Loc} (hne : dest ≠ []) (hL : os.destDir dest = some L)
    (hfree : os.at? dest = none) : Plain (Path.tail dest) := by
  have hdir : os.isDir L = true ∧ os.Rooted L := by
    obtain ⟨hl, hd⟩ := Option.filter_eq_some_iff.mp hL
    exact ⟨hd, locate_rooted hl⟩
  have hno : ∀ l, os.locate dest = some l → os.isDir l ≠ true := by
    intro l hl hd
    rw [isDir, decide_eq_true_eq, at?_eq_none.mp hfree l hl] at hd
    cases hd
  have hslash := Path.tail_no_slash dest
  have hstay : ∀ l, l <+: L → os.isDir l = true := by
    intro l hl
    by_cases he : l = L
    · rw [he, hdir.1]
    · exact hdir.2 l hl he
  refine ⟨?_, hslash, ?_, ?_⟩
  · intro htail
    have hp := Path.head_append_tail dest
    rw [htail, List.append_nil] at hp
    have hloc : os.locateDir dest = some L := by
      rw [← hL, destDir, hp, dirPath, if_neg hne]
    exact hno L (Option.filter_eq_some_iff.mp hloc).1 hdir.1
  · intro htail
    refine hno L ?_ hdir.1
    rw [locate_dest (by rw [htail]; simp), hL, htail]
    rfl
  · intro htail
    refine hno L.dropLast ?_ (hstay _ (List.dropLast_prefix L))
    rw [locate_dest (by rw [htail]; simp), hL, htail]
    rfl

/-- A path leads to one location, if it leads anywhere. -/
theorem walk_unique {os' : Os} {cs : List Bytes} {a b : Loc} (h : os.walk l cs = some a)
    (h' : os'.walk l cs = some b) : a = b := by
  induction cs generalizing l with
  | nil => exact Option.some.inj (h.symm.trans h')
  | cons c cs ih =>
    rw [walk] at h h'
    split at h
    · split at h'
      · exact ih h h'
      · cases h'
    · cases h

theorem locate_unique {os' : Os} {a b : Loc} (hc : os'.cwd = os.cwd) (h : os.locate p = some a)
    (h' : os'.locate p = some b) : a = b := by
  by_cases hp : p = []
  · rw [hp] at h
    cases h
  · rw [locate_eq_walk hp] at h h'
    unfold origin at h h'
    rw [hc] at h'
    exact walk_unique h h'

/-- A destination that is there is in the directory where it was to be. -/
theorem destDir_unique {os' : Os} {dest : Bytes} {L : Loc} (hc : os'.cwd = os.cwd)
    (hL : os.destDir dest = some L) (hne : Path.tail dest ≠ []) (hat : os'.at? dest ≠ none) :
    os'.destDir dest = some L := by
  cases hL' : os'.destDir dest with
  | none =>
    refine absurd ?_ hat
    rw [at?, locate_dest hne, hL']
    rfl
  | some L' =>
    have h := (Option.filter_eq_some_iff.mp hL).1
    have h' := (Option.filter_eq_some_iff.mp hL').1
    rw [locate_unique hc h h']

/-- The C client cuts the destination at the last slash, which gives the same directory. -/
theorem locateDir_splitPath (os : Os) {dest dir base : Bytes} {k n : Nat}
    (h : C.splitPath dest k n = some (dir, base)) :
    base = Path.tail dest ∧ dir ≠ [] ∧ os.locateDir dir = os.destDir dest ∧
      (SLASH ∉ dest → dir = [DOT]) := by
  have hp := Path.head_append_tail dest
  have hclosed := Path.head_closed dest
  unfold C.splitPath at h
  simp only at h
  split at h
  · cases h
  split at h
  · next hslash =>
    split at h
    · cases h
    · cases h
      have hhead : Path.head dest = [] := by
        rcases hclosed with hnil | ⟨t, ht⟩
        · exact hnil
        · rw [← hp, ht] at hslash
          simp at hslash
      refine ⟨rfl, by simp, ?_, fun _ => rfl⟩
      rw [destDir, hhead, dirPath, if_pos rfl]
  · next hslash =>
    obtain ⟨t, ht⟩ : ∃ t, Path.head dest = t ++ [SLASH] := by
      rcases hclosed with hnil | ht
      · rw [hnil, List.nil_append] at hp
        rw [← hp] at hslash
        exact absurd (Path.tail_no_slash dest) hslash
      · exact ht
    have hlen : dest.length - (Path.tail dest).length - 1 = t.length := by
      conv_lhs => rw [← hp, ht]
      simp only [List.length_append, List.length_cons, List.length_nil]
      have := Path.tail_of_closed (.inr ⟨t, rfl⟩) (Path.tail_no_slash dest)
      rw [this]
      omega
    rw [hlen] at h
    by_cases ht0 : t = []
    · subst ht0
      have hdest : dest.take 1 = [SLASH] := by
        rw [← hp, ht]
        rfl
      rw [List.length_nil, if_pos rfl, hdest] at h
      split at h
      · cases h
      · cases h
        refine ⟨rfl, by simp, ?_, fun hno => absurd hno hslash⟩
        rw [destDir, ht, dirPath, if_neg (by simp)]
        rfl
    · have hdest : dest.take t.length = t := by
        conv_lhs => rw [← hp, ht, List.append_assoc, List.take_left]
      have hlen0 : t.length ≠ 0 := by simpa using ht0
      rw [if_neg hlen0, hdest] at h
      split at h
      · cases h
      · cases h
        refine ⟨rfl, ht0, ?_, fun hno => absurd hno hslash⟩
        rw [destDir, ht, dirPath, if_neg (by simp), locateDir_slash ht0]

end Os

/-! ## Partials -/

theorem partialBase_ne (base digest : Bytes) : partialBase base digest ≠ base := by
  intro h
  have := congrArg List.length h
  simp only [partialBase, List.length_append, List.length_cons, List.length_nil] at this
  omega

theorem Os.enter_plain {n : Bytes} (h : Plain n) (l : Loc) : Os.enter l n = l ++ [n] := by
  unfold Os.enter
  rw [if_neg (not_or.mpr ⟨h.ne_nil, h.ne_dot⟩), if_neg h.ne_dotdot]

/-- The partial Python names is an entry of the directory of the destination. -/
theorem locate_partialName (os : Os) (dest digest : Bytes) :
    os.locate (partialName dest digest) =
      (os.destDir dest).map fun l => l ++ [partialBase (Path.tail dest) digest] := by
  have hplain : Plain (partialBase (Path.tail dest) digest) :=
    partialBase_plain (Path.tail_no_slash dest)
  have hbase : (Path.split dest).2 = Path.tail dest := rfl
  rw [partialName, hbase, Os.locate_join hplain.no_slash hplain.ne_nil, Os.locateDir_split]
  simp only [Os.enter_plain hplain]

theorem C.hexChar_eq {n : UInt8} (h : n.toNat < 16) : C.hexChar n = hexDigit n.toNat := by
  have key : ∀ k < 16, C.hexChar (UInt8.ofNat k) = hexDigit k := by decide
  have := key n.toNat h
  rwa [UInt8.ofNat_toNat] at this

/-- The two ways to write a digest in hexadecimal. -/
theorem C.sha256Hex_eq {digest : Bytes} {k : Nat} (h : k ≤ digest.length) :
    C.sha256Hex digest k = hex (digest.take k) := by
  have hbyte : ∀ b : UInt8, [C.hexChar ((b >>> 4) &&& 0x0F), C.hexChar (b &&& 0x0F)] =
      [hexDigit (b.toNat / 16), hexDigit (b.toNat % 16)] := by
    intro b
    have hlt := b.toNat_lt
    have hlo : ∀ x : UInt8, (x &&& 0x0F).toNat = x.toNat % 16 := by
      intro x
      rw [UInt8.toNat_and]
      exact Nat.and_two_pow_sub_one_eq_mod x.toNat 4
    have hhi : ((b >>> 4) &&& 0x0F).toNat = b.toNat / 16 := by
      rw [hlo, UInt8.toNat_shiftRight, Nat.shiftRight_eq_div_pow]
      show b.toNat / 16 % 16 = _
      omega
    rw [C.hexChar_eq (by omega), C.hexChar_eq (by rw [hlo]; omega), hhi, hlo]
  have htake : digest.take k = (List.range k).map fun i => digest.getD i 0 := by
    refine List.ext_getElem (by simp [h]) fun i h1 h2 => ?_
    have hi : i < digest.length := by
      rw [List.length_take] at h1
      omega
    simp [List.getD_eq_getElem?_getD, hi]
  unfold C.sha256Hex hex
  rw [htake, List.flatMap_map]
  exact List.flatMap_congr fun i _ => hbyte _

theorem C.sha256Hex_token {digest : Bytes} (h : digest.length = HASH_SIZE) :
    C.sha256Hex digest TOKEN_SIZE = hex (digest.take TOKEN_SIZE) :=
  C.sha256Hex_eq (by rw [h]; decide)

/-- The partial the C client names is the same entry. -/
theorem C.locate_partialName {os : Os} {dest digest p : Bytes} (hd : digest.length = HASH_SIZE)
    (h : C.partialName dest digest = some p) :
    os.locate p = (os.destDir dest).map fun l => l ++ [partialBase (Path.tail dest) digest] := by
  have hplain : Plain (partialBase (Path.tail dest) digest) :=
    partialBase_plain (Path.tail_no_slash dest)
  unfold C.partialName at h
  split at h
  · cases h
  · next dir base hsplit =>
    obtain ⟨rfl, hne, hdir, hdot⟩ := Os.locateDir_splitPath os hsplit
    have hname : [DOT] ++ Path.tail dest ++ [DOT] ++ C.sha256Hex digest TOKEN_SIZE ++
        ascii ".part" = partialBase (Path.tail dest) digest := by
      rw [C.sha256Hex_token hd]
      rfl
    simp only [hname] at h
    have henter : (fun l => Os.enter l (partialBase (Path.tail dest) digest)) =
        fun l => l ++ [partialBase (Path.tail dest) digest] := by
      funext l
      exact Os.enter_plain hplain l
    by_cases hslash : SLASH ∈ dest
    · rw [if_neg (not_not.mpr hslash)] at h
      split at h
      · cases h
      · cases h
        rw [List.append_assoc, List.singleton_append, Os.locate_below hne hplain.no_slash, hdir,
          henter]
    · rw [if_pos hslash] at h
      split at h
      · cases h
      · cases h
        rw [← hdir, hdot hslash, Os.locateDir_dot, Os.locate_plain os hplain]
        rfl

end Retriever
