/-
# Retriever.Partials — what `find_partial` finds

Looking for a partial asks the filesystem and changes nothing, so its result is a function of the
state of the disk (`findPartial_uses`, `C.findPartial_uses`). When the directory part of the
destination has no magic characters, Python finds an entry of the directory of the destination; the
C client always does. Where the only partial there is one that either client has written for the
destination, both find it, with its size and the token of its digest.
-/
import Retriever.Destination
import Retriever.Wire

namespace Retriever

open Os (SLASH DOT)
open Proc (Yields)

/-! ## Programs that look -/

/-- The operation looks at the disk. -/
def Sys.Asks (o : Sys) : Prop := ∃ f : FsOp, o = .fs f ∧ f.Looks

/-- The answers to questions. -/
def Os.ask (os : Os) : (o : Sys) → o.Ans
  | .recv _ => .error .osError
  | .send _ => .error .osError
  | .fs o => (os.run o).1
  | .reserve _ => false
  | .discard _ => ()

theorem Net.asks_answer {N : Type} {net : Net N} {m : Machine N} (o : Sys) (ho : o.Asks) :
    net.env.may m o ∧ ∀ a m', net.env.gives m o a m' ↔ a = m.os.ask o ∧ m' = m := by
  obtain ⟨f, rfl, hf⟩ := ho
  refine ⟨trivial, fun a m' => ?_⟩
  show a = (m.os.run f).1 ∧ m' = { m with os := (m.os.run f).2 } ↔ a = (m.os.run f).1 ∧ m' = m
  rw [Os.run_looks hf]

theorem Net.yields_eval {N : Type} {net : Net N} {m : Machine N} {ε α : Type} {X : ε → Prop}
    {p : Proc Sys Sys.Ans ε α} (hp : p.Uses Sys.Asks X) :
    Yields net.env p m (p.eval m.os.ask) m := by
  apply (Proc.wp_eval Net.asks_answer hp).mpr
  cases p.eval m.os.ask with
  | ok a => exact ⟨rfl, rfl⟩
  | error e => exact ⟨rfl, rfl⟩

section Uses

variable {ε : Type} {X : ε → Prop}

theorem uses_looks {f : FsOp} (hf : f.Looks) :
    (Proc.perform (Sys.fs f) : Proc Sys Sys.Ans ε f.Ans).Uses Sys.Asks X :=
  Proc.uses_perform ⟨f, rfl, hf⟩

end Uses

namespace Glob

variable {X : Exn → Prop}

theorem uses_isdir (p : Bytes) : (Py.isdir p).Uses Sys.Asks X :=
  Proc.uses_bind (uses_looks (.stat p)) fun _ => trivial

theorem uses_pathExists (p : Bytes) : (Py.pathExists p).Uses Sys.Asks X :=
  Proc.uses_bind (uses_looks (.stat p)) fun _ => trivial

theorem uses_filterM {f : Bytes → Py Bool} (hf : ∀ n, (f n).Uses Sys.Asks X) (names : List Bytes) :
    (names.filterM f).Uses Sys.Asks X := by
  have haux : ∀ names acc, (List.filterAuxM f names acc).Uses Sys.Asks X := by
    intro names
    induction names with
    | nil => exact fun _ => trivial
    | cons n names ih => exact fun acc => Proc.uses_bind (hf n) fun _ => ih _
  exact Proc.uses_bind (haux names []) fun _ => trivial

theorem uses_listdir (D : Bytes) (dironly : Bool) : (listdir D dironly).Uses Sys.Asks X := by
  refine Proc.uses_bind (Proc.uses_tryCatch (Y := fun _ => True) ?_ fun _ _ => trivial) fun names => ?_
  · refine Proc.uses_bind (uses_looks (.listdir _)) fun r => ?_
    cases r <;> trivial
  · split
    · exact uses_filterM (fun n => uses_isdir _) names
    · trivial

theorem uses_glob1 (D pattern : Bytes) (dironly : Bool) :
    (glob1 D pattern dironly).Uses Sys.Asks X :=
  Proc.uses_bind (uses_listdir D dironly) fun _ => trivial

theorem uses_glob0 (D base : Bytes) : (glob0 D base).Uses Sys.Asks X := by
  unfold glob0
  split
  · exact Proc.uses_bind (uses_pathExists _) fun _ => trivial
  · exact Proc.uses_bind (uses_isdir _) fun _ => trivial

theorem uses_mapM {f : Bytes → Py (List Bytes)} (hf : ∀ n, (f n).Uses Sys.Asks X)
    (names : List Bytes) : (names.mapM f).Uses Sys.Asks X := by
  induction names with
  | nil => trivial
  | cons n names ih =>
    rw [List.mapM_cons]
    exact Proc.uses_bind (hf n) fun _ => Proc.uses_bind ih fun _ => trivial

theorem uses_iglob (fuel : Nat) (p : Bytes) (dironly : Bool) :
    (iglob fuel p dironly).Uses Sys.Asks X := by
  induction fuel generalizing p dironly with
  | zero => trivial
  | succ fuel ih =>
    unfold iglob
    simp only
    split
    · split
      · exact Proc.uses_bind (uses_pathExists _) fun _ => trivial
      · exact Proc.uses_bind (uses_isdir _) fun _ => trivial
    split
    · exact uses_glob1 _ _ _
    -- the directories are found by the pattern or are the one that is given
    have hdir : ∀ d base, (if hasMagic base = true then
        (do let names ← glob1 d base dironly; pure (names.map (Path.join d)))
        else do let names ← glob0 d base; pure (names.map (Path.join d)) : Py _).Uses Sys.Asks X := by
      intro d base
      split
      · exact Proc.uses_bind (uses_glob1 _ _ _) fun _ => trivial
      · exact Proc.uses_bind (uses_glob0 _ _) fun _ => trivial
    split
    · exact Proc.uses_bind (ih _ _) fun dirs =>
        Proc.uses_bind (uses_mapM (fun d => hdir d _) dirs) fun _ => trivial
    · exact Proc.uses_bind (p := pure _) trivial fun dirs =>
        Proc.uses_bind (uses_mapM (fun d => hdir d _) dirs) fun _ => trivial

end Glob

theorem findPartial_uses {X : Exn → Prop} (dest : Bytes) : (findPartial dest).Uses Sys.Asks X := by
  refine Proc.uses_bind (Glob.uses_iglob _ _ _) fun found => ?_
  split <;> trivial

theorem C.findPartial_uses (dest : Bytes) :
    (C.findPartial dest).Uses Sys.Asks fun _ => False := by
  unfold C.findPartial
  split
  · trivial
  · refine Proc.uses_bind (uses_looks (.listdir _)) fun r => ?_
    cases r with
    | error e => trivial
    | ok entries =>
      simp only
      split
      · refine Proc.uses_bind (uses_looks (.stat _)) fun st => ?_
        cases st with
        | none => trivial
        | some st =>
          simp only
          split <;> trivial
      · trivial

/-! ## What Python finds -/

section Find

variable {N : Type} {net : Net N} {m : Machine N}

theorem Net.yields_looks {ε : Type} {o : FsOp} (ho : o.Looks) :
    Yields net.env (Proc.perform (Sys.fs o) : Proc Sys Sys.Ans ε o.Ans) m (.ok (m.os.run o).1) m :=
  Net.yields_eval (X := fun _ => False) (uses_looks ho)

/-- The names in a directory, none when there is no such directory. -/
def Os.namesIn (os : Os) (l : Option Loc) : List Bytes := l.elim [] os.entries

theorem Os.run_listdir (os : Os) (D : Bytes) : (os.run (.listdir D)).1 =
    match os.locateDir D with
    | some l => .ok (os.entries l)
    | none => .error .osError := by
  unfold Os.run Os.locateDir
  simp only
  cases os.locate D with
  | none => rfl
  | some l =>
    rw [Option.filter_some]
    by_cases h : os.isDir l = true
    · simp only [if_pos h]
    · simp only [if_neg h]

theorem Glob.listdir_yields (D : Bytes) :
    Yields net.env (Glob.listdir D false) m
      (.ok (m.os.namesIn (m.os.locateDir (Os.dirPath D)))) m := by
  have hrun := m.os.run_listdir (Os.dirPath D)
  have hask : Yields net.env (Proc.perform (Sys.fs (.listdir (Os.dirPath D))) : Py _) m
      (.ok (m.os.run (.listdir (Os.dirPath D))).1) m := Net.yields_looks (.listdir (Os.dirPath D))
  unfold Glob.listdir
  refine Yields.bind (a := m.os.namesIn (m.os.locateDir (Os.dirPath D))) ?_ (Proc.yields_done _ m)
  cases hl : m.os.locateDir (Os.dirPath D) with
  | none =>
    rw [hl] at hrun
    rw [hrun] at hask
    exact Yields.tryCatch_error (hask.bind (Proc.yields_raise _ _)) (Proc.yields_done _ _)
  | some l =>
    rw [hl] at hrun
    rw [hrun] at hask
    exact Yields.tryCatch (hask.bind (Proc.yields_done _ _))

theorem Path.join_nil (n : Bytes) : Path.join [] n = n := by
  unfold Path.join
  split
  · rfl
  · exact if_pos (.inl rfl)

theorem Path.mem_join (D : Bytes) {n : Bytes} {b : UInt8} (h : b ∈ n) : b ∈ Path.join D n := by
  unfold Path.join
  split
  · exact h
  split
  · exact List.mem_append_right _ h
  · exact List.mem_append_right _ (List.mem_cons_of_mem _ h)

/-- What `find_partial` looks for in the directory. -/
def partialsPattern (dest : Bytes) : Bytes :=
  [DOT] ++ Glob.escape (Path.tail dest) ++ ascii ".*.part"

theorem partialsPattern_no_slash (dest : Bytes) : SLASH ∉ partialsPattern dest := by
  have hascii : ascii ".*.part" = [46, 42, 46, 112, 97, 114, 116] := by decide
  intro h
  unfold partialsPattern at h
  rw [List.mem_append, List.mem_append, hascii] at h
  rcases h with (h | h) | h
  · revert h
    decide
  · obtain ⟨b, hb, hs⟩ := List.mem_flatMap.mp h
    split at hs
    · next hm =>
      simp only [List.mem_cons, List.not_mem_nil, or_false] at hs
      rcases hs with hs | rfl | hs
      · revert hs
        decide
      · revert hm
        decide
      · revert hs
        decide
    · obtain rfl := List.mem_singleton.mp hs
      exact Path.tail_no_slash dest hb
  · revert h
    decide

/-- The entries in the directory of a destination that Python takes for its partials. -/
def Os.partialsOf (os : Os) (dest : Bytes) : List Bytes :=
  (os.namesIn (os.destDir dest)).filter fun n => Glob.fnmatch n (partialsPattern dest)

/-- A pattern in a directory without magic characters finds the entries that match. -/
theorem Glob.glob_yields {dest : Bytes} (hmagic : Glob.hasMagic (Path.split dest).1 = false) :
    Yields net.env (Glob.glob (partialPattern dest)) m
      (.ok ((m.os.partialsOf dest).map (Path.join (Path.split dest).1))) m := by
  have hno := partialsPattern_no_slash dest
  have hpat : partialPattern dest = Path.join (Path.split dest).1 (partialsPattern dest) := rfl
  have hsplit := Path.split_join_split dest hno
  have hstar : Glob.hasMagic (partialsPattern dest) = true := by
    refine List.any_eq_true.mpr ⟨42, List.mem_append_right _ ?_, by decide⟩
    decide
  have hstar' : Glob.hasMagic (Path.join (Path.split dest).1 (partialsPattern dest)) = true := by
    obtain ⟨b, hb, hm⟩ := List.any_eq_true.mp hstar
    refine List.any_eq_true.mpr ⟨b, Path.mem_join _ hb, hm⟩
  have hhidden : Glob.isHidden (partialsPattern dest) = true := rfl
  have hlist : Yields net.env (Glob.listdir (Path.split dest).1 false) m
      (.ok (m.os.namesIn (m.os.destDir dest))) m := by
    rw [← m.os.locateDir_split dest]
    exact Glob.listdir_yields (Path.split dest).1
  have hglob1 : Yields net.env (Glob.glob1 (Path.split dest).1 (partialsPattern dest) false) m
      (.ok (m.os.partialsOf dest)) m := by
    unfold Glob.glob1
    apply hlist.bind
    rw [if_pos hhidden]
    exact Proc.yields_done _ _
  unfold Glob.glob Glob.iglob
  rw [hpat, hsplit]
  simp only
  rw [if_neg (by rw [hstar']; simp)]
  by_cases hD : (Path.split dest).1 = []
  · have hjoin : Path.join (Path.split dest).1 = id := by
      funext n
      rw [hD]
      exact Path.join_nil n
    rw [if_pos hD, hjoin, List.map_id]
    exact hglob1
  · rw [if_neg hD, if_neg (by rw [hmagic]; simp)]
    apply (Proc.yields_done _ _).bind
    simp only [if_pos hstar, List.mapM_cons, List.mapM_nil]
    have hone : Yields net.env (do
        let names ← Glob.glob1 (Path.split dest).1 (partialsPattern dest) false
        pure (names.map (Path.join (Path.split dest).1))) m
        (.ok ((m.os.partialsOf dest).map (Path.join (Path.split dest).1))) m :=
      hglob1.bind (Proc.yields_done _ _)
    have hlist1 : ∀ found : List Bytes, (do
        let rest ← (pure [] : Py (List (List Bytes)))
        pure (found :: rest)) = (pure [found] : Py (List (List Bytes))) := fun _ => rfl
    simp only [hlist1]
    apply Yields.bind (hone.bind (Proc.yields_done [_] m))
    rw [List.flatten_singleton]
    exact Proc.yields_done _ _

/-- One entry that Python takes for a partial is the one it finds. -/
theorem findPartial_yields {dest n : Bytes}
    (hmagic : Glob.hasMagic (Path.split dest).1 = false) (h : m.os.partialsOf dest = [n]) :
    Yields net.env (findPartial dest) m (.ok (some (Path.join (Path.split dest).1 n))) m := by
  have hglob : Yields net.env (Glob.glob (partialPattern dest)) m
      (.ok ((m.os.partialsOf dest).map (Path.join (Path.split dest).1))) m := Glob.glob_yields hmagic
  rw [h, List.map_singleton] at hglob
  exact hglob.bind (Proc.yields_done _ _)

/-- None or too many to choose between is none. -/
theorem findPartial_yields_none {dest : Bytes}
    (hmagic : Glob.hasMagic (Path.split dest).1 = false) (h : ∀ n, m.os.partialsOf dest ≠ [n]) :
    Yields net.env (findPartial dest) m (.ok none) m := by
  have hglob : Yields net.env (Glob.glob (partialPattern dest)) m
      (.ok ((m.os.partialsOf dest).map (Path.join (Path.split dest).1))) m := Glob.glob_yields hmagic
  apply hglob.bind
  cases hps : m.os.partialsOf dest with
  | nil => exact Proc.yields_done _ _
  | cons n ns =>
    cases ns with
    | nil => exact absurd hps (h n)
    | cons n' ns => exact Proc.yields_done _ _

/-! ## What the C client finds -/

/-- The entries in the directory of a destination that the C client takes for its partials. -/
def C.partialsOf (os : Os) (dest : Bytes) : List Bytes :=
  (os.namesIn (os.destDir dest)).filter (C.isPartialOf ([DOT] ++ Path.tail dest ++ [DOT]))

/-- The path the C client makes of an entry. -/
def C.entryPath (dir dest entry : Bytes) : Bytes :=
  if dir = [DOT] ∧ SLASH ∉ dest then entry else dir ++ [SLASH] ++ entry

theorem C.locate_entryPath (os : Os) {dest dir base entry : Bytes} {k n : Nat}
    (h : C.splitPath dest k n = some (dir, base)) (he : Plain entry) :
    os.locate (C.entryPath dir dest entry) = (os.destDir dest).map fun l => l ++ [entry] := by
  obtain ⟨-, hne, hdir, hdot⟩ := Os.locateDir_splitPath os h
  have henter : (fun l => Os.enter l entry) = fun l => l ++ [entry] := by
    funext l
    exact Os.enter_plain he l
  unfold C.entryPath
  split
  · next hd =>
    rw [← hdir, hd.1, Os.locateDir_dot, Os.locate_plain os he]
    rfl
  · rw [List.append_assoc, List.singleton_append, Os.locate_below hne he.no_slash, hdir, henter]

/-- One entry that the C client takes for a partial is the one it finds. -/
theorem C.findPartial_yields {dest dir base entry token : Bytes} {st : Stat}
    (hsplit : C.splitPath dest C.DIR_MAX (C.MAX_NAME + 1) = some (dir, base))
    (h : C.partialsOf m.os dest = [entry])
    (hstat : m.os.statAt (C.entryPath dir dest entry) = some st)
    (htoken : C.scanToken entry = some token) :
    Yields net.env (C.findPartial dest) m
      (.ok (.found (C.entryPath dir dest entry) (UInt64.ofNat st.size) token)) m := by
  obtain ⟨rfl, -, hdir, -⟩ := Os.locateDir_splitPath m.os hsplit
  have hask : Yields net.env (Proc.perform (Sys.fs (.listdir dir)) : CProg _) m
      (.ok (m.os.run (.listdir dir)).1) m := Net.yields_looks (.listdir dir)
  rw [Os.run_listdir, hdir] at hask
  unfold C.partialsOf at h
  unfold C.findPartial
  rw [hsplit]
  simp only
  cases hl : m.os.destDir dest with
  | none =>
    rw [hl] at h
    cases h
  | some l =>
    rw [hl] at h hask
    apply hask.bind
    simp only
    rw [show m.os.entries l = m.os.namesIn (some l) from rfl, h]
    apply (Net.yields_looks (.stat (C.entryPath dir dest entry))).bind
    rw [show (m.os.run (.stat (C.entryPath dir dest entry))).1 = some st from hstat]
    simp only [htoken]
    exact Proc.yields_done _ _

theorem C.findPartial_yields_absent {dest : Bytes} (h : ∀ n, C.partialsOf m.os dest ≠ [n]) :
    Yields net.env (C.findPartial dest) m (.ok .absent) m ∨
      Yields net.env (C.findPartial dest) m (.ok .failed) m := by
  unfold C.findPartial
  cases hsplit : C.splitPath dest C.DIR_MAX (C.MAX_NAME + 1) with
  | none => exact .inr (Proc.yields_done _ _)
  | some db =>
    obtain ⟨dir, base⟩ := db
    obtain ⟨rfl, -, hdir, -⟩ := Os.locateDir_splitPath m.os hsplit
    have hask : Yields net.env (Proc.perform (Sys.fs (.listdir dir)) : CProg _) m
        (.ok (m.os.run (.listdir dir)).1) m := Net.yields_looks (.listdir dir)
    rw [Os.run_listdir, hdir] at hask
    unfold C.partialsOf at h
    simp only
    cases hl : m.os.destDir dest with
    | none =>
      rw [hl] at hask
      exact .inr (hask.bind (Proc.yields_done _ _))
    | some l =>
      rw [hl] at h hask
      left
      apply hask.bind
      simp only
      rw [show m.os.entries l = m.os.namesIn (some l) from rfl]
      cases hps : (m.os.namesIn (some l)).filter (C.isPartialOf ([DOT] ++ Path.tail dest ++ [DOT])) with
      | nil => exact Proc.yields_done _ _
      | cons n ns =>
        cases ns with
        | nil => exact absurd hps (h n)
        | cons n' ns => exact Proc.yields_done _ _

end Find

/-! ## Tokens -/

theorem hexValue_hexDigit {n : Nat} (h : n < 16) : hexValue (hexDigit n) = some n := by
  have key : ∀ a < 16, hexValue (hexDigit a) = some a := by decide
  exact key n h

theorem hexDigit_not_space {n : Nat} (h : n < 16) : isSpace (hexDigit n) = false := by
  have key : ∀ a < 16, isSpace (hexDigit a) = false := by decide
  exact key n h

theorem byte_of_nibbles (b : UInt8) : UInt8.ofNat (16 * (b.toNat / 16) + b.toNat % 16) = b := by
  rw [Nat.div_add_mod]
  exact UInt8.ofNat_toNat

/-- Writing bytes in hexadecimal and reading them back. -/
theorem fromHex_hex (bs : Bytes) : fromHex (hex bs) = some bs := by
  induction bs with
  | nil => rfl
  | cons b bs ih =>
    have hlt := b.toNat_lt
    have hcons : hex (b :: bs) = hexDigit (b.toNat / 16) :: hexDigit (b.toNat % 16) :: hex bs := rfl
    have hspace : isSpace (hexDigit (b.toNat / 16)) = false := hexDigit_not_space (by omega)
    rw [hcons, fromHex, hspace, hexValue_hexDigit (by omega), hexValue_hexDigit (by omega), ih]
    show some (UInt8.ofNat (16 * (b.toNat / 16) + b.toNat % 16) :: bs) = _
    rw [byte_of_nibbles]

theorem hex_no_dot (bs : Bytes) : DOT ∉ hex bs := by
  have key : ∀ a < 16, hexDigit a ≠ DOT := by decide
  intro h
  obtain ⟨b, -, hb⟩ := List.mem_flatMap.mp h
  have hlt := b.toNat_lt
  simp only [List.mem_cons, List.not_mem_nil, or_false] at hb
  rcases hb with hb | hb
  · exact key _ (by omega) hb.symm
  · exact key _ (by omega) hb.symm

/-- The components of a partial name between dots. -/
theorem splitOn_partialBase (base digest : Bytes) : (partialBase base digest).splitOn DOT =
    [] :: base.splitOn DOT ++ [hex (digest.take TOKEN_SIZE), ascii "part"] := by
  have hpart : (ascii "part").splitOn DOT = [ascii "part"] := by decide
  have hbytes : partialBase base digest =
      [] ++ DOT :: (base ++ DOT :: (hex (digest.take TOKEN_SIZE) ++ DOT :: ascii "part")) := by
    have hdot : ascii ".part" = DOT :: ascii "part" := by decide
    unfold partialBase
    rw [hdot]
    simp
  rw [hbytes, List.splitOn_append_cons_self, List.splitOn_append_cons_self,
    List.splitOn_append_cons_self, hpart, List.splitOn_eq_singleton (hex_no_dot _)]
  rfl

/-- Python reads the token of a partial name back. -/
theorem partialToken_join (dest : Bytes) {base digest : Bytes} (hb : SLASH ∉ base)
    (hd : digest.length = HASH_SIZE) :
    partialToken (Path.join (Path.split dest).1 (partialBase base digest)) =
      some (digest.take TOKEN_SIZE) := by
  have hsplit : [] :: base.splitOn DOT ++ [hex (digest.take TOKEN_SIZE), ascii "part"] =
      (([] :: base.splitOn DOT) ++ [hex (digest.take TOKEN_SIZE)]) ++ [ascii "part"] := by simp
  have hbase : Path.basename (Path.join (Path.split dest).1 (partialBase base digest)) =
      partialBase base digest := by
    unfold Path.basename
    rw [Path.split_join_split dest (partialBase_plain hb).no_slash]
  have hlen : (digest.take TOKEN_SIZE).length = TOKEN_SIZE := by
    rw [List.length_take, hd]
    rfl
  have hpos : 0 < (base.splitOn DOT).length := List.length_pos_iff.mpr (List.splitOn_ne_nil _ _)
  have hparts : ([] :: base.splitOn DOT ++ [hex (digest.take TOKEN_SIZE), ascii "part"]).length =
      (base.splitOn DOT).length + 3 := by simp
  unfold partialToken
  simp only
  rw [hbase, splitOn_partialBase, hparts, if_neg]
  · have hget : ([] :: base.splitOn DOT ++ [hex (digest.take TOKEN_SIZE), ascii "part"]).getD
        ((base.splitOn DOT).length + 3 - 2) [] = hex (digest.take TOKEN_SIZE) := by
      rw [hsplit, List.getD_append _ _ _ _ (by simp), List.getD_append_right _ _ _ _ (by simp)]
      simp
    rw [hget, fromHex_hex]
    simp only
    rw [if_pos hlen]
  · rw [not_or, not_not]
    refine ⟨by omega, ?_⟩
    rw [hsplit, List.getLast?_append]
    rfl

/-- `sscanf` reads a byte that was written as two digits. -/
theorem C.scanHex2_hex (b : UInt8) (rest : Bytes) :
    C.scanHex2 (hexDigit (b.toNat / 16) :: hexDigit (b.toNat % 16) :: rest) = some b := by
  have hlt := b.toNat_lt
  have key : ∀ a < 16, hexDigit a ≠ 43 ∧ hexDigit a ≠ 45 ∧ hexDigit a ≠ 120 ∧ hexDigit a ≠ 88 := by
    decide
  obtain ⟨hplus, hminus, -, -⟩ := key (b.toNat / 16) (by omega)
  obtain ⟨-, -, hx, hX⟩ := key (b.toNat % 16) (by omega)
  have hdrop : (hexDigit (b.toNat / 16) :: hexDigit (b.toNat % 16) :: rest).dropWhile isSpace =
      hexDigit (b.toNat / 16) :: hexDigit (b.toNat % 16) :: rest :=
    List.dropWhile_cons_of_neg (by rw [hexDigit_not_space (by omega)]; simp)
  have h0x : ascii "0x" = [48, 120] := by decide
  have h0X : ascii "0X" = [48, 88] := by decide
  have hfield : (hexDigit (b.toNat / 16) :: hexDigit (b.toNat % 16) :: rest).take 2 =
      [hexDigit (b.toNat / 16), hexDigit (b.toNat % 16)] := rfl
  unfold C.scanHex2
  simp only [hdrop, List.head?_cons, Option.some.injEq, hplus, hminus, or_self, if_false, hfield, h0x,
    h0X, List.cons.injEq, hx, hX, and_false, false_and, List.takeWhile_cons, List.takeWhile_nil,
    hexValue_hexDigit (show b.toNat / 16 < 16 by omega),
    hexValue_hexDigit (show b.toNat % 16 < 16 by omega), Option.isSome_some, if_true, List.foldl_cons,
    List.foldl_nil, Option.getD_some, Nat.mul_zero, Nat.zero_add, byte_of_nibbles]

theorem hex_drop (bs : Bytes) (i : Nat) : (hex bs).drop (i * 2) = hex (bs.drop i) := by
  induction bs generalizing i with
  | nil => simp [hex]
  | cons b bs ih =>
    cases i with
    | zero => rfl
    | succ i =>
      have hcons : hex (b :: bs) = hexDigit (b.toNat / 16) :: hexDigit (b.toNat % 16) :: hex bs := rfl
      rw [hcons, show (i + 1) * 2 = i * 2 + 1 + 1 by omega, List.drop_succ_cons, List.drop_succ_cons,
        ih, List.drop_succ_cons]

theorem mapM_eq_some {α β : Type} {f : α → Option β} {g : α → β} {xs : List α}
    (h : ∀ x ∈ xs, f x = some (g x)) : xs.mapM f = some (xs.map g) := by
  induction xs with
  | nil => rfl
  | cons x xs ih =>
    rw [List.mapM_cons, h x (by simp), ih fun y hy => h y (by simp [hy])]
    rfl

/-- The C client reads the token of a partial name back. -/
theorem C.scanToken_partialBase {base digest : Bytes} (hd : digest.length = HASH_SIZE) :
    C.scanToken (partialBase base digest) = some (digest.take TOKEN_SIZE) := by
  have hlen : (digest.take TOKEN_SIZE).length = TOKEN_SIZE := by
    rw [List.length_take, hd]
    rfl
  have hbytes : partialBase base digest =
      ([DOT] ++ base ++ [DOT]) ++ (hex (digest.take TOKEN_SIZE) ++ ascii ".part") := by
    unfold partialBase
    rw [List.append_assoc]
  have hdigits : (partialBase base digest).drop
      ((partialBase base digest).length - 5 - TOKEN_SIZE * 2) =
        hex (digest.take TOKEN_SIZE) ++ ascii ".part" := by
    have hpos : (partialBase base digest).length - 5 - TOKEN_SIZE * 2 =
        ([DOT] ++ base ++ [DOT]).length := by
      rw [hbytes, ascii_part]
      simp only [List.length_append, hex_length, hlen, List.length_cons, List.length_nil]
      omega
    rw [hpos, hbytes, List.drop_left]
  unfold C.scanToken
  simp only [hdigits]
  rw [mapM_eq_some (g := fun i => (digest.take TOKEN_SIZE).getD i 0)]
  · refine congrArg some (List.ext_getElem ?_ fun i h1 h2 => ?_)
    · rw [List.length_map, List.length_range, hlen]
    · rw [List.getElem_map, List.getElem_range, List.getD_eq_getElem _ _ h2]
  · intro i hi
    have hi' : i < (digest.take TOKEN_SIZE).length := by
      rw [hlen]
      exact List.mem_range.mp hi
    have hle : i * 2 ≤ (hex (digest.take TOKEN_SIZE)).length := by
      rw [hex_length]
      omega
    rw [List.drop_append_of_le_length hle, hex_drop, List.drop_eq_getElem_cons hi',
      List.getD_eq_getElem _ _ hi']
    exact C.scanHex2_hex _ _

/-! ## A partial of either client is found by both -/

theorem filter_eq_singleton {α : Type} {xs : List α} {x : α} {P : α → Bool} (hn : xs.Nodup)
    (hx : x ∈ xs) (hP : P x = true) (honly : ∀ y ∈ xs, P y = true → y = x) : xs.filter P = [x] := by
  apply List.perm_singleton.mp
  refine (List.perm_ext_iff_of_nodup (hn.filter P) (List.nodup_singleton x)).mpr fun y => ?_
  rw [List.mem_filter, List.mem_singleton]
  constructor
  · exact fun h => honly y h.1 h.2
  · rintro rfl
    exact ⟨hx, hP⟩

/-- The entries that end in `.part` in the directory of the destination are the file at `p`. -/
def OnlyPartial (os : Os) (dest p : Bytes) : Prop :=
  ∀ l n, os.destDir dest = some l → n ∈ os.entries l → ascii ".part" <:+ n →
    os.locate p = some (l ++ [n])

/-- Both clients find the file at `p`, with this size and this token. -/
structure BothFind {N : Type} (net : Net N) (m : Machine N) (dest p : Bytes) (size : Nat)
    (token : Bytes) : Prop where
  python : ∃ q, Yields net.env (findPartial dest) m (.ok (some q)) m ∧ m.os.locate q = m.os.locate p ∧
    Yields net.env (Py.getsize q) m (.ok size) m ∧ partialToken q = some token
  c : ∃ q n, Yields net.env (C.findPartial dest) m (.ok (.found q n token)) m ∧
    m.os.locate q = m.os.locate p ∧ n.toNat = size

/-- A path within the limits of the C client is taken apart. -/
theorem C.splitPath_of_short (dest : Bytes) (hbase : (Path.tail dest).length ≤ C.MAX_NAME)
    (hdir : (Path.head dest).length ≤ C.DIR_MAX) :
    ∃ dir, C.splitPath dest C.DIR_MAX (C.MAX_NAME + 1) = some (dir, Path.tail dest) := by
  have hp := congrArg List.length (Path.head_append_tail dest)
  rw [List.length_append] at hp
  unfold C.splitPath
  simp only
  rw [if_neg (by omega)]
  split
  · exact ⟨[DOT], if_neg (by decide)⟩
  · have hlt : ¬ (if dest.length - (Path.tail dest).length - 1 = 0 then 1
        else dest.length - (Path.tail dest).length - 1) ≥ C.DIR_MAX := by
      have : C.DIR_MAX = 512 := rfl
      split <;> omega
    exact ⟨_, if_neg hlt⟩

theorem C.isPartialOf_partialBase (base : Bytes) {digest : Bytes} (hd : digest.length = HASH_SIZE) :
    C.isPartialOf ([DOT] ++ base ++ [DOT]) (partialBase base digest) = true := by
  have hlen : (digest.take TOKEN_SIZE).length = TOKEN_SIZE := by
    rw [List.length_take, hd]
    rfl
  have hfront : partialBase base digest =
      ([DOT] ++ base ++ [DOT]) ++ (hex (digest.take TOKEN_SIZE) ++ ascii ".part") := by
    unfold partialBase
    rw [List.append_assoc]
  have hback : partialBase base digest =
      ([DOT] ++ base ++ [DOT] ++ hex (digest.take TOKEN_SIZE)) ++ ascii ".part" := rfl
  have h5 : (ascii ".part").length = 5 := by decide
  have hsize : (partialBase base digest).length =
      ([DOT] ++ base ++ [DOT]).length + TOKEN_SIZE * 2 + 5 := by
    have htail : (hex (digest.take TOKEN_SIZE) ++ ascii ".part").length = TOKEN_SIZE * 2 + 5 := by
      rw [List.length_append, hex_length, hlen, h5]
      omega
    rw [hfront, List.length_append, htail]
    omega
  have hdrop : (partialBase base digest).drop ((partialBase base digest).length - 5) =
      ascii ".part" := by
    have hpos : (partialBase base digest).length - 5 =
        ([DOT] ++ base ++ [DOT] ++ hex (digest.take TOKEN_SIZE)).length := by
      rw [hback, List.length_append, h5, Nat.add_sub_cancel]
    rw [hpos, hback, List.drop_left]
  unfold C.isPartialOf
  rw [hdrop, decide_eq_true hsize, decide_eq_true rfl, Bool.and_true, Bool.true_and, decide_eq_true_eq]
  rw [hfront, List.take_left]

theorem C.suffix_of_isPartialOf {front n : Bytes} (h : C.isPartialOf front n = true) :
    ascii ".part" <:+ n := by
  unfold C.isPartialOf at h
  rw [Bool.and_eq_true, decide_eq_true_eq] at h
  rw [← h.2]
  exact List.drop_suffix _ _

/-- **A partial left by either client is found by both.** Whatever the destination, as long as its
directory part has no magic characters: when the only entry of the directory that ends in `.part` is
the file that one of the clients has named for the destination and a digest, both clients find it,
with its size and the first bytes of the digest. -/
theorem either_partial_found {N : Type} {net : Net N} {m : Machine N} {dest digest p content : Bytes}
    (hbase : (Path.tail dest).length ≤ 232) (hdir : (Path.head dest).length ≤ C.DIR_MAX)
    (hd : digest.length = HASH_SIZE) (hmagic : Glob.hasMagic (Path.split dest).1 = false)
    (hp : p = partialName dest digest ∨ C.partialName dest digest = some p)
    (hc : m.os.content p = some content) (honly : OnlyPartial m.os dest p) :
    BothFind net m dest p content.length (digest.take TOKEN_SIZE) := by
  have hslash := Path.tail_no_slash dest
  have hplain : Plain (partialBase (Path.tail dest) digest) := partialBase_plain hslash
  -- either name is the same entry of the directory
  have hloc : m.os.locate p =
      (m.os.destDir dest).map fun l => l ++ [partialBase (Path.tail dest) digest] := by
    rcases hp with rfl | hp
    · exact locate_partialName m.os dest digest
    · exact C.locate_partialName hd hp
  obtain ⟨i, hat, hdata⟩ := Os.content_at hc
  obtain ⟨lp, hlp, hslot⟩ := Os.at?_eq_some.mp hat
  obtain ⟨l, hl, hlp'⟩ := Option.map_eq_some_iff.mp (hloc.symm.trans hlp)
  have hmem : partialBase (Path.tail dest) digest ∈ m.os.entries l := by
    rw [Os.mem_entries_at, hlp',
      ← Os.slot_of_apart m.os (Os.not_prefix_of_slot (by rw [hslot]; simp)), hslot]
    simp
  have hunique : ∀ n ∈ m.os.entries l, ascii ".part" <:+ n →
      n = partialBase (Path.tail dest) digest := by
    intro n hn hs
    have := (honly l n hl hn hs).symm.trans (hlp.trans (congrArg some hlp'.symm))
    simpa using this
  have hstat : ∀ q, m.os.locate q = m.os.locate p →
      m.os.statAt q = some (.regular content.length) := by
    intro q hq
    have : m.os.at? q = some (.file i) := by
      unfold Os.at?
      rw [hq]
      exact hat
    rw [Os.statAt_file this, hdata]
  have hnames : m.os.namesIn (m.os.destDir dest) = m.os.entries l := by
    rw [hl]
    rfl
  refine ⟨?_, ?_⟩
  · have hof : m.os.partialsOf dest = [partialBase (Path.tail dest) digest] := by
      unfold Os.partialsOf
      rw [hnames]
      exact filter_eq_singleton m.os.entries_nodup hmem (fnmatch_partialBase _ _) fun n hn hm =>
        hunique n hn (suffix_of_fnmatch hm)
    have hq : m.os.locate (Path.join (Path.split dest).1 (partialBase (Path.tail dest) digest)) =
        m.os.locate p := by
      rw [hloc]
      exact locate_partialName m.os dest digest
    refine ⟨_, findPartial_yields hmagic hof, hq, ?_, partialToken_join dest hslash hd⟩
    apply (Net.yields_looks (.stat _)).bind
    rw [show (m.os.run (.stat _)).1 = some (.regular content.length) from hstat _ hq]
    exact Proc.yields_done _ _
  · obtain ⟨dir, hsplit⟩ := C.splitPath_of_short dest (by
      have : C.MAX_NAME = 255 := rfl
      omega) hdir
    have hof : C.partialsOf m.os dest = [partialBase (Path.tail dest) digest] := by
      unfold C.partialsOf
      rw [hnames]
      exact filter_eq_singleton m.os.entries_nodup hmem (C.isPartialOf_partialBase _ hd)
        fun n hn hm => hunique n hn (C.suffix_of_isPartialOf hm)
    have hq := (C.locate_entryPath m.os hsplit hplain).trans hloc.symm
    refine ⟨_, _, C.findPartial_yields hsplit hof (hstat _ hq) (C.scanToken_partialBase hd), hq, ?_⟩
    have hsmall := m.os.small i
    rw [hdata] at hsmall
    have : OFF_MAX = 2 ^ 63 := rfl
    show content.length % 2 ^ 64 = content.length
    omega

/-- A digest. -/
def sevens : Bytes := List.replicate HASH_SIZE 7

/-- A directory whose only entry is a file. -/
def lone (name data : Bytes) : Os := (Os.empty.createAt [name]).extend 0 data

/-- A filesystem with one directory, which holds a partial of `f` of three bytes and nothing else. -/
def shelf (dir : Bytes) : Os :=
  let os : Os := { Os.empty with store := ⟨(∅ : AList _).insert [dir] .subdir, fun _ => [], 0, by
    intro k i h
    by_cases hk : k = [dir]
    · rw [hk, AList.lookup_insert] at h
      cases h
    · rw [AList.lookup_insert_ne hk, AList.lookup_empty] at h
      cases h⟩ }
  (os.createAt [dir, partialBase (ascii "f") sevens]).extend 0 [1, 2, 3]

/-- What a destination in the directory needs: its partial is there, and is alone. -/
theorem shelf_only {os : Os} {dest p n : Bytes} {l : Loc}
    (h : os.destDir dest = some l ∧ os.entries l = [n] ∧ os.locate p = some (l ++ [n])) :
    OnlyPartial os dest p := by
  intro l' n' hl' hn' _
  rw [h.1] at hl'
  cases hl'
  rw [h.2.1, List.mem_singleton] at hn'
  rw [hn', h.2.2]

/-- Both clients find the partial in a directory with an ordinary name. -/
theorem either_partial_found_shelf :
    BothFind Net.wire ⟨shelf (ascii "d"), ∅, ⟨[], []⟩⟩ (ascii "d/f") (partialName (ascii "d/f") sevens) 3
      (sevens.take TOKEN_SIZE) := by
  have hshelf : (shelf (ascii "d")).content (partialName (ascii "d/f") sevens) = some [1, 2, 3] ∧
      (shelf (ascii "d")).destDir (ascii "d/f") = some [ascii "d"] ∧
      (shelf (ascii "d")).entries [ascii "d"] = [partialBase (ascii "f") sevens] ∧
      (shelf (ascii "d")).locate (partialName (ascii "d/f") sevens) =
        some ([ascii "d"] ++ [partialBase (ascii "f") sevens]) := by decide +kernel
  have hfound : BothFind Net.wire ⟨shelf (ascii "d"), ∅, ⟨[], []⟩⟩ (ascii "d/f")
      (partialName (ascii "d/f") sevens) ([1, 2, 3] : Bytes).length (sevens.take TOKEN_SIZE) :=
    either_partial_found (by decide) (by decide) (by decide) (by decide) (.inl rfl) hshelf.1
      (shelf_only hshelf.2)
  exact hfound

/-- In a directory called `[a]` the partial is alone too, and Python does not find it: `find_partial`
escapes the name but not the directory, so it looks in a directory called `a`. -/
theorem bracketed_partial_lost :
    (Path.tail (ascii "[a]/f")).length ≤ 232 ∧ (Path.head (ascii "[a]/f")).length ≤ C.DIR_MAX ∧
    sevens.length = HASH_SIZE ∧
    (shelf (ascii "[a]")).content (partialName (ascii "[a]/f") sevens) = some [1, 2, 3] ∧
    OnlyPartial (shelf (ascii "[a]")) (ascii "[a]/f") (partialName (ascii "[a]/f") sevens) ∧
    ¬ BothFind Net.wire ⟨shelf (ascii "[a]"), ∅, ⟨[], []⟩⟩ (ascii "[a]/f")
      (partialName (ascii "[a]/f") sevens) 3 (sevens.take TOKEN_SIZE) := by
  have hshelf : (shelf (ascii "[a]")).content (partialName (ascii "[a]/f") sevens) = some [1, 2, 3] ∧
      (shelf (ascii "[a]")).destDir (ascii "[a]/f") = some [ascii "[a]"] ∧
      (shelf (ascii "[a]")).entries [ascii "[a]"] = [partialBase (ascii "f") sevens] ∧
      (shelf (ascii "[a]")).locate (partialName (ascii "[a]/f") sevens) =
        some ([ascii "[a]"] ++ [partialBase (ascii "f") sevens]) ∧
      (findPartial (ascii "[a]/f")).eval (shelf (ascii "[a]")).ask = .ok none := by decide +kernel
  obtain ⟨hcontent, hdir, hentries, hloc, heval⟩ := hshelf
  refine ⟨by decide, by decide, by decide, hcontent, shelf_only ⟨hdir, hentries, hloc⟩, ?_⟩
  intro h
  obtain ⟨q, hq, -⟩ := h.python
  have hnone : Yields Net.wire.env (findPartial (ascii "[a]/f")) ⟨shelf (ascii "[a]"), ∅, ⟨[], []⟩⟩
      (.ok none) ⟨shelf (ascii "[a]"), ∅, ⟨[], []⟩⟩ :=
    heval ▸ Net.yields_eval (X := fun _ => True) (findPartial_uses (ascii "[a]/f"))
  obtain ⟨r, s', hrun⟩ := Proc.exists_runs Net.wire_live (findPartial (ascii "[a]/f"))
    (⟨shelf (ascii "[a]"), ∅, ⟨[], []⟩⟩ : Machine Wire)
  have h1 := (hq.unique hrun).1
  have h2 := (hnone.unique hrun).1
  rw [h1] at h2
  cases h2

end Retriever
