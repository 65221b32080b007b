/-
# Retriever.Server.Restart — what survives when the server is stopped

A server can be stopped at any moment and started again: the sweep at startup may be cut short, and
sessions may be cut off between any two of their calls. What was written to a partial may be lost,
since it is buffered; a file that has a name on the shelf has been closed before it got that name.

The directory that is left is again one that a server can start on, so everything that is said about
one run holds in every run of such a history. And the files stay: what stands under a name that the
sweep does not match is there for good, and an upload that was confirmed once is found after any
number of restarts with the bytes that were announced (`restarts_durable`).

For this no upload is for a name of the form of a partial name. Otherwise a partial could become the
second name of a partial of its own, which nobody removes after a restart. That what is published has
been verified holds all the same, in every life (`restarts_verified`).
-/
import Retriever.Server.Linearizable
import Retriever.Server.Sweep

namespace Retriever

open Os (SLASH DOT)

variable {T : Type}

/-! ## Names that last -/

/-- A name that the sweep does not match. -/
structure Lasting (n : Bytes) : Prop where
  plain : Plain n
  kept : Glob.fnmatch n (ascii ".*.part") = false

/-- The wildcard finds every partial of the working directory. -/
theorem IsPartialName.swept {k : Bytes} (h : IsPartialName k) (hk : SLASH ∉ k) :
    Glob.fnmatch k (ascii ".*.part") = true := by
  obtain ⟨b, d, rfl⟩ := h.base hk
  refine fnmatch_sweep.mpr ⟨b ++ [DOT] ++ hex (d.take TOKEN_SIZE), ?_⟩
  simp only [partialBase, List.append_assoc]

theorem Lasting.ordinary {n : Bytes} (h : Lasting n) : Ordinary n where
  plain := h.plain
  notPartial := by
    intro hp
    have hmatch := hp.swept h.plain.no_slash
    rw [h.kept] at hmatch
    cases hmatch

/-! ## A run leaves a directory to start on -/

/-- A directory as a server may find it. -/
structure Orderly (os : Os) : Prop extends Shelved os where
  named : os.SlashFree

/-- A directory as a server may find it that has served any uploads before, also under partial names. -/
structure Inherited (os : Os) : Prop where
  named : os.SlashFree
  paired : PartialsPaired os

section Gone

variable {os os' : Os}

/-- Some entries are gone. -/
theorem Os.entry_of_gone (he : ∀ n, os'.entry n = os.entry n ∨ os'.entry n = none) {n : Bytes} {s : Slot}
    (hn : os'.entry n = some s) : os.entry n = some s := by
  rcases he n with heq | hnone
  · rwa [← heq]
  · rw [hnone] at hn
    cases hn

theorem Os.SlashFree.mono (h : os.SlashFree)
    (he : ∀ n, os'.entry n = os.entry n ∨ os'.entry n = none) : os'.SlashFree := by
  intro n hn
  obtain ⟨s, hs⟩ := Option.ne_none_iff_exists'.mp hn
  exact h n (by rw [Os.entry_of_gone he hs]; exact nofun)

/-- Entries that are gone do no harm. -/
theorem Orderly.mono (h : Orderly os)
    (he : ∀ n, os'.entry n = os.entry n ∨ os'.entry n = none) : Orderly os' := by
  refine ⟨⟨fun k k' i hk hk' hi hi' => ?_, fun k n i hk hn hi hi' => ?_⟩, h.named.mono he⟩
  · exact h.apart k k' i hk hk' (Os.entry_of_gone he hi) (Os.entry_of_gone he hi')
  · exact h.kin k n i hk hn (Os.entry_of_gone he hi) (Os.entry_of_gone he hi')

theorem Inherited.mono (h : Inherited os)
    (he : ∀ n, os'.entry n = os.entry n ∨ os'.entry n = none) : Inherited os' where
  named := h.named.mono he
  paired := fun k k' i hk hk' hi hi' =>
    h.paired k k' i hk hk' (Os.entry_of_gone he hi) (Os.entry_of_gone he hi')

end Gone

section Steps

variable {os os' : Os} {u : PutRequest} {r : Request} {ph ph' : Phase}

/-- A step of an upload keeps the names of a file apart. -/
theorem Change.shelved (hu : u.OfFrame r.2) (hc : Change u os ph ph' os')
    (hnp : ¬ IsPartialName u.path) (h : Shelved os) : Shelved os' := by
  refine ⟨hc.strict hnp h.apart, ?_⟩
  intro k n i hk hn he hen
  cases hc with
  | same ph ph' _ => exact h.kin k n i hk hn he hen
  | create r _ =>
    rw [Os.createAt_entry, if_neg (hn.ne_partialPath hu)] at hen
    rw [Os.createAt_entry] at he
    split at he
    · cases he
      exact absurd (Os.entry_lt_next hen) (Nat.lt_irrefl _)
    · exact h.kin k n i hk hn he hen
  | append hlt _ => exact h.kin k n i hk hn he hen
  | unlink _ _ =>
    rw [Os.removeAt_entry] at he hen
    split at he
    · cases he
    · split at hen
      · cases hen
      · exact h.kin k n i hk hn he hen
  | @link j hent hs hnone =>
    rw [Os.linkAt_entry hent, if_neg (by rintro rfl; exact hnp hk)] at he
    rw [Os.linkAt_entry hent] at hen
    split at hen
    · -- the partial that the new name shares its file with is the one that was linked
      next hnu =>
      cases hen
      subst hnu
      refine ⟨u.digest, parsePut_digest_length hu.parsed, ?_⟩
      exact h.apart k _ _ hk hu.isPartialName he hent
    · exact h.kin k n i hk hn he hen

/-- **What a server leaves behind, a server can start on.** -/
theorem Server.Run.orderly [DecidableEq T] (h : Orderly os) {s : Server T}
    (hr : Server.Run (Server.start T os) s) (hnp : NoPartialNames s.world.log) :
    Orderly s.world.os := by
  have hkeep : Pool.Keeps Local.Rel (fun w phs => Inv IsPartialName w phs ∧
      (NoPartialNames w.log → Shelved w.os)) s := by
    refine Pool.inv_run Local.tracks ?_ hr
      ⟨_, Local.shows_start os, Inv.start h.apart, fun _ => h.toShelved⟩
    rintro w phs t l o a w' l' ⟨hi, ho⟩ hrel hx hm
    refine ⟨Inv.step (fun _ hp => hp) w phs t l o a w' l' hi hrel hx hm, fun hnp' => ?_⟩
    have hlog := hx.2
    have hold : NoPartialNames w.log := by
      rw [hlog] at hnp'
      exact hnp'.tail
    rcases hm.effect hx.1 with ⟨hos, -⟩ | ⟨r, u, ph, ph', hl, hmove, -⟩
    · rw [hos]
      exact ho hold
    · have hok := hi.ok t
      have hreq := hrel.request
      rw [hl] at hok hreq
      refine (hmove.change hok hx.1).shelved hok.1 ?_ (ho hold)
      exact hnp' _ (by rw [hlog]; exact List.mem_cons_self) u ⟨r, hreq, hok.1.uploadOf⟩
  obtain ⟨phs, -, -, ho⟩ := hkeep
  exact ⟨ho hnp, hr.named h.named⟩

end Steps

/-! ## The sweep, whole or in part -/

/-- Some entries that the sweep matches are gone, and nothing else has changed. -/
structure Os.Thinned (os os' : Os) : Prop where
  entry : ∀ n, os'.entry n = os.entry n ∨
    os'.entry n = none ∧ Glob.fnmatch n (ascii ".*.part") = true
  data : os'.store.data = os.store.data

section Sweep

variable {os os' : Os} {N : Type} {net : Net N}

theorem Os.Thinned.refl (os : Os) : os.Thinned os := ⟨fun _ => .inl rfl, rfl⟩

theorem Os.Thinned.orderly (h : os.Thinned os') (ho : Orderly os) : Orderly os' :=
  ho.mono fun n => (h.entry n).imp_right And.left

/-- The sweep takes no name that lasts. -/
theorem Os.Thinned.entry_lasting (h : os.Thinned os') {n : Bytes} (hn : Lasting n) :
    os'.entry n = os.entry n := by
  refine (h.entry n).resolve_right ?_
  rintro ⟨-, hmatch⟩
  rw [hn.kept] at hmatch
  cases hmatch

theorem Os.Thinned.named (h : os.Thinned os') (hnamed : os.SlashFree) : os'.SlashFree :=
  hnamed.mono fun n => (h.entry n).imp_right And.left

/-- The sweep takes nothing that lasts. -/
theorem Os.Thinned.item (h : os.Thinned os') {n : Bytes} (hn : Lasting n) :
    os'.item n = os.item n :=
  Os.item_congr (h.entry_lasting hn) fun i _ => by rw [h.data]

/-- One `os.remove` of the sweep. -/
theorem Os.Thinned.unlink (h : os.Thinned os') {n : Bytes} (hn : Plain n)
    (hmatch : Glob.fnmatch n (ascii ".*.part") = true) : os.Thinned (os'.run (.unlink n)).2 := by
  cases ha : (os'.run (.unlink n)).1 with
  | error e => rwa [Os.run_refused (.unlink n e) ha]
  | ok =>
    rw [(Os.run_unlink_ok hn ha).2]
    refine ⟨fun n' => ?_, h.data⟩
    rw [Os.removeAt_entry]
    split
    · next heq => exact .inr ⟨rfl, heq ▸ hmatch⟩
    · exact h.entry n'

variable {C : Type} [Sub C] [LT C] [DecidableLT C] {now maxAge : C}
  {getmtime : Bytes → Except SysErr C}

/-- The loop removes some of the paths and does nothing else. -/
theorem sweepLoop_uses (removed : Nat) (paths : List Bytes) :
    (sweepLoop now maxAge getmtime removed paths).Uses (fun o => ∃ n ∈ paths, o = .fs (.unlink n))
      (fun _ => True) := by
  have hmain : ∀ rest, (∀ n ∈ rest, n ∈ paths) → ∀ removed,
      (sweepLoop now maxAge getmtime removed rest).Uses (fun o => ∃ n ∈ paths, o = .fs (.unlink n))
        (fun _ => True) := by
    intro rest
    induction rest with
    | nil => exact fun _ _ => trivial
    | cons n rest ih =>
      intro hsub removed
      obtain ⟨hn, hrest⟩ := List.forall_mem_cons.mp hsub
      refine Proc.uses_bind ?_ fun k => ih hrest (removed + k)
      refine Proc.uses_tryCatch (Y := fun _ => True) ?_ fun e _ => ?_
      · refine Proc.uses_bind ?_ fun mtime => ?_
        · cases getmtime n <;> trivial
        · split
          · refine Proc.uses_bind (Proc.uses_bind (Proc.uses_perform ⟨n, hn, rfl⟩) fun x => ?_)
              fun _ => trivial
            cases x <;> trivial
          · trivial
      · cases e <;> trivial
  exact hmain paths (fun _ h => h) removed

/-- The sweep looks at the directory once. -/
theorem sweepPartials_eq : sweepPartials now maxAge getmtime =
    Proc.call (.fs (.listdir [DOT])) fun a => sweepLoop now maxAge getmtime 0
      ((a.toOption.getD []).filter fun n => Glob.fnmatch n (ascii ".*.part")) := by
  unfold sweepPartials Glob.glob Glob.iglob
  rw [Path.split_plain (by decide)]
  simp only
  rw [if_neg (by decide), if_pos trivial]
  unfold Glob.glob1 Glob.listdir
  have hhidden : Glob.isHidden (ascii ".*.part") = true := by decide
  simp only [hhidden, if_true, Bool.false_eq_true, if_false]
  refine congrArg (Proc.call _) (funext fun a => ?_)
  cases a <;> rfl

/-- **Wherever the sweep is stopped, only entries that it matches are gone.** -/
theorem sweep_thins {m m' : Machine N} {p : Py Nat} (hnamed : m.os.SlashFree)
    (h : Proc.Reaches net.env (sweepPartials now maxAge getmtime) m p m') :
    m.os.Thinned m'.os := by
  rw [sweepPartials_eq] at h
  cases h with
  | refl => exact .refl _
  | @call _ _ _ _ m₁ _ a hx hrest =>
    obtain ⟨rfl, rfl⟩ := hx
    have hlist : (m.os.run (.listdir [DOT])).1 = .ok (m.os.entries m.os.cwd) := by
      simp only [Os.run, Os.locate_dot, Os.isDir_cwd, if_true]
    refine hrest.keeps (I := fun m' => m.os.Thinned m'.os) (sweepLoop_uses _ _) ?_ ?_
    · rintro m₁ o a m₂ ⟨n, hn, rfl⟩ ⟨-, rfl⟩ hthin
      rw [hlist] at hn
      obtain ⟨hmem, hmatch⟩ := List.mem_filter.mp hn
      exact hthin.unlink (plain_of_swept hmatch (hnamed n (m.os.mem_entries.mp hmem))) hmatch
    · rw [Os.run_looks (.listdir _)]
      exact .refl _

end Sweep

/-! ## One run -/

section Run

variable [DecidableEq T] {os : Os} {s : Server T}

/-- What stands under an ordinary name at the start stands there to the end. -/
theorem Server.Run.item_kept (h : Shelved os) (hr : Server.Run (Server.start T os) s) {n : Bytes}
    (hn : Ordinary n) {x : Item} (hx : os.item n = some x) : s.world.os.item n = some x := by
  have hkept : (osBefore os (s.world.log ++ [])).shelf ⟨n, hn⟩ = some x :=
    hr.shelf_keeps h (show s.world.log = [] ++ (s.world.log ++ []) by simp) hx
  rw [List.append_nil, ← hr.os_eq] at hkept
  exact hkept

/-- An upload that is confirmed has put its file under a name that was free. -/
theorem Server.Run.confirmed_stores (h : Shelved os) (hr : Server.Run (Server.start T os) s)
    {e : Event T} (he : e ∈ s.world.log) {u : PutRequest} (hu : e.Uploads u) (hn : Ordinary u.path)
    (hsend : e.Sends okFrame) :
    ∃ later e' past c, s.world.log = later ++ e' :: past ∧ e'.sid = e.sid ∧
      (osBefore os past).shelf ⟨u.path, hn⟩ = none ∧
      (osBefore os (e' :: past)).shelf ⟨u.path, hn⟩ = some (.file c) ∧ sha256 c = u.digest := by
  obtain ⟨r, hreq, hu⟩ := hu
  obtain ⟨later, past, hlog⟩ := List.append_of_mem he
  obtain ⟨mid, e', past', c, rfl, hof, heff⟩ := hr.confirmed_effect h hlog hreq hu hn hsend
  have hlog' : s.world.log = (later ++ e :: mid) ++ e' :: past' := by
    rw [hlog]
    simp
  refine ⟨_, e', past', c, hlog', hof.1, ?_⟩
  cases heff.does h hr hlog' hof.2 with
  | store hu' hadds =>
    obtain rfl := Option.some.inj (hu'.symm.trans hu)
    obtain ⟨_, hfree, hsha, hupd⟩ := hadds
    refine ⟨hfree, ?_, hsha⟩
    show e'.os.shelf _ = _
    rw [hupd, Function.update_self]

/-- An upload that is confirmed stands there to the end. -/
theorem Server.Run.confirmed_item (h : Shelved os) (hr : Server.Run (Server.start T os) s)
    {e : Event T} (he : e ∈ s.world.log) {u : PutRequest} (hu : e.Uploads u) (hn : Ordinary u.path)
    (hsend : e.Sends okFrame) : ∃ c, s.world.os.item u.path = some (.file c) ∧ sha256 c = u.digest := by
  obtain ⟨later, e', past, c, hlog, -, -, hnew, hsha⟩ := hr.confirmed_stores h he hu hn hsend
  have hkept := hr.shelf_keeps h (show _ = [] ++ (later ++ e' :: past) from hlog) hnew
  rw [← hlog, ← hr.os_eq] at hkept
  exact ⟨c, hkept, hsha⟩

/-- The event publishes an upload of the name with these bytes. -/
def Event.Publishes (e : Event T) (n : Bytes) (x : Item) : Prop :=
  ∃ u c, e.Uploads u ∧ u.path = n ∧ e.Links u.partialPath n ∧ x = .file c ∧ sha256 c = u.digest

/-- What stands there in the end was there, or is an upload. -/
theorem Server.Run.item_origin (h : Shelved os) (hr : Server.Run (Server.start T os) s) {n : Bytes}
    (hn : Ordinary n) {x : Item} (hx : s.world.os.item n = some x) :
    os.item n = some x ∨ ∃ e ∈ s.world.log, e.Publishes n x := by
  have hmain : ∀ later past, s.world.log = later ++ past →
      (osBefore os past).shelf ⟨n, hn⟩ = some x →
      os.item n = some x ∨ ∃ e ∈ s.world.log, e.Publishes n x := by
    intro later past
    induction past generalizing later with
    | nil => exact fun _ hx => .inl hx
    | cons e past ih =>
      intro hlog hx
      rcases hr.shelf_event h hlog with hsame | ⟨r, u, c, hreq, hu, hlinks, hn', -, hsha, hadds⟩
      · refine ih (later ++ [e]) (by rw [hlog]; simp) ?_
        rw [← hsame]
        exact hx
      · change e.os.shelf ⟨n, hn⟩ = some x at hx
        by_cases heq : n = u.path
        · subst heq
          rw [hadds, Function.update_self] at hx
          cases hx
          refine .inr ⟨e, by rw [hlog]; simp, u, c, ⟨r, hreq, hu⟩, rfl, hlinks, rfl, hsha⟩
        · rw [hadds, Function.update_of_ne fun he => heq (congrArg Subtype.val he)] at hx
          exact ih (later ++ [e]) (by rw [hlog]; simp) hx
  refine hmain [] s.world.log rfl ?_
  rw [← hr.os_eq]
  exact hx

end Run

/-! ## Histories -/

/-- The disk after the process is gone. The names are as they were, and so is a file with an ordinary
name; what has been written to another file may be lost. -/
structure Os.Survives (os os' : Os) : Prop where
  entry : ∀ n, os'.entry n = os.entry n
  data : ∀ n i, Ordinary n → os.entry n = some (.file i) → os'.store.data i = os.store.data i

theorem Os.Survives.refl (os : Os) : os.Survives os := ⟨fun _ => rfl, fun _ _ _ _ => rfl⟩

theorem Os.Survives.item {os os' : Os} (h : os.Survives os') {n : Bytes} (hn : Ordinary n) :
    os'.item n = os.item n :=
  Os.item_congr (h.entry n) fun i hi => h.data n i hn hi

/-- A server that starts alone on a disk. -/
def startup (os : Os) : Machine Wire := ⟨os, ∅, ⟨[], []⟩⟩

/-- One life of the server, from `start_server` on until the process is gone: it ends during the
sweep, or while clients are served. -/
inductive Life (T : Type) [DecidableEq T] (os : Os) : List (Event T) → Os → Prop
  | sweeping {C : Type} [Sub C] [LT C] [DecidableLT C] {now maxAge : C}
      {getmtime : Bytes → Except SysErr C} {p : Py Nat} {m : Machine Wire} {os' : Os} :
      Proc.Reaches Net.wire.env (sweepPartials now maxAge getmtime) (startup os) p m →
      m.os.Survives os' → Life T os [] os'
  | serving {C : Type} [Sub C] [LT C] [DecidableLT C] {now maxAge : C}
      {getmtime : Bytes → Except SysErr C} {k : Nat} {m : Machine Wire} {s : Server T} {os' : Os} :
      Proc.Runs Net.wire.env (sweepPartials now maxAge getmtime) (startup os) (.ok k) m →
      Server.Run (Server.start T m.os) s → s.world.os.Survives os' → Life T os s.world.log os'

/-- The process may be gone before it has done anything. -/
theorem Life.stopped [DecidableEq T] (os : Os) : Life T os [] os := by
  have hnothing : Proc.Reaches Net.wire.env (sweepPartials (10 : Int) 5 fun _ => .ok 0) (startup os)
      (sweepPartials (10 : Int) 5 fun _ => .ok 0) (startup os) := .refl _ _
  exact .sweeping hnothing (Os.Survives.refl os)

/-- Any number of lives, newest first. -/
inductive Lives (T : Type) [DecidableEq T] (os : Os) : List (List (Event T)) → Os → Prop
  | nil : Lives T os [] os
  | cons {logs : List (List (Event T))} {log : List (Event T)} {os₁ os' : Os} :
      Lives T os logs os₁ → Life T os₁ log os' → Lives T os (log :: logs) os'

/-- What a part of a history does to the names that last. -/
structure Lasts (os os' : Os) (logs : List (List (Event T))) : Prop where
  kept : ∀ n x, Lasting n → os.item n = some x → os'.item n = some x
  confirmed : ∀ log ∈ logs, ∀ e ∈ log, ∀ u, e.Uploads u → Lasting u.path → e.Sends okFrame →
    ∃ c, os'.item u.path = some (.file c) ∧ sha256 c = u.digest
  origin : ∀ n x, Lasting n → os'.item n = some x →
    os.item n = some x ∨ ∃ log ∈ logs, ∃ e ∈ log, e.Publishes n x

section Histories

variable {os os₁ os' : Os} {log : List (Event T)} {logs : List (List (Event T))}

theorem Lasts.refl (os : Os) : Lasts os os ([] : List (List (Event T))) :=
  ⟨fun _ _ _ hx => hx, nofun, fun _ _ _ hx => .inl hx⟩

theorem Lasts.cons (h : Lasts os os₁ logs) (h' : Lasts os₁ os' [log]) : Lasts os os' (log :: logs) where
  kept := fun n x hn hx => h'.kept n x hn (h.kept n x hn hx)
  confirmed := by
    intro log' hlog' e he u hu hn hsend
    rcases List.mem_cons.mp hlog' with rfl | hlog'
    · exact h'.confirmed _ List.mem_cons_self e he u hu hn hsend
    · obtain ⟨c, hc, hsha⟩ := h.confirmed log' hlog' e he u hu hn hsend
      exact ⟨c, h'.kept _ _ hn hc, hsha⟩
  origin := by
    intro n x hn hx
    rcases h'.origin n x hn hx with hx | ⟨log', hlog', hpub⟩
    · refine (h.origin n x hn hx).imp_right ?_
      rintro ⟨log', hlog', hpub⟩
      exact ⟨log', List.mem_cons_of_mem _ hlog', hpub⟩
    · obtain rfl := List.mem_singleton.mp hlog'
      exact .inr ⟨log', List.mem_cons_self, hpub⟩

/-- The sweep may be cut short anywhere. -/
theorem Inherited.swept {N : Type} {net : Net N} {C : Type} [Sub C] [LT C] [DecidableLT C]
    {now maxAge : C} {getmtime : Bytes → Except SysErr C} {m m' : Machine N} {p : Py Nat}
    (h : Inherited m.os) (hr : Proc.Reaches net.env (sweepPartials now maxAge getmtime) m p m') :
    Inherited m'.os :=
  h.mono fun n => ((sweep_thins h.named hr).entry n).imp_right And.left

theorem Orderly.survives (h : Orderly os) (hs : os.Survives os') : Orderly os' :=
  h.mono fun n => .inl (hs.entry n)

variable [DecidableEq T]

/-- One life. -/
theorem Life.lasts (h : Orderly os) (hl : Life T os log os') (hnp : NoPartialNames log) :
    Orderly os' ∧ Lasts os os' [log] := by
  cases hl with
  | @sweeping _ _ _ _ _ _ _ p m _ hreach hs =>
    have hthin : os.Thinned m.os := sweep_thins (m := startup os) h.named hreach
    have hsame : ∀ {n}, Lasting n → os'.item n = os.item n := fun hn =>
      (hs.item hn.ordinary).trans (hthin.item hn)
    refine ⟨(hthin.orderly h).survives hs, fun n x hn hx => (hsame hn).trans hx, ?_, fun n x hn hx =>
      .inl ((hsame hn).symm.trans hx)⟩
    intro log hlog e he
    obtain rfl := List.mem_singleton.mp hlog
    cases he
  | @serving _ _ _ _ _ _ _ k m s _ hruns hr hs =>
    have hthin : os.Thinned m.os := sweep_thins (m := startup os) h.named hruns.reaches
    have ho := hthin.orderly h
    refine ⟨(hr.orderly ho hnp).survives hs, fun n x hn hx => ?_, ?_, fun n x hn hx => ?_⟩
    · rw [hs.item hn.ordinary]
      exact hr.item_kept ho.toShelved hn.ordinary ((hthin.item hn).trans hx)
    · intro log hlog e he u hu hn hsend
      obtain rfl := List.mem_singleton.mp hlog
      rw [hs.item hn.ordinary]
      exact hr.confirmed_item ho.toShelved he hu hn.ordinary hsend
    · rw [hs.item hn.ordinary] at hx
      rcases hr.item_origin ho.toShelved hn.ordinary hx with hx | ⟨e, he, hpub⟩
      · exact .inl ((hthin.item hn).symm.trans hx)
      · exact .inr ⟨_, List.mem_cons_self, e, he, hpub⟩

/-- **What is stored lasts.** The server is stopped and started any number of times, at any moments,
and serves any clients that do not upload under partial names. Then it is left with a directory to
start on; what stands under a name that the sweep does not match is there for good; an upload that
was confirmed in any life is there with the hash that was announced; and what is there was there at
the start or is an upload. -/
theorem restarts_durable (h : Orderly os) (hh : Lives T os logs os')
    (hnp : ∀ log ∈ logs, NoPartialNames log) : Orderly os' ∧ Lasts os os' logs := by
  induction hh with
  | nil => exact ⟨h, .refl os⟩
  | @cons logs log os₁ os' _ hlife ih =>
    obtain ⟨ho, hlasts⟩ := ih fun log' hlog' => hnp log' (List.mem_cons_of_mem _ hlog')
    obtain ⟨ho', hlasts'⟩ := hlife.lasts ho (hnp log List.mem_cons_self)
    exact ⟨ho', hlasts.cons hlasts'⟩

/-- One life, with any uploads. -/
theorem Life.verified (h : Inherited os) (hl : Life T os log os') :
    Inherited os' ∧ ∀ e ∈ log, e.LinkSound := by
  cases hl with
  | @sweeping _ _ _ _ _ _ _ p m _ hreach hs =>
    have hswept := Inherited.swept (m := startup os) h hreach
    exact ⟨hswept.mono fun n => .inl (hs.entry n), nofun⟩
  | @serving _ _ _ _ _ _ _ k m s _ hruns hr hs =>
    have hswept := Inherited.swept (m := startup os) h hruns.reaches
    have hleft : Inherited s.world.os := ⟨hr.named hswept.named, hr.paired hswept.paired⟩
    obtain ⟨phs, -, -, hp⟩ := hr.publicationInv hswept.paired
    exact ⟨hleft.mono fun n => .inl (hs.entry n), hp.sound⟩

/-- **What is published has been verified in every life.** The server is stopped and started any number
of times, and uploads may be under any names: what it has left, it publishes nothing wrong from. -/
theorem restarts_verified (h : Inherited os) (hh : Lives T os logs os') :
    Inherited os' ∧ ∀ log ∈ logs, ∀ e ∈ log, e.LinkSound := by
  induction hh with
  | nil => exact ⟨h, nofun⟩
  | @cons logs log os₁ os' _ hlife ih =>
    obtain ⟨hleft, hold⟩ := ih
    obtain ⟨hleft', hnew⟩ := hlife.verified hleft
    refine ⟨hleft', fun log' hlog' => ?_⟩
    rcases List.mem_cons.mp hlog' with rfl | hlog'
    · exact hnew
    · exact hold log' hlog'

end Histories

theorem orderly_empty : Orderly Os.empty where
  toShelved := shelved_empty
  named := fun n hn => absurd (Os.empty_entry n) hn

/-- Short names are no partial names. -/
theorem noPartialNames_of_short {log : List (Event T)}
    (h : (log.all fun e => (e.request.bind uploadOf).all fun u => decide (u.path.length = 1)) = true) :
    NoPartialNames log := by
  rintro e he u ⟨r, hreq, hu⟩ hp
  have hone := List.all_eq_true.mp h e he
  rw [hreq, Option.bind_some, hu] at hone
  have hlen := hp.suffix.length_le
  rw [of_decide_eq_true hone] at hlen
  exact absurd hlen (by decide)

/-- A server that is stopped after two uploads and stopped again before its next sweep is over. -/
theorem restarts_durable_twoUploads :
    (∃ e ∈ twoUploads.world.log, e.Sends okFrame) ∧ Lasting (ascii "a") ∧
    Orderly twoUploads.world.os ∧ Lasts Os.empty twoUploads.world.os [[], twoUploads.world.log] := by
  have hsweep : Proc.Runs Net.wire.env (sweepPartials (10 : Int) 5 fun _ => .ok 0)
      (startup Os.empty) (.ok 0) (startup Os.empty) := by
    rw [sweepPartials_eq]
    exact .call ⟨rfl, rfl⟩ (.done 0 _)
  have hhist : Lives Bool Os.empty [[], twoUploads.world.log] twoUploads.world.os :=
    .cons (.cons .nil (.serving hsweep twoUploads_run (Os.Survives.refl _))) (Life.stopped _)
  refine ⟨twoUploads_confirmed, ⟨?_, ?_⟩, restarts_durable orderly_empty hhist ?_⟩
  · exact ⟨by decide, by decide, by decide, by decide⟩
  · decide +kernel
  · intro log hlog
    rcases List.mem_cons.mp hlog with rfl | hlog
    · exact nofun
    · rw [List.mem_singleton.mp hlog]
      exact noPartialNames_of_short twoUploads_done.2.2.2.2

end Retriever
