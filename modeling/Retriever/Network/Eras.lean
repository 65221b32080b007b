/-
# Retriever.Network.Eras — transfers across restarts

The server is stopped and started again on the directory that is left, any number of times, and each time it
has other clients. An era is one such life: the directory on which the server has begun to serve, its clients,
and how far the network has come. The process may also be gone before its sweep at startup is over.

What a client was told holds in all the later eras. The file of an upload that has ended with 0 is on the disk
in the end, and every download of it in the same or a later era that ends with 0 has saved a file with its hash
(`upload_outlives`); and a name under which an upload has once ended with 0 is not given to an upload of a later
era (`upload_exclusive_ever`).
-/
import Retriever.Network.Delivery

namespace Retriever

variable {T : Type} {os os₁ os' : Os}

/-! ## Lives without clients -/

/-- A life in which nobody was served adds nothing to a history. -/
theorem Lasts.idle {logs : List (List (Event T))} (h : Lasts os os₁ logs)
    (h' : Lasts os₁ os' [([] : List (Event T))]) : Lasts os os' logs where
  kept := fun n x hn hx => h'.kept n x hn (h.kept n x hn hx)
  confirmed := by
    intro log hlog e he u hu hn hsend
    obtain ⟨c, hc, hsha⟩ := h.confirmed log hlog e he u hu hn hsend
    exact ⟨c, h'.kept _ _ hn hc, hsha⟩
  origin := by
    intro n x hn hx
    apply h.origin n x hn
    rcases h'.origin n x hn hx with hx | ⟨log, hlog, e, he, -⟩
    · exact hx
    · rw [List.mem_singleton.mp hlog] at he
      cases he

theorem noPartialNames_nil : NoPartialNames ([] : List (Event T)) := by
  intro e he
  cases he

/-! ## Eras -/

variable [DecidableEq T]

/-- One life of the server, from the end of its sweep on. -/
structure Era (T : Type) [DecidableEq T] where
  os : Os
  clients : T → Client
  network : Network T
  run : Network.Run (Network.start os clients) network

/-- What the server has done in the era. -/
def Era.log (a : Era T) : List (Event T) := a.network.server.world.log

/-- A history that begins with a directory and leaves another one, its eras newest first. -/
inductive Eras (os : Os) : List (Era T) → Os → Prop
  | nil : Eras os [] os
  | swept {eras : List (Era T)} {os₁ os' : Os} {C : Type} [Sub C] [LT C] [DecidableLT C] {now maxAge : C}
      {getmtime : Bytes → Except SysErr C} {p : Py Nat} {m : Machine Wire} :
      Eras os eras os₁ →
      Proc.Reaches Net.wire.env (sweepPartials now maxAge getmtime) (startup os₁) p m →
      m.os.Survives os' → Eras os eras os'
  | served {eras : List (Era T)} {a : Era T} {os₁ os' : Os} {C : Type} [Sub C] [LT C] [DecidableLT C]
      {now maxAge : C} {getmtime : Bytes → Except SysErr C} {k : Nat} {m : Machine Wire} :
      Eras os eras os₁ →
      Proc.Runs Net.wire.env (sweepPartials now maxAge getmtime) (startup os₁) (.ok k) m →
      m.os = a.os → a.network.server.world.os.Survives os' → Eras os (a :: eras) os'

section Histories

variable {eras newer older : List (Era T)} {a b : Era T} {t t' : T} {path path' : Bytes}
  {other other' : Option Bytes}

/-- **A history leaves a directory to start on**, and what is stored lasts. -/
theorem Eras.lasts (h : Orderly os) (hh : Eras os eras os') (hnp : ∀ a ∈ eras, NoPartialNames a.log) :
    Orderly os' ∧ Lasts os os' (eras.map Era.log) := by
  induction hh with
  | nil => exact ⟨h, .refl os⟩
  | swept _ hreach hs ih =>
    obtain ⟨ho, hlasts⟩ := ih hnp
    obtain ⟨ho', hidle⟩ := (Life.sweeping (T := T) hreach hs).lasts ho noPartialNames_nil
    exact ⟨ho', hlasts.idle hidle⟩
  | @served eras a _ _ _ _ _ _ _ _ _ _ _ _ hruns hos hs ih =>
    obtain ⟨ho, hlasts⟩ := ih fun b hb => hnp b (List.mem_cons_of_mem _ hb)
    have hserver := a.run.server
    rw [← hos] at hserver
    obtain ⟨ho', hlife⟩ := (Life.serving hruns hserver hs).lasts ho (hnp a List.mem_cons_self)
    exact ⟨ho', hlasts.cons hlife⟩

/-- **An era begins on such a directory.** -/
theorem Eras.begins (h : Orderly os) (hh : Eras os eras os') (hnp : ∀ a ∈ eras, NoPartialNames a.log)
    (heras : eras = newer ++ b :: older) : Orderly b.os ∧ Lasts os b.os (older.map Era.log) := by
  induction hh generalizing newer with
  | nil => exact absurd heras.symm (List.append_ne_nil_of_right_ne_nil _ (List.cons_ne_nil _ _))
  | swept _ _ _ ih => exact ih hnp heras
  | @served eras a _ _ _ _ _ _ _ _ _ _ _ hh hruns hos _ ih =>
    have hnp' : ∀ a ∈ eras, NoPartialNames a.log := fun c hc => hnp c (List.mem_cons_of_mem _ hc)
    cases newer with
    | nil =>
      obtain ⟨rfl, rfl⟩ := List.cons.inj heras
      obtain ⟨ho, hlasts⟩ := hh.lasts h hnp'
      obtain ⟨ho', hidle⟩ :=
        (Life.sweeping (T := T) hruns.reaches (Os.Survives.refl _)).lasts ho noPartialNames_nil
      rw [hos] at ho' hidle
      exact ⟨ho', hlasts.idle hidle⟩
    | cons c newer =>
      obtain ⟨rfl, rfl⟩ := List.cons.inj heras
      exact ih hnp' rfl

/-! ## Transfers -/

/-- An upload that has ended with 0 in an earlier era is there when an era begins. -/
theorem Eras.found (h : Orderly os) (hh : Eras os eras os') (hnp : ∀ a ∈ eras, NoPartialNames a.log)
    (heras : eras = newer ++ b :: older) (ha : a ∈ older) (hc : (a.clients t).command = .put path other)
    (hn : Lasting (storedName ((a.clients t).remote path other)))
    (hdone : (a.network.parties t).status = some 0) :
    ∃ body c, (a.clients t).os.content path = some body ∧ sha256 c = sha256 body ∧
      b.os.item (storedName ((a.clients t).remote path other)) = some (.file c) := by
  obtain ⟨-, hlasts⟩ := hh.begins h hnp heras
  obtain ⟨body, f, u, hbody, hu, hpath, hdigest, e, he, hof, hsend⟩ := a.run.put_confirmed hc hdone
  rw [← hpath] at hn ⊢
  obtain ⟨c, hitem, hsha⟩ := hlasts.confirmed a.log (List.mem_map_of_mem ha) e he u ⟨(0, f), hof.2, hu⟩ hn
    hsend
  exact ⟨body, c, hbody, hsha.trans hdigest, hitem⟩

/-- What an upload that has ended with 0 has brought is there in its own era and in the later ones. -/
theorem Eras.stored (h : Orderly os) (hh : Eras os eras os') (hnp : ∀ a ∈ eras, NoPartialNames a.log)
    (heras : eras = newer ++ b :: older) (ha : a ∈ b :: older)
    (hc : (a.clients t).command = .put path other)
    (hn : Lasting (storedName ((a.clients t).remote path other)))
    (hdone : (a.network.parties t).status = some 0) :
    ∃ body c, (a.clients t).os.content path = some body ∧ sha256 c = sha256 body ∧
      b.network.server.world.os.item (storedName ((a.clients t).remote path other)) = some (.file c) := by
  obtain ⟨ho, -⟩ := hh.begins h hnp heras
  rcases List.mem_cons.mp ha with rfl | ha
  · obtain ⟨body, c, hbody, hsha, _, hshelf⟩ := a.run.put_stored ho.toShelved hc hn.ordinary.notPartial hdone
    exact ⟨body, c, hbody, hsha, hshelf⟩
  · obtain ⟨body, c, hbody, hsha, hitem⟩ := hh.found h hnp heras ha hc hn hdone
    exact ⟨body, c, hbody, hsha, b.run.server.item_kept ho.toShelved hn.ordinary hitem⟩

/-- **What was uploaded outlives the server.** When an upload has ended with 0, then its file is on the disk at
the end of every history, under a name that the sweep does not match; and every download of it that ends with
0 in the same era or in a later one has saved a file with its hash. -/
theorem upload_outlives (h : Orderly os) (hh : Eras os eras os') (hnp : ∀ a ∈ eras, NoPartialNames a.log)
    (heras : eras = newer ++ a :: older) (hc : (a.clients t).command = .put path other)
    (hn : Lasting (storedName ((a.clients t).remote path other)))
    (hdone : (a.network.parties t).status = some 0) :
    ∃ body c, (a.clients t).os.content path = some body ∧ sha256 c = sha256 body ∧
      os'.content (storedName ((a.clients t).remote path other)) = some c ∧
      ∀ b ∈ newer ++ [a], ∀ t' filename output, (b.clients t').command = .get filename output →
        storedName filename = storedName ((a.clients t).remote path other) →
        (b.network.parties t').status = some 0 →
        ∃ d, (b.network.parties t').machine.os.content ((b.clients t').dest filename output) = some d ∧
          sha256 d = sha256 body := by
  obtain ⟨-, hlasts⟩ := hh.lasts h hnp
  obtain ⟨body, f, u, hbody, hu, hpath, hdigest, e, he, hof, hsend⟩ := a.run.put_confirmed hc hdone
  have ha : a.log ∈ eras.map Era.log := by
    rw [heras]
    exact List.mem_map_of_mem (List.mem_append_right _ List.mem_cons_self)
  obtain ⟨c, hitem, hsha⟩ := hlasts.confirmed a.log ha e he u ⟨(0, f), hof.2, hu⟩ (hpath ▸ hn) hsend
  rw [hpath] at hitem
  refine ⟨body, c, hbody, hsha.trans hdigest, (Os.item_content hn.ordinary).mp hitem, ?_⟩
  intro b hb t' filename output hget hname hsaved
  -- the history from the beginning to the era of the download
  obtain ⟨newest, since, rfl, hsince⟩ : ∃ newest since, eras = newest ++ b :: since ∧ a ∈ b :: since := by
    rcases List.mem_append.mp hb with hb | hb
    · obtain ⟨newest, since, rfl⟩ := List.append_of_mem hb
      refine ⟨newest, since ++ a :: older, by rw [heras]; simp, ?_⟩
      exact List.mem_cons_of_mem _ (List.mem_append_right _ List.mem_cons_self)
    · rw [List.mem_singleton.mp hb]
      exact ⟨newer, older, heras, List.mem_cons_self⟩
  obtain ⟨ho, -⟩ := hh.begins h hnp rfl
  obtain ⟨body', c', hbody', hsha', hitem'⟩ := hh.stored h hnp rfl hsince hc hn hdone
  rw [hbody] at hbody'
  cases hbody'
  rw [← hname] at hn hitem'
  obtain ⟨d, c'', hd, hshelf, hsame⟩ := b.run.get_saved ho.toShelved hget hn.ordinary hsaved
  have hc'' : c'' = c' := by
    have hfile := hshelf.symm.trans hitem'
    cases hfile
    rfl
  refine ⟨d, hd, ?_⟩
  rw [hsame, hc'', hsha']

/-! ### An upload, and a server that is started again -/

/-- A Python client uploads a file to a server that has none. -/
def uploadEra : Era Unit where
  os := Os.empty
  clients := fun _ => ⟨.python, .put (ascii "a") none, lone (ascii "a") [1, 2, 3]⟩
  network := (Network.start Os.empty fun _ => ⟨.python, .put (ascii "a") none, lone (ascii "a") [1, 2, 3]⟩).play
    (Network.turns () 33)
  run := Network.play_run _ _

/-- Then the server is started again, and has another client. -/
def nextEra (c : Client) (k : Nat) : Era Unit where
  os := uploadEra.network.server.world.os
  clients := fun _ => c
  network := (Network.start uploadEra.network.server.world.os fun _ => c).play (Network.turns () k)
  run := Network.play_run _ _

theorem uploadEra_done : (uploadEra.network.parties ()).status = some 0 := by decide +kernel

/-- A sweep that finds nothing. -/
theorem sweep_nothing (h : ((os.run (.listdir [Os.DOT])).1.toOption.getD []).filter
      (fun n => Glob.fnmatch n (ascii ".*.part")) = []) :
    Proc.Runs Net.wire.env (sweepPartials (10 : Int) 5 fun _ => .ok 0) (startup os) (.ok 0) (startup os) := by
  have hsame : (os.run (.listdir [Os.DOT])).2 = os := by
    simp only [Os.run, Os.locate_dot, Os.isDir_cwd, if_true]
  have hlook : Net.wire.env.gives (startup os) (.fs (.listdir [Os.DOT])) (os.run (.listdir [Os.DOT])).1
      (startup os) := ⟨rfl, congrArg startup hsame.symm⟩
  rw [sweepPartials_eq]
  refine .call hlook ?_
  show Proc.Runs _ (sweepLoop _ _ _ 0 (((os.run (.listdir [Os.DOT])).1.toOption.getD []).filter _)) _ _ _
  rw [h]
  exact .done 0 _

theorem nextEra_history (c : Client) (k : Nat) :
    Eras Os.empty [nextEra c k, uploadEra] (nextEra c k).network.server.world.os := by
  have hfirst := @sweep_nothing Os.empty (by decide +kernel)
  have hsecond := @sweep_nothing uploadEra.network.server.world.os (by decide +kernel)
  exact .served (.served .nil hfirst rfl (Os.Survives.refl _)) hsecond rfl (Os.Survives.refl _)

theorem uploadEra_noPartialNames : NoPartialNames uploadEra.log := noPartialNames_of_short (by decide +kernel)

theorem lasting_a : Lasting (ascii "a") := ⟨Network.ordinary_a.plain, by decide +kernel⟩

/-- A C client downloads the file. -/
def downloadEra : Era Unit := nextEra ⟨.c, .get (ascii "a") none, Os.empty⟩ 27

/-- It gets the file of the Python client, from the server that was started again. -/
theorem upload_outlives_downloadEra :
    ∃ d, (downloadEra.network.parties ()).machine.os.content (ascii "a") = some d ∧
      sha256 d = sha256 [1, 2, 3] := by
  have hlog : NoPartialNames downloadEra.log := noPartialNames_of_short (by decide +kernel)
  have hfile : (uploadEra.clients ()).os.content (ascii "a") = some [1, 2, 3] := by decide +kernel
  have hname : storedName ((uploadEra.clients ()).remote (ascii "a") none) = ascii "a" := Network.storedName_a
  have heras : [downloadEra, uploadEra] = [downloadEra] ++ uploadEra :: [] := rfl
  obtain ⟨body, -, hbody, -, -, hall⟩ := upload_outlives orderly_empty (nextEra_history _ _)
    (List.forall_mem_cons.mpr ⟨hlog, List.forall_mem_singleton.mpr uploadEra_noPartialNames⟩) heras rfl
    (hname ▸ lasting_a) uploadEra_done
  rw [hfile] at hbody
  cases hbody
  exact hall _ (List.mem_append_left _ (List.mem_singleton_self _)) () (ascii "a") none rfl
    (Network.storedName_a.trans hname.symm) (by decide +kernel)

/-! ### Names that have been given -/

/-- The names of the uploads that have ended with 0 are taken. -/
structure Given (os : Os) (eras : List (Era T)) : Prop where
  named : os.SlashFree
  given : ∀ a ∈ eras, ∀ t path other, (a.clients t).command = .put path other →
    Lasting (storedName ((a.clients t).remote path other)) → (a.network.parties t).status = some 0 →
    os.entry (storedName ((a.clients t).remote path other)) ≠ none

/-- A directory on which names that last are as before. -/
theorem Given.mono (h : Given os eras) (hnamed : os'.SlashFree)
    (hkept : ∀ n, Lasting n → os.entry n ≠ none → os'.entry n ≠ none) : Given os' eras :=
  ⟨hnamed, fun a ha t path other hc hn hdone => hkept _ hn (h.given a ha t path other hc hn hdone)⟩

theorem Given.thinned (h : Given os eras) (hthin : os.Thinned os') : Given os' eras :=
  h.mono (hthin.named h.named) fun n hn hbound => by rwa [hthin.entry_lasting hn]

theorem Given.survives (h : Given os eras) (hs : os.Survives os') : Given os' eras := by
  refine h.mono (fun n hn => ?_) fun n _ hbound => ?_
  · rw [hs.entry] at hn
    exact h.named n hn
  · rwa [hs.entry]

/-- An era gives its names, and takes none. -/
theorem Given.era (h : Given a.os eras) : Given a.network.server.world.os (a :: eras) := by
  refine ⟨a.run.server.named h.named, fun b hb t path other hc hn hdone => ?_⟩
  rcases List.mem_cons.mp hb with rfl | hb
  · obtain ⟨-, f, u, -, hu, hpath, -, e, he, hof, hsend⟩ := b.run.put_confirmed hc hdone
    rw [← hpath] at hn ⊢
    exact b.run.server.confirmed_keeps he ⟨(0, f), hof.2, hu⟩ hsend hn.ordinary.notPartial
  · exact a.run.server.entry_kept hn.ordinary.notPartial (h.given b hb t path other hc hn hdone)

/-- **No life of the server gives a name back.** -/
theorem Eras.given (h : os.SlashFree) (hh : Eras os eras os') : Given os' eras := by
  induction hh with
  | nil => exact ⟨h, fun a ha => absurd ha List.not_mem_nil⟩
  | swept _ hreach hs ih =>
    exact (ih.thinned (sweep_thins (m := startup _) ih.named hreach)).survives hs
  | served _ hruns hos hs ih =>
    have hbegun := ih.thinned (sweep_thins (m := startup _) ih.named hruns.reaches)
    rw [hos] at hbegun
    exact hbegun.era.survives hs

/-- So it is when an era begins. -/
theorem Eras.given_before (h : os.SlashFree) (hh : Eras os eras os') (heras : eras = newer ++ b :: older) :
    Given b.os older := by
  induction hh generalizing newer with
  | nil => exact absurd heras.symm (List.append_ne_nil_of_right_ne_nil _ (List.cons_ne_nil _ _))
  | swept _ _ _ ih => exact ih heras
  | served hh hruns hos _ ih =>
    cases newer with
    | nil =>
      obtain ⟨rfl, rfl⟩ := List.cons.inj heras
      have hbefore := hh.given h
      rw [← hos]
      exact hbefore.thinned (sweep_thins (m := startup _) hbefore.named hruns.reaches)
    | cons c newer =>
      obtain ⟨rfl, rfl⟩ := List.cons.inj heras
      exact ih rfl

/-- **A name is given once.** Under a name under which an upload has ended with 0 no upload of a later era ends
with 0. -/
theorem upload_exclusive_ever (h : os.SlashFree) (hh : Eras os eras os') (heras : eras = newer ++ b :: older)
    (ha : a ∈ older) (hc : (a.clients t).command = .put path other)
    (hc' : (b.clients t').command = .put path' other')
    (hsame : storedName ((a.clients t).remote path other) = storedName ((b.clients t').remote path' other'))
    (hn : Lasting (storedName ((a.clients t).remote path other)))
    (hdone : (a.network.parties t).status = some 0) : (b.network.parties t').status ≠ some 0 := by
  intro hdone'
  have hbound := (hh.given_before h heras).given a ha t path other hc hn hdone
  obtain ⟨-, f, u, -, hu, hpath, -, e, he, hof, hsend⟩ := b.run.put_confirmed hc' hdone'
  rw [hsame, ← hpath] at hn hbound
  -- its name was free at some time in the later era, but it was not free when that began
  obtain ⟨-, later, e', past, hlog, -, hfree, -⟩ :=
    b.run.server.confirmed_binds he ⟨(0, f), hof.2, hu⟩ hsend
  have hkept := b.run.server.entry_keeps hn.ordinary.notPartial (later ++ [e']) past []
    (by rw [hlog]; simp) hbound
  rw [List.append_nil] at hkept
  exact hkept hfree

/-- A C client uploads another file under the name. -/
def rivalEra : Era Unit := nextEra ⟨.c, .put (ascii "b") (some (ascii "a")), lone (ascii "b") [4]⟩ 16

/-- It is too late, also on a server that was started again. -/
theorem upload_exclusive_ever_rivalEra :
    (rivalEra.network.parties ()).status = some 1 ∧ (rivalEra.network.parties ()).status ≠ some 0 := by
  have hname : storedName ((uploadEra.clients ()).remote (ascii "a") none) = ascii "a" := Network.storedName_a
  refine ⟨by decide +kernel, ?_⟩
  have heras : [rivalEra, uploadEra] = [] ++ rivalEra :: [uploadEra] := rfl
  exact upload_exclusive_ever orderly_empty.named (nextEra_history _ _) heras
    (List.mem_singleton_self _) rfl rfl (by decide +kernel) (hname ▸ lasting_a) uploadEra_done

end Histories

end Retriever
