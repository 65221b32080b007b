/-
# Retriever.Server.Publication — what is published has been verified

Between the check of the hash and `os.link` a session gives up the processor several times. The
invariant of `Retriever.Server.Invariant` says that nobody else touches the file in between, so the
file that becomes visible under the name is the one that was hashed. The log shows that the final
OK of an upload comes after the link of the same upload.
-/
import Retriever.Server.Invariant

namespace Retriever

variable {T : Type}

/-! ## The log of an upload -/

/-- The event is a link that publishes what the request announced. -/
def Event.LinkSound (e : Event T) : Prop :=
  ∀ p n, e.Links p n → ∃ u, e.Uploads u ∧ p = u.partialPath ∧ n = u.path ∧
    ∃ c, e.os.content n = some c ∧ sha256 c = u.digest

/-- Request `r` of session `t` has linked its file. -/
def HasLinked (log : List (Event T)) (t : T) (r : Request) (u : PutRequest) : Prop :=
  ∃ e ∈ log, e.Of t r ∧ e.Links u.partialPath u.path

/-- An event with its past: the final OK of an upload follows the link of that upload. -/
def ConfirmSound (e : Event T) (past : List (Event T)) : Prop :=
  ∀ r, e.request = some r → r.2.type = T_PUT → e.Sends okFrame →
    ∃ u, uploadOf r = some u ∧ HasLinked past e.sid r u

/-- Uploads are confirmed after their links. -/
structure ConfirmInv (w : World T) (phs : T → Local) : Prop where
  linked : ∀ t r u, (phs t = .put r u .linked ∨ phs t = .put r u .published) →
    HasLinked w.log t r u
  confirmed : ∀ later e past, w.log = later ++ e :: past → ConfirmSound e past

structure PublicationInv (w : World T) (phs : T → Local) : Prop extends ConfirmInv w phs where
  sound : ∀ e ∈ w.log, e.LinkSound

theorem HasLinked.mono {log : List (Event T)} {t : T} {r : Request} {u : PutRequest}
    (h : HasLinked log t r u) (e : Event T) : HasLinked (e :: log) t r u := by
  obtain ⟨e', he', h'⟩ := h
  exact ⟨e', List.mem_cons_of_mem _ he', h'⟩

/-- Only an upload that has verified its file links it. -/
theorem Local.Move.of_links {t : T} {q : Option Request} {o : Sys} {a : o.Ans} {os : Os}
    {l l' : Local} {p n : Bytes} (hm : l.Move o a l') (h : (⟨t, q, o, a, os⟩ : Event T).Links p n) :
    ∃ r u, l = .put r u .verified ∧ l' = .put r u .linked ∧ p = u.partialPath ∧ n = u.path := by
  rcases hm.split with ⟨hq, -⟩ | ⟨r, u, ph, ph', rfl, hm, hl'⟩
  · cases hq with
    | recv | send => exact h.elim
    | fs hl => cases hl <;> exact h.elim
  · cases hm with
    | link =>
      rcases hl' with rfl | ⟨hend, -⟩
      · exact ⟨r, u, rfl, rfl, h.1.symm, h.2.symm⟩
      · cases hend
    | abort ht hf =>
      cases hf with
      | fs hr => cases hr <;> exact h.elim
      | _ => exact h.elim
    | _ => exact h.elim

/-- Only an upload that has been published sends the final OK. -/
theorem Local.Move.of_confirm {o : Sys} {a : o.Ans} {l l' : Local} (hm : l.Move o a l')
    (ho : o = .send okFrame) (hput : IsPut l.request) : ∃ r u, l = .put r u .published := by
  rcases hm.split with ⟨hq, -⟩ | ⟨r, u, ph, ph', rfl, hm, -⟩
  · subst ho
    cases hq with
    | send hb =>
      obtain ⟨reason, -, herr⟩ := hb hput
      exact absurd rfl herr.ne_okFrame
  · cases hm with
    | confirm a => exact ⟨r, u, rfl⟩
    | turnAway a hb | tellBusy a hb | reject a hb =>
      exact absurd (Sys.send.inj ho) hb.ne_okFrame
    | offer x => exact absurd (Sys.send.inj ho) (offerFrame_ne_okFrame x)
    | abort ht hf =>
      cases hf with
      | offer x e => exact absurd (Sys.send.inj ho) (offerFrame_ne_okFrame x)
      | _ => cases ho
    | _ => cases ho

/-! ## Preservation -/

section

variable {kin : Bytes → Bytes → Prop} {watch : Bytes → Prop}

theorem Event.linkSound_of_move {w w' : World T} {phs : T → Local} {t : T} {s : Session} {o : Sys}
    {a : o.Ans} {l : Local} (hi : KinInv kin watch w phs) (hrel : Local.Rel s (phs t))
    (hx : w.Answers o a w'.os w'.inFlight) (hm : (phs t).Move o a l) :
    (⟨t, s.request, o, a, w'.os⟩ : Event T).LinkSound := by
  intro p n hlinks
  obtain ⟨r, u, hl, rfl, rfl, rfl⟩ := hm.of_links hlinks
  have hok := hi.ok t
  have hreq := hrel.request
  rw [hl] at hok hm hreq
  obtain ⟨hu, hplain, i, hent, hsha⟩ := hok
  refine ⟨u, ⟨r, hreq, hu.uploadOf⟩, rfl, rfl, w.os.store.data i, ?_, hsha⟩
  cases hm with
  | upload hm =>
    cases hm with
    | link =>
      obtain ⟨-, -, hos⟩ := Os.run_link_ok hu.partial_plain (hplain rfl) hx.1
      have hent' : w'.os.entry u.path = some (.file i) := by
        rw [hx.2.1, hos, Os.linkAt_entry hent, if_pos rfl]
      rw [Os.content_of_entry (hplain rfl) hent', hx.2.1, hos, Os.linkAt_data]

variable [DecidableEq T]

theorem Local.Rel.ofFrame {s : Session} {r : Request} {u : PutRequest} {ph : Phase}
    (h : Local.Rel s (.put r u ph)) : u.OfFrame r.2 := by
  cases h with
  | uploading hu _ => exact hu

/-- The order of link and OK is that of the handler, whatever the directory is like. -/
theorem ConfirmInv.step {w w' : World T} {phs : T → Local} {t : T} {s : Session} {o : Sys}
    {a : o.Ans} {l : Local} (hc : ConfirmInv w phs) (hrel : Local.Rel s (phs t))
    (hx : World.Exec t s w o a w') (hm : (phs t).Move o a l) :
    ConfirmInv w' (Function.update phs t l) := by
  have hlog := hx.2
  refine ⟨?_, ?_⟩
  · intro t' r u ht'
    rw [hlog]
    by_cases h : t' = t
    · subst h
      rw [Function.update_self] at ht'
      have hreq := hrel.request
      generalize hl : phs t' = l₀ at hm hreq
      rcases ht' with rfl | rfl
      · cases hm with
        | upload hm =>
          cases hm with
          | link => exact ⟨_, List.mem_cons_self, ⟨rfl, hreq⟩, rfl, rfl⟩
      · cases hm with
        | upload hm =>
          cases hm with
          | unlink => exact (hc.linked t' r u (.inl hl)).mono _
    · rw [Function.update_of_ne h] at ht'
      exact (hc.linked t' r u ht').mono _
  · rw [hlog]
    intro later e past hsplit
    cases later with
    | cons e' later =>
      injection hsplit with _ hsplit
      exact hc.confirmed later e past hsplit
    | nil =>
      injection hsplit with he hpast
      subst he hpast
      intro r hreq htype hsend
      have hreq' := hrel.request.symm.trans hreq
      obtain ⟨r', u, hl⟩ := hm.of_confirm hsend ⟨r.1, r.2, hreq', htype⟩
      rw [hl] at hreq' hrel
      cases hreq'
      exact ⟨u, hrel.ofFrame.uploadOf, hc.linked t r u (.inr hl)⟩

theorem PublicationInv.step {w w' : World T} {phs : T → Local} {t : T} {s : Session} {o : Sys}
    {a : o.Ans} {l : Local} (hi : KinInv kin watch w phs) (hp : PublicationInv w phs)
    (hrel : Local.Rel s (phs t)) (hx : World.Exec t s w o a w') (hm : (phs t).Move o a l) :
    PublicationInv w' (Function.update phs t l) := by
  refine ⟨hp.toConfirmInv.step hrel hx hm, ?_⟩
  rw [hx.2]
  intro e he
  rcases List.mem_cons.mp he with rfl | he
  · exact Event.linkSound_of_move hi hrel hx.1 hm
  · exact hp.sound e he

end

/-! ## Whole runs -/

/-- No two partial names of a directory are names of one file. -/
def PartialsApart (os : Os) : Prop :=
  ∀ k k' i, IsPartialName k → IsPartialName k' → os.entry k = some (.file i) →
    os.entry k' = some (.file i) → k = k'

/-- `k` is a partial of `n`, which is a name that an upload may have. -/
def PartialOf (k n : Bytes) : Prop :=
  ∃ t d, checkFilename t = true ∧ d.length = HASH_SIZE ∧ n = encode t ∧ k = partialName n d

/-- Two partial names are names of one file only when one of them is a partial of the other, as they
are when the server stops between the link and the removal of an upload under a partial name. -/
def PartialsPaired (os : Os) : Prop :=
  ∀ k k' i, IsPartialName k → IsPartialName k' → os.entry k = some (.file i) →
    os.entry k' = some (.file i) → k = k' ∨ PartialOf k k' ∨ PartialOf k' k

theorem PartialsApart.paired {os : Os} (h : PartialsApart os) : PartialsPaired os :=
  fun k k' i hk hk' he he' => .inl (h k k' i hk hk' he he')

/-- A partial of a partial begins with two dots, so it has no partials. -/
theorem PartialOf.kinship : Kinship IsPartialName PartialOf where
  partialOf := by
    rintro k n ⟨t, d, ht, hd, rfl, rfl⟩
    exact ⟨(accepted_of_checkFilename ht).encode_no_slash, d, hd, rfl⟩
  ends := by
    rintro t d k ht hp ⟨t', d', ht', -, hname, -⟩
    have hslash := (accepted_of_checkFilename ht).encode_no_slash
    obtain ⟨b, d₀, hb⟩ := hp.base hslash
    rw [partialName_plain hslash, hb] at hname
    exact (accepted_of_checkFilename ht').encode_ne_dots _ hname.symm

/-- What a step of an upload keeps about any two partial names of one file: it has to hold of the two
names that a link gives a file. -/
theorem Change.relates {R : Bytes → Bytes → Prop} {u : PutRequest} {os os' : Os} {ph ph' : Phase}
    (hc : Change u os ph ph' os') (hrefl : ∀ k, R k k)
    (hlink : IsPartialName u.path → os.entry u.path = none → ∀ k i, IsPartialName k →
      os.entry k = some (.file i) → os.entry u.partialPath = some (.file i) → R u.path k ∧ R k u.path)
    (h : ∀ k k' i, IsPartialName k → IsPartialName k' → os.entry k = some (.file i) →
      os.entry k' = some (.file i) → R k k') :
    ∀ k k' i, IsPartialName k → IsPartialName k' → os'.entry k = some (.file i) →
      os'.entry k' = some (.file i) → R k k' := by
  intro k k' i hk hk' he he'
  cases hc with
  | same ph ph' _ => exact h k k' i hk hk' he he'
  | create r hent =>
    rw [Os.createAt_entry] at he he'
    split at he
    · next hkp =>
      split at he'
      · next hkp' =>
        rw [hkp, hkp']
        exact hrefl _
      · cases he
        exact absurd (Os.entry_lt_next he') (Nat.lt_irrefl _)
    · split at he'
      · cases he'
        exact absurd (Os.entry_lt_next he) (Nat.lt_irrefl _)
      · exact h k k' i hk hk' he he'
  | append hlt hent => exact h k k' i hk hk' he he'
  | unlink hent hh =>
    rw [Os.removeAt_entry] at he he'
    split at he
    · cases he
    · split at he'
      · cases he'
      · exact h k k' i hk hk' he he'
  | link hent hs hnone =>
    rw [Os.linkAt_entry hent] at he he'
    split at he
    · next hkn =>
      subst hkn
      cases he
      split at he'
      · next hkn' =>
        rw [hkn']
        exact hrefl _
      · exact (hlink hk hnone k' _ hk' he' hent).1
    · split at he'
      · next hkn' =>
        subst hkn'
        cases he'
        exact (hlink hk' hnone k _ hk he hent).2
      · exact h k k' i hk hk' he he'

/-- The partial that is linked to a partial name is a partial of it, and the only partial name that the
file had. -/
theorem Change.paired {u : PutRequest} {f : Frame} {os os' : Os} {ph ph' : Phase} (hu : u.OfFrame f)
    (hc : Change u os ph ph' os') (h : PartialsPaired os) : PartialsPaired os' := by
  refine hc.relates (fun _ => .inl rfl) ?_ h
  intro hp hfree k i hk he hent
  have hown : PartialOf u.partialPath u.path :=
    ⟨u.name, u.digest, hu.name, parsePut_digest_length hu.parsed, rfl, rfl⟩
  rcases h k _ i hk hu.isPartialName he hent with rfl | hkin | ⟨t, d, ht, hd, rfl, heq⟩
  · exact ⟨.inr (.inr hown), .inr (.inl hown)⟩
  · exact absurd hkin (PartialOf.kinship.ends hu.name hp)
  · -- the partial is one of the new name only, which was free
    obtain ⟨hname, -⟩ := partialName_inj hu.accepted.encode_no_slash
      (accepted_of_checkFilename ht).encode_no_slash (parsePut_digest_length hu.parsed) hd heq
    exact absurd hfree (by rw [PutRequest.path, hname, he]; simp)

theorem KinInv.start {kin : Bytes → Bytes → Prop} {watch : Bytes → Prop} {os : Os}
    (h : ∀ k k' i, watch k → watch k' → os.entry k = some (.file i) →
      os.entry k' = some (.file i) → k = k' ∨ kin k k' ∨ kin k' k) :
    KinInv kin watch (Server.start T os).world fun _ => Local.plain 0 none where
  leases := Leases.empty
  ok := fun _ => trivial
  apart := by
    intro k k' i hk hk' he he' hne
    have hunused : ∀ x, Unused (fun _ : T => Local.plain 0 none) x := fun x t r u ph hl _ => by cases hl
    exact ((h k k' i hk hk' he he').resolve_left hne).imp (fun hkin => .inr ⟨hkin, hunused k⟩)
      fun hkin => .inr ⟨hkin, hunused k'⟩

theorem Inv.start {watch : Bytes → Prop} {os : Os}
    (h : ∀ k k' i, watch k → watch k' → os.entry k = some (.file i) →
      os.entry k' = some (.file i) → k = k') :
    Inv watch (Server.start T os).world fun _ => Local.plain 0 none :=
  KinInv.start fun k k' i hk hk' he he' => .inl (h k k' i hk hk' he he')

theorem Local.shows_start (os : Os) :
    Pool.Shows Local.Rel (Server.start T os) fun _ => Local.plain 0 none :=
  fun _ => .greeting Quietly.greet

theorem ConfirmInv.start (os : Os) :
    ConfirmInv (Server.start T os).world fun _ => Local.plain 0 none := by
  refine ⟨?_, ?_⟩
  · rintro t r u (h | h) <;> cases h
  · rintro later e past h
    simp [Server.start] at h

theorem PublicationInv.start (os : Os) :
    PublicationInv (Server.start T os).world fun _ => Local.plain 0 none :=
  ⟨.start os, by simp [Server.start]⟩

/-- The invariant holds in every state a server reaches. -/
theorem Server.Run.inv [DecidableEq T] {watch : Bytes → Prop} (hw : ∀ p, IsPartialName p → watch p)
    {os : Os} (h : ∀ k k' i, watch k → watch k' → os.entry k = some (.file i) →
      os.entry k' = some (.file i) → k = k')
    {s : Server T} (hr : Server.Run (Server.start T os) s) : Pool.Keeps Local.Rel (Inv watch) s :=
  Pool.inv_run Local.tracks (Inv.step hw) hr ⟨_, Local.shows_start os, Inv.start h⟩

theorem Server.Run.confirmInv [DecidableEq T] {os : Os} {s : Server T}
    (hr : Server.Run (Server.start T os) s) : Pool.Keeps Local.Rel ConfirmInv s := by
  refine Pool.inv_run Local.tracks ?_ hr ⟨_, Local.shows_start os, ConfirmInv.start os⟩
  intro w phs t l o a w' ph' hc hrel hx hm
  exact hc.step hrel hx hm

/-- **The final OK of an upload comes after its link**, on every directory. -/
theorem Server.Run.confirmSound [DecidableEq T] {os : Os} {s : Server T}
    (hr : Server.Run (Server.start T os) s) {later past : List (Event T)} {e : Event T}
    (hlog : s.world.log = later ++ e :: past) : ConfirmSound e past := by
  obtain ⟨phs, -, hc⟩ := hr.confirmInv
  exact hc.confirmed later e past hlog

theorem Server.Run.publicationInv [DecidableEq T] {os : Os} (h0 : PartialsPaired os) {s : Server T}
    (hr : Server.Run (Server.start T os) s) :
    Pool.Keeps Local.Rel (fun w phs => KinInv PartialOf IsPartialName w phs ∧ PublicationInv w phs)
      s := by
  refine Pool.inv_run Local.tracks ?_ hr
    ⟨_, Local.shows_start os, KinInv.start h0, PublicationInv.start os⟩
  rintro w phs t l o a w' ph' ⟨hi, hp⟩ hrel hx hm
  exact ⟨KinInv.step (fun _ h => h) PartialOf.kinship w phs t l o a w' ph' hi hrel hx hm,
    hp.step hi hrel hx hm⟩

/-- **Publication integrity.** In every run of any number of sessions with arbitrary clients: a
link that succeeds is one of an upload, makes its partial visible under its name, and what becomes
visible has the hash the request stated; and the final OK of an upload is sent only after that same
upload's link. The server may start on any directory in which two partial names are names of one file
only when one is a partial of the other, such as another server may have left. -/
theorem put_publication_integrity [DecidableEq T] {os : Os} (h0 : PartialsPaired os) {s : Server T}
    (hr : Server.Run (Server.start T os) s) :
    (∀ e ∈ s.world.log, ∀ p n, e.Links p n → ∃ u, e.Uploads u ∧ p = u.partialPath ∧ n = u.path ∧
      ∃ c, e.os.content n = some c ∧ sha256 c = u.digest) ∧
    ∀ later e past, s.world.log = later ++ e :: past →
      ∀ r, e.request = some r → r.2.type = T_PUT → e.Sends okFrame →
        ∃ u, uploadOf r = some u ∧
          ∃ e' ∈ past, e'.Of e.sid r ∧ e'.Links u.partialPath u.path := by
  obtain ⟨phs, -, -, hp⟩ := hr.publicationInv h0
  exact ⟨hp.sound, hp.confirmed⟩

/-- **Wherever a server is stopped, what it leaves is again a directory of this kind.** -/
theorem Server.Run.paired [DecidableEq T] {os : Os} (h0 : PartialsPaired os) {s : Server T}
    (hr : Server.Run (Server.start T os) s) : PartialsPaired s.world.os := by
  have hkeep : Pool.Keeps Local.Rel (fun w phs => KinInv PartialOf IsPartialName w phs ∧
      PartialsPaired w.os) s := by
    refine Pool.inv_run Local.tracks ?_ hr ⟨_, Local.shows_start os, KinInv.start h0, h0⟩
    rintro w phs t l o a w' l' ⟨hi, hp⟩ hrel hx hm
    refine ⟨KinInv.step (fun _ h => h) PartialOf.kinship w phs t l o a w' l' hi hrel hx hm, ?_⟩
    rcases hm.effect hx.1 with ⟨hos, -⟩ | ⟨r, u, ph, ph', hl, hmove, -⟩
    · rw [hos]
      exact hp
    · have hok := hi.ok t
      rw [hl] at hok
      exact (hmove.change hok hx.1).paired hok.1 hp
  obtain ⟨-, -, -, hp⟩ := hkeep
  exact hp

theorem partialsApart_empty : PartialsApart Os.empty := by
  intro k k' i _ _ he _
  simp [Os.entry, Os.empty, Store.lookup] at he

/-- Two clients upload a file each. -/
def twoInputs : Bool → Bytes
  | true => clientBytes T_PUT (putPayload 3 (sha256 [1, 2, 3]) (ascii "a")) [1, 2, 3]
  | false => clientBytes T_PUT (putPayload 2 (sha256 [4, 5]) (ascii "b")) [4, 5]

/-- A schedule on which two sessions take turns. -/
def alternately (k : Nat) : List Bool := (List.replicate k [true, false]).flatten

/-- A server on an empty directory after two clients have uploaded `a` and `b` at the same time. -/
def twoUploads : Server Bool :=
  ((Server.start Bool Os.empty).play twoInputs (alternately 24)).1

theorem twoUploads_run : Server.Run (Server.start Bool Os.empty) twoUploads := by
  rw [twoUploads]
  exact Server.play_run _ _ _

/-- What is read off that run. Each of the two requests has one name. -/
theorem twoUploads_done :
    twoUploads.world.os.content (ascii "a") = some [1, 2, 3] ∧
    twoUploads.world.os.content (ascii "b") = some [4, 5] ∧
    twoUploads.world.os.entries twoUploads.world.os.cwd = [ascii "b", ascii "a"] ∧
    (twoUploads.world.log.any fun e => decide (e.op = .send okFrame)) = true ∧
    (twoUploads.world.log.all fun e =>
      (e.request.bind uploadOf).all fun u => decide (u.path.length = 1)) = true := by
  decide +kernel

theorem twoUploads_confirmed : ∃ e ∈ twoUploads.world.log, e.Sends okFrame := by
  obtain ⟨-, -, -, hsent, -⟩ := twoUploads_done
  obtain ⟨e, he, hsend⟩ := List.any_eq_true.mp hsent
  exact ⟨e, he, (decide_eq_true_iff (p := e.op = .send okFrame)).mp hsend⟩

/-- Both files are published and a final OK is sent. -/
theorem put_publication_integrity_twoUploads :
    twoUploads.world.os.content (ascii "a") = some [1, 2, 3] ∧
    twoUploads.world.os.content (ascii "b") = some [4, 5] ∧
    (∃ e ∈ twoUploads.world.log, e.Sends okFrame) ∧
    (∀ e ∈ twoUploads.world.log, ∀ p n, e.Links p n → ∃ u, e.Uploads u ∧ p = u.partialPath ∧
      n = u.path ∧ ∃ c, e.os.content n = some c ∧ sha256 c = u.digest) := by
  obtain ⟨ha, hb, -⟩ := twoUploads_done
  exact ⟨ha, hb, twoUploads_confirmed,
    (put_publication_integrity partialsApart_empty.paired twoUploads_run).1⟩

/-! ## Two partials that are one file -/

/-- The partials of two uploads, of `a` with the body `[1]` and of `b` with `[1, 9]`. -/
def twinPartial : Bool → Bytes
  | true => partialName (ascii "a") (sha256 [1])
  | false => partialName (ascii "b") (sha256 [1, 9])

/-- A directory in which the two are hard links of one file, though neither is a partial of the other.
It holds the byte that both uploads begin with. -/
def twinPartials : Os :=
  let made := (Os.empty.run (.openAb (twinPartial true))).2
  let written := (made.run (.write 0 [1])).2
  (written.run (.link (twinPartial true) (twinPartial false))).2

/-- Both uploads are resumed: the first needs nothing more, the second one more byte. -/
def twinInputs : Bool → Bytes
  | true => clientBytes T_PUT (putPayload 1 (sha256 [1]) (ascii "a")) []
  | false => clientBytes T_PUT (putPayload 2 (sha256 [1, 9]) (ascii "b")) [9]

/-- The first upload is verified, the byte of the second is stored, the first is published. -/
def twinUploads : Server Bool :=
  ((Server.start Bool twinPartials).play twinInputs
    (List.replicate 13 true ++ List.replicate 12 false ++ List.replicate 3 true)).1

theorem twinUploads_run : Server.Run (Server.start Bool twinPartials) twinUploads := by
  rw [twinUploads]
  exact Server.play_run _ _ _

/-- **The reservation is one of a path, not of a file.** Where two partials are one file, each of two
sessions holds a reservation of its own, and what one has verified the other appends to before it is
published. -/
theorem twin_published_unverified :
    ¬ ∀ (os : Os) (s : Server Bool), Server.Run (Server.start Bool os) s →
      ∀ e ∈ s.world.log, ∀ p n, e.Links p n → ∃ u, e.Uploads u ∧ p = u.partialPath ∧ n = u.path ∧
        ∃ c, e.os.content n = some c ∧ sha256 c = u.digest := by
  intro h
  obtain ⟨e, he, hlinks, hcontent, hdigest⟩ : ∃ e ∈ twinUploads.world.log,
      e.Links (twinPartial true) (ascii "a") ∧ e.os.content (ascii "a") = some [1, 9] ∧
      (e.request.bind uploadOf).map PutRequest.digest = some (sha256 [1]) := by
    decide +kernel
  obtain ⟨u, ⟨r, hreq, hu⟩, -, -, c, hc, hsha⟩ :=
    h twinPartials twinUploads twinUploads_run e he _ _ hlinks
  rw [hcontent] at hc
  cases hc
  rw [hreq, Option.bind_some, hu] at hdigest
  have hsame : sha256 [1, 9] = sha256 [1] := hsha.trans (Option.some.inj hdigest)
  exact absurd hsame (by decide +kernel)

end Retriever
