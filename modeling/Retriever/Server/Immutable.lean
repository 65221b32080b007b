/-
# Retriever.Server.Immutable — when a published file stays as it is

`check_filename` accepts names that have the form of a partial name, and partials live in the same
directory as published files. A published file with such a name is at the mercy of the upload whose
partial path it is: the server will append to it or remove it (`published_not_immutable`). As long
as no such upload holds its reservation, the published name keeps its file and the file its bytes
(`published_immutable`).
-/
import Retriever.Server.Publication

namespace Retriever

variable {T : Type}

/-- Name `N` is bound to file `i` with content `c`, and every partial name that is still bound to
the same file is about to be removed. -/
structure Pinned (N : Bytes) (i : Nat) (c : Bytes) (os : Os) (phs : T → Local) : Prop where
  entry : os.entry N = some (.file i)
  data : os.store.data i = c
  retiring : ∀ k, IsPartialName k → k ≠ N → os.entry k = some (.file i) → Retiring phs k

section

variable [DecidableEq T] {w w' : World T} {phs : T → Local} {t : T} {N c : Bytes} {i : Nat}

/-- The step that links a name pins it. -/
theorem Pinned.of_link (hi : Inv IsPartialName w phs) {r : Request} {u : PutRequest}
    (ht : phs t = .put r u .verified) (hx : w.Answers (.fs (.link u.partialPath u.path)) (.ok ())
      w'.os w'.inFlight) :
    ∃ i c, Pinned u.path i c w'.os (Function.update phs t (.put r u .linked)) := by
  have hok := hi.ok t
  rw [ht] at hok
  obtain ⟨hu, hplain, i, hent, -⟩ := hok
  obtain ⟨-, -, hos⟩ := Os.run_link_ok hu.partial_plain (hplain rfl) hx.1
  rw [hx.2.1, hos]
  refine ⟨i, _, ⟨by rw [Os.linkAt_entry hent, if_pos rfl], rfl, ?_⟩⟩
  intro k hk hne hkent
  rw [Os.linkAt_entry hent, if_neg hne] at hkent
  rcases hi.other_name (fun _ h => h) ht rfl (by simp) hent hk hkent with rfl | hret
  · exact ⟨t, r, u, by rw [Function.update_self], rfl⟩
  · refine hret.update fun r' u' ht' => ?_
    rw [ht] at ht'
    cases ht'

/-- A step of an upload whose partial is not `N` leaves `N` pinned. -/
theorem Pinned.change (hi : Inv IsPartialName w phs) (hp : Pinned N i c w.os phs) {r : Request}
    {u : PutRequest} {ph ph' : Phase} {os' : Os} (ht : phs t = .put r u ph)
    (hc : Change u w.os ph ph' os') (hN : ph.holds = true → u.partialPath ≠ N) (l : Local) :
    Pinned N i c os' (Function.update phs t l) := by
  have hok := hi.ok t
  rw [ht] at hok
  have hpart := hok.1.isPartialName
  have hkeep : ph ≠ .linked → ∀ k, Retiring phs k → Retiring (Function.update phs t l) k := by
    intro hne k hret
    refine hret.update fun r' u' ht' => ?_
    rw [ht] at ht'
    cases ht'
    exact absurd rfl hne
  -- the file of `N` is not the one the session is working on
  have hother : ph.holds = true → ph ≠ .linked → w.os.entry u.partialPath ≠ some (.file i) := by
    intro hh hne he
    exact hi.not_retiring ht hh hne (hp.retiring _ hpart (hN hh) he)
  cases hc with
  | same ph ph' hne => exact ⟨hp.entry, hp.data, fun k hk h he => hkeep hne k (hp.retiring k hk h he)⟩
  | create r he =>
    refine ⟨?_, ?_, fun k hk h hke => ?_⟩
    · rw [Os.createAt_entry, if_neg (hN rfl).symm, hp.entry]
    · rw [Os.createAt_data, if_neg (Os.entry_lt_next hp.entry).ne, hp.data]
    · rw [Os.createAt_entry] at hke
      split at hke
      · cases hke
        exact absurd (Os.entry_lt_next hp.entry) (Nat.lt_irrefl _)
      · exact hkeep (by simp) k (hp.retiring k hk h hke)
  | @append r h w c' hlt hent =>
    refine ⟨hp.entry, ?_, fun k hk hne hke => hkeep (by simp) k (hp.retiring k hk hne hke)⟩
    rw [Os.appendTo_data, if_neg, hp.data]
    rintro rfl
    exact hother rfl (by simp) hent
  | @unlink ph ph' j hent hh =>
    refine ⟨?_, hp.data, fun k hk hne hke => ?_⟩
    · rw [Os.removeAt_entry, if_neg (hN hh).symm, hp.entry]
    · rw [Os.removeAt_entry] at hke
      split at hke
      · cases hke
      · next hkp =>
        refine (hp.retiring k hk hne hke).update fun r' u' ht' => ?_
        rw [ht] at ht'
        cases ht'
        exact fun h => hkp h.symm
  | @link j hent hs hnone =>
    have hNu : N ≠ u.path := by
      rintro rfl
      rw [hp.entry] at hnone
      cases hnone
    refine ⟨?_, ?_, fun k hk hne hke => ?_⟩
    · rw [Os.linkAt_entry hent, if_neg hNu, hp.entry]
    · rw [Os.linkAt_data, hp.data]
    · rw [Os.linkAt_entry hent] at hke
      split at hke
      · exact absurd (hent.trans hke) (hother rfl (by simp))
      · exact hkeep (by simp) k (hp.retiring k hk hne hke)

theorem Pinned.same (hp : Pinned N i c w.os phs) (hos : w'.os = w.os)
    (ht : ∀ r u, phs t ≠ .put r u .linked) (l : Local) :
    Pinned N i c w'.os (Function.update phs t l) := by
  rw [hos]
  exact ⟨hp.entry, hp.data, fun k hk hne hke =>
    (hp.retiring k hk hne hke).update fun r u h => absurd h (ht r u)⟩

/-- A name stays pinned through a step before which it is not reserved. -/
theorem Pinned.step {s : Session} {o : Sys} {a : o.Ans} {l : Local} (hi : Inv IsPartialName w phs)
    (hp : Pinned N i c w.os phs) (hN : N ∉ w.inFlight) (hx : World.Exec t s w o a w')
    (hm : (phs t).Move o a l) : Pinned N i c w'.os (Function.update phs t l) := by
  rcases hm.effect hx.1 with ⟨hos, -, -, ⟨b, q, hl⟩, -⟩ | ⟨r, u, ph, ph', hl, hm, -⟩
  · exact hp.same hos (by simp [hl]) l
  · have hok := hi.ok t
    rw [hl] at hok
    refine Pinned.change hi hp hl (hm.change hok hx.1) ?_ l
    rintro hh rfl
    exact hN (hi.leases.mem (Local.held_of_holds hl hh))

end

/-! ## Whole runs -/

/-- The step from `s₁` to `s₂` is a successful `os.link` that publishes a file under `N`. -/
def Publishes [DecidableEq T] (s₁ s₂ : Server T) (N : Bytes) : Prop :=
  Server.Step s₁ s₂ ∧ ∃ e p, s₂.world.log = e :: s₁.world.log ∧ e.Links p N

/-- **A published file does not change while its name is not reserved.** In every run of any number
of sessions: a name that a link has published keeps the published content in every later state, as
long as the name is not in `_in_flight` from the publication on, that is, as long as no upload whose
partial path it is holds its reservation. -/
theorem published_immutable [DecidableEq T] {os : Os} (h0 : PartialsApart os) {s₁ s₂ : Server T}
    {N : Bytes} (h₁ : Server.Run (Server.start T os) s₁) (h₂ : Publishes s₁ s₂ N) :
    ∃ c, s₂.world.os.content N = some c ∧
      ∀ s₃, Server.RunIn (fun w => N ∉ w.inFlight) s₂ s₃ → s₃.world.os.content N = some c := by
  obtain ⟨hstep, e, p, hlog, hlinks⟩ := h₂
  obtain ⟨phs, hshow, hi⟩ := h₁.inv (fun _ h => h) h0
  obtain ⟨t, o, a, l, hx, hmove, hshow'⟩ := Pool.step_moves Local.tracks hstep hshow
  -- the event in the log is the step that was just taken
  have he : (⟨t, (s₁.threads t).request, o, a, s₂.world.os⟩ : Event T) = e := by
    have := hx.2.symm.trans hlog
    injection this
  subst he
  obtain ⟨r, u, ht, rfl, rfl, rfl⟩ := hmove.of_links hlinks
  have hinv := Inv.step (fun _ h => h) _ _ t _ o a _ _ hi (hshow t) hx hmove
  have hplain : Plain u.path := by
    have hok := hi.ok t
    rw [ht] at hok
    exact hok.2.1 rfl
  have hpin : ∃ i c, Pinned u.path i c s₂.world.os
      (Function.update phs t (.put r u .linked)) := by
    rw [ht] at hmove
    cases hmove with
    | upload hm =>
      cases hm with
      | link => exact Pinned.of_link hi ht hx.1
  obtain ⟨i, c, hpin⟩ := hpin
  have hcontent : ∀ {os : Os} {phs : T → Local}, Pinned u.path i c os phs →
      os.content u.path = some c := fun hp => by
    rw [Os.content_of_entry hplain hp.entry, hp.data]
  refine ⟨c, hcontent hpin, fun s₃ h₃ => ?_⟩
  have hkeep : Pool.Keeps Local.Rel
      (fun w phs => Inv IsPartialName w phs ∧ Pinned u.path i c w.os phs) s₃ := by
    refine Pool.inv_runIn Local.tracks ?_ h₃ ⟨_, hshow', hinv, hpin⟩
    rintro w phs t l o a w' ph' ⟨hi, hp⟩ hN hrel hx hm
    exact ⟨Inv.step (fun _ h => h) w phs t l o a w' ph' hi hrel hx hm, hp.step hi hN hx hm⟩
  obtain ⟨phs', -, -, hp⟩ := hkeep
  exact hcontent hp

/-! ## A published file that goes away -/

theorem play_publishes [DecidableEq T] {s : Server T} {t : T} {p N : Bytes} (inputs : T → Bytes)
    (hop : (s.threads t).next.map Sigma.fst = some (.fs (.link p N)))
    (hok : (s.world.os.run (.link p N)).1 = .ok ()) : Publishes s (s.play inputs [t]).1 N := by
  obtain ⟨⟨o, k⟩, hn, rfl⟩ := Option.map_eq_some_iff.mp hop
  refine ⟨Server.play_step inputs (by rw [hn]; rfl), ?_⟩
  simp only [Server.play, hn, World.perform]
  refine ⟨_, p, rfl, ?_⟩
  rw [hok]
  exact ⟨rfl, rfl⟩

/-- `.a.0000000000000000.part`: the partial of `a` for a digest of zeros, and a legal file name. -/
def partialOfA : Bytes := partialName (ascii "a") (List.replicate 32 0)

/-- One client uploads a file of one byte under that name, the other then announces an empty file
`a` with a digest of zeros. -/
def clashInputs : Bool → Bytes
  | true => clientBytes T_PUT (putPayload 1 (sha256 [7]) partialOfA) [7]
  | false => clientBytes T_PUT (putPayload 0 (List.replicate 32 0) (ascii "a")) []

/-- The first client's upload is complete but for the link. -/
def beforeLink : Server Bool × (Bool → Bytes) :=
  (Server.start Bool Os.empty).play clashInputs (List.replicate 16 true)

def afterLink : Server Bool × (Bool → Bytes) := beforeLink.1.play beforeLink.2 [true]

/-- The first session has ended and the second has found the partial too long. -/
def afterClash : Server Bool × (Bool → Bytes) :=
  afterLink.1.play afterLink.2 (List.replicate 3 true ++ List.replicate 20 false)

theorem beforeLink_run : Server.Run (Server.start Bool Os.empty) beforeLink.1 := by
  rw [beforeLink]
  exact Server.play_run _ _ _

theorem afterLink_publishes : Publishes beforeLink.1 afterLink.1 partialOfA :=
  play_publishes (p := partialName partialOfA (sha256 [7])) beforeLink.2 (by decide +kernel)
    (by decide +kernel)

/-- What `published_immutable` says of that publication: nothing happens to the file until the
second client comes. -/
theorem published_immutable_afterLink :
    ∃ c, afterLink.1.world.os.content partialOfA = some c ∧
      ∀ s₃, Server.RunIn (fun w => partialOfA ∉ w.inFlight) afterLink.1 s₃ →
        s₃.world.os.content partialOfA = some c :=
  published_immutable partialsApart_empty beforeLink_run afterLink_publishes

/-- **Without the condition a published file can vanish.** The second client's upload has the
published name as its partial path and removes it. -/
theorem published_not_immutable :
    ¬ ∀ (os : Os) (s₁ s₂ s₃ : Server Bool) (N : Bytes), PartialsApart os →
      Server.Run (Server.start Bool os) s₁ → Publishes s₁ s₂ N → Server.Run s₂ s₃ →
        ∃ c, s₂.world.os.content N = some c ∧ s₃.world.os.content N = some c := by
  intro h
  obtain ⟨c, -, h₃⟩ := h Os.empty beforeLink.1 afterLink.1 afterClash.1 partialOfA
    partialsApart_empty beforeLink_run afterLink_publishes (Server.play_run _ _ _)
  have hgone : afterClash.1.world.os.content partialOfA = none := by decide +kernel
  rw [hgone] at h₃
  cases h₃

end Retriever
