/-
# Retriever.Server.Naming — a name that has been given stays given

What holds on every directory, also on one in which partials are hard links of one another and the
bytes of a published file are not safe. An upload that is confirmed has linked its partial, and so
has found its name free. The only names that sessions take away are partial names. So a name that is
not of that form is taken from the link on, and no second upload of it is confirmed.
-/
import Retriever.Server.Record

namespace Retriever

open Os (SLASH DOT)

variable {T : Type}

/-! ## What a step does to the names -/

/-- The names in the working directory have no slash, as on every file system. -/
def Os.SlashFree (os : Os) : Prop := ∀ n, os.entry n ≠ none → SLASH ∉ n

/-- The name `.` is always taken, so a link that succeeds has a plain name. -/
theorem PutRequest.OfFrame.plain_of_link_ok {os : Os} {p : Bytes} {u : PutRequest} {f : Frame}
    (h : u.OfFrame f) (hr : (os.run (.link p u.path)).1 = .ok ()) : Plain u.path := by
  rcases h.accepted.plain_or_dot with hp | hd
  · exact hp
  · rw [show u.path = [DOT] from hd] at hr
    simp only [Os.run, Os.locate_dot] at hr
    split at hr
    · next s d hs hcwd =>
      cases hcwd
      rw [show os.slot os.cwd = some .subdir from if_pos (List.prefix_refl _)] at hr
      split at hr
      · cases hr
      · next hnone => cases hnone
      · cases hr
    · cases hr

section Steps

variable {w : World T} {os' : Os} {fl : Finset Bytes} {r : Request} {u : PutRequest} {f : Frame}
  {ph ph' : Phase} {o : Sys} {a : o.Ans}

/-- **A step of an upload binds its partial, removes it, or binds its name where that is free.** -/
theorem Phase.Move.entry_cases (hu : u.OfFrame f) (hm : ph.Move u o a ph')
    (hx : w.Answers o a os' fl) (n : Bytes) :
    os'.entry n = w.os.entry n ∨ n = u.partialPath ∨
      n = u.path ∧ w.os.entry n = none ∧ Plain n := by
  have hp := hu.partial_plain
  have hsame : os' = w.os → os'.entry n = w.os.entry n := fun hos => by rw [hos]
  have hremove : ∀ {a}, w.Answers (.fs (.unlink u.partialPath)) a os' fl → a = .ok () →
      os'.entry n = w.os.entry n ∨ n = u.partialPath := by
    intro a hx ha
    subst ha
    rw [hx.2.1, (Os.run_unlink_ok hp hx.1).2, Os.removeAt_entry]
    split
    · next heq => exact .inr heq
    · exact .inl rfl
  cases hm with
  | taken st | free | absent | present st | fits hs | exceeds hs => exact .inl (hsame hx.2.1)
  | turnAway a hb | tellBusy a hb | reject a hb => exact .inl (hsame hx.2.1)
  | reserve | inFlight | offer r | confirm a | receive hw hn hc => exact .inl (hsame hx.2.1)
  | rehash i hw | reopen i => exact .inl (hsame (hx.2.1.trans (Os.run_looks (.openRb _))))
  | readMore hc | mismatch hn hd | matched hn hd | sniff c =>
    exact .inl (hsame (hx.2.1.trans (Os.run_looks (.read _ _ _))))
  | drop | dropCorrupt | unlink | dropLost => exact (hremove hx rfl).imp_right .inl
  | openPartial r h =>
    rcases Os.run_openAb_ok hp hx.1 with ⟨-, hos⟩ | ⟨-, -, hos⟩
    · exact .inl (hsame (hx.2.1.trans hos))
    · rw [hx.2.1, hos, Os.createAt_entry]
      split
      · next heq => exact .inr (.inl heq)
      · exact .inl rfl
  | store r h w' c =>
    obtain ⟨hlt, hos⟩ := Os.run_write_ok hx.1
    rw [hx.2.1, hos]
    exact .inl rfl
  | link =>
    have hn := hu.plain_of_link_ok hx.1
    obtain ⟨⟨i, hi⟩, hnone, hos⟩ := Os.run_link_ok hp hn hx.1
    rw [hx.2.1, hos, Os.linkAt_entry hi]
    split
    · next heq =>
      subst heq
      exact .inr (.inr ⟨rfl, hnone, hn⟩)
    · exact .inl rfl
  | linkTaken | linkFails he =>
    exact .inl (hsame (hx.2.1.trans (Os.run_refused (.link _ _ _) hx.1)))
  | stuck e => exact .inl (hsame (hx.2.1.trans (Os.run_refused (.unlink _ _) hx.1)))
  | abort ht hf => exact .inl (hsame (World.answers_failed hf hx).1)
  | release | giveUp hlen => exact .inl (hsame hx.1)

end Steps

/-! ## Runs -/

section Runs

variable [DecidableEq T] {os : Os} {s : Server T} {later past : List (Event T)} {e : Event T}
  {n : Bytes}

/-- The automata follow the sessions. -/
theorem Server.Run.shows (hr : Server.Run (Server.start T os) s) :
    ∃ phs, Pool.Shows Local.Rel s phs := by
  obtain ⟨phs, hshow, -⟩ := hr.confirmInv
  exact ⟨phs, hshow⟩

/-- What an event does to a name. -/
theorem Server.Run.entry_event (hr : Server.Run (Server.start T os) s)
    (hlog : s.world.log = later ++ e :: past) (n : Bytes) :
    e.os.entry n = (osBefore os past).entry n ∨ IsPartialName n ∧ Plain n ∨
      (osBefore os past).entry n = none ∧ Plain n := by
  obtain ⟨s₁, s₂, h₁, hrec, -, rfl⟩ := hr.event hlog
  obtain ⟨phs, hshow⟩ := h₁.shows
  obtain ⟨l, hmove, -⟩ := hrec.moves hshow
  obtain ⟨k, -, hx, -, -, hos⟩ := hrec.exec
  rw [hos, ← h₁.os_eq]
  rcases hmove.effect hx.1 with ⟨hsame, -⟩ | ⟨r, u, ph, ph', hl, hm, -⟩
  · rw [hsame]
    exact .inl rfl
  · have hrel := hshow e.sid
    rw [hl] at hrel
    have hu := hrel.ofFrame
    rcases hm.entry_cases hu hx.1 n with hsame | rfl | ⟨-, hfree, hplain⟩
    · exact .inl hsame
    · exact .inr (.inl ⟨hu.isPartialName, hu.partial_plain⟩)
    · exact .inr (.inr ⟨hfree, hplain⟩)

/-- **A name that is no partial name stays taken.** -/
theorem Server.Run.entry_keeps (hr : Server.Run (Server.start T os) s) (hn : ¬ IsPartialName n)
    (later mid past : List (Event T)) (hlog : s.world.log = later ++ (mid ++ past))
    (h : (osBefore os past).entry n ≠ none) : (osBefore os (mid ++ past)).entry n ≠ none := by
  induction mid generalizing later with
  | nil => exact h
  | cons e mid ih =>
    have hbefore := ih (later ++ [e]) (by rw [hlog]; simp)
    change e.os.entry n ≠ none
    rcases hr.entry_event (show s.world.log = later ++ e :: (mid ++ past) from hlog) n with
      hsame | ⟨hp, -⟩ | ⟨hfree, -⟩
    · rwa [hsame]
    · exact absurd hp hn
    · exact absurd hfree hbefore

/-- What is taken at the start is taken in the end. -/
theorem Server.Run.entry_kept (hr : Server.Run (Server.start T os) s) (hn : ¬ IsPartialName n)
    (h : os.entry n ≠ none) : s.world.os.entry n ≠ none := by
  have hkept := hr.entry_keeps hn [] s.world.log [] (by simp) h
  rwa [List.append_nil, ← hr.os_eq] at hkept

/-- The server gives no name with a slash. -/
theorem Server.Run.named (h : os.SlashFree) (hr : Server.Run (Server.start T os) s) :
    s.world.os.SlashFree := by
  have hmain : ∀ later past, s.world.log = later ++ past → (osBefore os past).SlashFree := by
    intro later past
    induction past generalizing later with
    | nil => exact fun _ => h
    | cons e past ih =>
      intro hlog n hn
      change e.os.entry n ≠ none at hn
      rcases hr.entry_event hlog n with hsame | ⟨-, hplain⟩ | ⟨-, hplain⟩
      · rw [hsame] at hn
        exact ih (later ++ [e]) (by rw [hlog]; simp) n hn
      · exact hplain.no_slash
      · exact hplain.no_slash
  rw [hr.os_eq]
  exact hmain [] _ rfl

/-- **A link finds its name free and binds it.** -/
theorem Server.Run.link_binds (hr : Server.Run (Server.start T os) s)
    (hlog : s.world.log = later ++ e :: past) {p : Bytes} (hlinks : e.Links p n) :
    Plain n ∧ (osBefore os past).entry n = none ∧ e.os.entry n ≠ none := by
  obtain ⟨s₁, s₂, h₁, hrec, -, rfl⟩ := hr.event hlog
  obtain ⟨phs, hshow⟩ := h₁.shows
  obtain ⟨l, hmove, -⟩ := hrec.moves hshow
  obtain ⟨k, -, hx, -, -, hos⟩ := hrec.exec
  have hrel := hshow e.sid
  have hx := hx.1
  rw [← h₁.os_eq]
  rw [← hos] at hx
  obtain ⟨sid, request, op, ans, eos⟩ := e
  obtain ⟨r, u, hl, -, rfl, rfl⟩ := hmove.of_links hlinks
  rw [hl] at hrel
  have hu := hrel.ofFrame
  unfold Event.Links at hlinks
  split at hlinks
  · next heq =>
    cases heq
    obtain ⟨rfl, rfl⟩ := hlinks
    have hn := hu.plain_of_link_ok hx.1
    obtain ⟨⟨i, hi⟩, hnone, hlinked⟩ := Os.run_link_ok hu.partial_plain hn hx.1
    refine ⟨hn, hnone, ?_⟩
    change eos.entry u.path ≠ none
    rw [show eos = _ from hx.2.1, hlinked, Os.linkAt_entry hi, if_pos rfl]
    exact Option.some_ne_none _
  · exact hlinks.elim

/-- **An upload that is confirmed has bound its name**, which was free. -/
theorem Server.Run.confirmed_binds (hr : Server.Run (Server.start T os) s) (he : e ∈ s.world.log)
    {u : PutRequest} (hu : e.Uploads u) (hsend : e.Sends okFrame) :
    Plain u.path ∧ ∃ later e' past, s.world.log = later ++ e' :: past ∧ e'.sid = e.sid ∧
      (osBefore os past).entry u.path = none ∧ (osBefore os (e' :: past)).entry u.path ≠ none := by
  obtain ⟨r, hreq, hu⟩ := hu
  obtain ⟨later, past, hlog⟩ := List.append_of_mem he
  obtain ⟨u', hu', e', he', hof, hlinks⟩ := hr.confirmSound hlog r hreq (type_of_uploadOf hu) hsend
  obtain rfl : u' = u := Option.some.inj (hu'.symm.trans hu)
  obtain ⟨mid, past', rfl⟩ := List.append_of_mem he'
  have hlog' : s.world.log = (later ++ e :: mid) ++ e' :: past' := by
    rw [hlog]
    simp
  obtain ⟨hn, hfree, hbound⟩ := hr.link_binds hlog' hlinks
  exact ⟨hn, _, e', past', hlog', hof.1, hfree, hbound⟩

/-- Such an upload has its name for good. -/
theorem Server.Run.confirmed_keeps (hr : Server.Run (Server.start T os) s) (he : e ∈ s.world.log)
    {u : PutRequest} (hu : e.Uploads u) (hsend : e.Sends okFrame) (hn : ¬ IsPartialName u.path) :
    s.world.os.entry u.path ≠ none := by
  obtain ⟨-, later, e', past, hlog, -, -, hbound⟩ := hr.confirmed_binds he hu hsend
  have hkept := hr.entry_keeps hn [] later (e' :: past) hlog hbound
  rwa [← hlog, ← hr.os_eq] at hkept

/-- **Of all the uploads of a name at most one is confirmed.** -/
theorem Server.Run.confirmed_once (hr : Server.Run (Server.start T os) s) {e₁ e₂ : Event T}
    (he₁ : e₁ ∈ s.world.log) (he₂ : e₂ ∈ s.world.log) {u₁ u₂ : PutRequest} (hu₁ : e₁.Uploads u₁)
    (hu₂ : e₂.Uploads u₂) (hpath : u₁.path = u₂.path) (hn : ¬ IsPartialName u₁.path)
    (hs₁ : e₁.Sends okFrame) (hs₂ : e₂.Sends okFrame) : e₁.sid = e₂.sid := by
  -- each has bound the name, which was free before; so neither came after the other
  have hearlier : ∀ {later mid past : List (Event T)} {e e' : Event T},
      s.world.log = later ++ e :: (mid ++ e' :: past) →
      (osBefore os (mid ++ e' :: past)).entry u₁.path = none →
      ¬ (osBefore os (e' :: past)).entry u₁.path ≠ none := by
    intro later mid past e e' hlog hnone hbound
    have hlog' : s.world.log = (later ++ [e]) ++ (mid ++ e' :: past) := by
      rw [hlog]
      simp
    exact hr.entry_keeps hn _ _ _ hlog' hbound hnone
  obtain ⟨-, later₁, l₁, past₁, hlog₁, hsid₁, hfree₁, hbound₁⟩ := hr.confirmed_binds he₁ hu₁ hs₁
  obtain ⟨-, later₂, l₂, past₂, hlog₂, hsid₂, hfree₂, hbound₂⟩ := hr.confirmed_binds he₂ hu₂ hs₂
  rw [← hpath] at hfree₂ hbound₂
  rcases List.append_eq_append_iff.mp (hlog₁.symm.trans hlog₂) with ⟨mid, -, hmid⟩ | ⟨mid, -, hmid⟩
  · cases mid with
    | nil =>
      obtain ⟨rfl, -⟩ := List.cons.inj hmid
      exact hsid₁.symm.trans hsid₂
    | cons e mid =>
      obtain ⟨rfl, rfl⟩ := List.cons.inj hmid
      exact absurd hbound₂ (hearlier hlog₁ hfree₁)
  · cases mid with
    | nil =>
      obtain ⟨rfl, -⟩ := List.cons.inj hmid
      exact hsid₁.symm.trans hsid₂
    | cons e mid =>
      obtain ⟨rfl, rfl⟩ := List.cons.inj hmid
      exact absurd hbound₁ (hearlier hlog₂ hfree₂)

end Runs

end Retriever
