/-
# Retriever.Server.Invariant — who may touch which file

The invariant behind every property of concurrent uploads. It has three parts.

* `_in_flight` is the set of the partial paths of the uploads between their `add` and their
  `discard`, each held by one session (`Leases`).
* What a session learned about its own partial stays true (`Phase.Knows`): the name stays bound to
  the file that was opened, what has been hashed stays what the file holds.
* Two names for one file are rare (`Apart`): of two names that are watched, one is at rest. It is the
  partial of a session that has just linked it and is about to remove it, or it is kin to the other
  name, and no upload that may use it is under way. So a file that is being written or checked has no
  second watched name that is in use.

The watched names include every partial name. Which other names are watched, and which are kin, is left
open: the fewer names are watched, and the more are kin, the less is asked of the directory the server
starts on.

`Change` says once what a step of an upload does to the directory; every preservation proof is a
case analysis over its five cases.
-/
import Retriever.Lib.Leases
import Retriever.Server.Phases

namespace Retriever

/-! ## The parts of the invariant -/

namespace Phase

/-- Past the check that the name is free. -/
def past : Phase → Bool
  | .asked | .turned | .finished => false
  | _ => true

/-- The partial is known to be there. -/
def bound : Phase → Bool
  | .receiving _ _ _ | .storing _ _ _ _ | .hashing _ _ | .corrupt | .checked | .sniffing
  | .verified | .linked | .lost => true
  | _ => false

theorem past_of_holds {ph : Phase} (h : ph.holds = true) : ph.past = true := by
  cases ph <;> first | rfl | cases h

/-- The bytes of the partial are known. -/
def reads : Phase → Bool
  | .hashing _ _ | .checked | .sniffing | .verified => true
  | _ => false

/-- What the session of an upload knows about its partial. -/
def Knows (u : PutRequest) (os : Os) : Phase → Prop
  | .receiving _ h _ | .storing _ h _ _ => os.entry u.partialPath = some (.file h)
  | .hashing i acc => os.entry u.partialPath = some (.file i) ∧ acc <+: os.store.data i
  | .corrupt | .linked | .lost => ∃ i, os.entry u.partialPath = some (.file i)
  | .checked | .sniffing | .verified =>
    ∃ i, os.entry u.partialPath = some (.file i) ∧ sha256 (os.store.data i) = u.digest
  | _ => True

theorem Knows.entry {u : PutRequest} {os : Os} {ph : Phase} (h : ph.Knows u os)
    (hb : ph.bound = true) : ∃ i, os.entry u.partialPath = some (.file i) := by
  cases ph with
  | receiving r h' w => exact ⟨h', h⟩
  | storing r h' w c => exact ⟨h', h⟩
  | hashing i acc => exact ⟨i, h.1⟩
  | corrupt | linked | lost => exact h
  | checked | sniffing | verified => exact h.imp fun i hi => hi.1
  | _ => cases hb

/-- Knowledge survives as long as the name keeps its file, and the file its bytes where they are
known. -/
theorem Knows.frame {u : PutRequest} {os os' : Os} {ph : Phase} (h : ph.Knows u os)
    (he : ph.bound = true → os'.entry u.partialPath = os.entry u.partialPath)
    (hd : ph.reads = true → ∀ i, os.entry u.partialPath = some (.file i) →
      os'.store.data i = os.store.data i) : ph.Knows u os' := by
  cases ph with
  | receiving r h' w => exact (he rfl).trans h
  | storing r h' w c => exact (he rfl).trans h
  | hashing i acc =>
    refine ⟨(he rfl).trans h.1, ?_⟩
    rw [hd rfl i h.1]
    exact h.2
  | corrupt | linked | lost =>
    obtain ⟨i, hi⟩ := h
    exact ⟨i, (he rfl).trans hi⟩
  | checked | sniffing | verified =>
    obtain ⟨i, hi, hs⟩ := h
    refine ⟨i, (he rfl).trans hi, ?_⟩
    rw [hd rfl i hi]
    exact hs
  | _ => trivial

end Phase

namespace Local

/-- The partial path a session has reserved. -/
def held : Local → Option Bytes
  | .put _ u ph => if ph.holds then some u.partialPath else none
  | .plain _ _ => none

theorem Rel.request {l : Session} {ph : Local} (h : Rel l ph) : l.request = ph.request := by
  cases h <;> rfl

/-- What is true of a session on its own. -/
def Ok (os : Os) : Local → Prop
  | .put r u ph => u.OfFrame r.2 ∧ (ph.past = true → Plain u.path) ∧ ph.Knows u os
  | .plain _ _ => True

end Local

variable {T : Type}

/-- A session has linked its partial `k` and is about to remove it. -/
def Retiring (phs : T → Local) (k : Bytes) : Prop :=
  ∃ t r u, phs t = .put r u .linked ∧ u.partialPath = k

/-- No upload that has found its name free has the partial `k`. -/
def Unused (phs : T → Local) (k : Bytes) : Prop :=
  ∀ t r u ph, phs t = .put r u ph → u.partialPath = k → ph.past = false

/-- Nobody writes to `k` or relies on it, while `k'` is there. -/
def Resting (kin : Bytes → Bytes → Prop) (phs : T → Local) (k k' : Bytes) : Prop :=
  Retiring phs k ∨ kin k k' ∧ Unused phs k

/-- Two watched names of one file: one of them is at rest. -/
def Apart (watch : Bytes → Prop) (kin : Bytes → Bytes → Prop) (os : Os) (phs : T → Local) : Prop :=
  ∀ k k' i, watch k → watch k' → os.entry k = some (.file i) → os.entry k' = some (.file i) →
    k ≠ k' → Resting kin phs k k' ∨ Resting kin phs k' k

/-- Kin of a name are partials of it, so they are not used while it is there. A watched name whose
partial has kin is none that an upload can have. -/
structure Kinship (watch : Bytes → Prop) (kin : Bytes → Bytes → Prop) : Prop where
  partialOf : ∀ {k n}, kin k n → Os.SLASH ∉ n ∧ ∃ d, d.length = HASH_SIZE ∧ k = partialName n d
  ends : ∀ {t d k}, checkFilename t = true → watch (encode t) → ¬ kin k (partialName (encode t) d)

structure KinInv (kin : Bytes → Bytes → Prop) (watch : Bytes → Prop) (w : World T) (phs : T → Local) :
    Prop where
  leases : Leases w.inFlight fun t => (phs t).held
  ok : ∀ t, (phs t).Ok w.os
  apart : Apart watch kin w.os phs

/-- No name has kin. -/
def kinless (_ _ : Bytes) : Prop := False

theorem Kinship.kinless (watch : Bytes → Prop) : Kinship watch kinless where
  partialOf := fun h => h.elim
  ends := fun _ _ h => h

/-- The invariant on a directory in which watched names have no file in common. -/
abbrev Inv (watch : Bytes → Prop) (w : World T) (phs : T → Local) : Prop := KinInv kinless watch w phs

/-! ## What a step of an upload does to the directory -/

theorem PutRequest.OfFrame.accepted {u : PutRequest} {f : Frame} (h : u.OfFrame f) :
    Accepted u.name := accepted_of_checkFilename h.name

theorem PutRequest.OfFrame.partial_plain {u : PutRequest} {f : Frame} (h : u.OfFrame f) :
    Plain u.partialPath := Plain.partialName h.accepted.encode_no_slash _

theorem parsePut_digest_length {payload : Bytes} {u : PutRequest} (h : parsePut payload = .ok u) :
    u.digest.length = HASH_SIZE := by
  unfold parsePut at h
  split at h
  · cases h
  · next hl =>
    cases hp : parseName (payload.drop (8 + HASH_SIZE)) with
    | error e =>
      rw [hp] at h
      cases h
    | ok x =>
      rw [hp] at h
      simp only at h
      split at h
      · cases h
      · cases h
        simp only [PUT_PREFIX] at hl
        rw [List.length_take, List.length_drop]
        omega

theorem PutRequest.OfFrame.isPartialName {u : PutRequest} {f : Frame} (h : u.OfFrame f) :
    IsPartialName u.partialPath := ⟨u.path, u.digest, parsePut_digest_length h.parsed, rfl⟩

/-- The steps of upload `u` on directory `os`: nothing changes, or the partial is made, written,
removed, or linked to the name. -/
inductive Change (u : PutRequest) (os : Os) : Phase → Phase → Os → Prop
  | same (ph ph' : Phase) : ph ≠ .linked → Change u os ph ph' os
  | create (r : Nat) : os.entry u.partialPath = none →
      Change u os (.granted r) (.receiving r os.store.next r) (os.createAt (os.cwd ++ [u.partialPath]))
  | append {r h w : Nat} {c : Bytes} (hlt : (os.store.data h).length + c.length < OFF_MAX) :
      os.entry u.partialPath = some (.file h) →
      Change u os (.storing r h w c) (.receiving r h (w + c.length)) (os.appendTo h c hlt)
  | unlink {ph ph' : Phase} {i : Nat} : os.entry u.partialPath = some (.file i) →
      ph.holds = true → Change u os ph ph' (os.removeAt (os.cwd ++ [u.partialPath]))
  | link {i : Nat} : os.entry u.partialPath = some (.file i) →
      sha256 (os.store.data i) = u.digest → os.entry u.path = none →
      Change u os .verified .linked (os.linkAt u.partialPath u.path)

namespace World

variable {w : World T} {os' : Os} {fl : Finset Bytes}

theorem answers_quiet {r : Option Request} {o : Sys} {a : o.Ans} (ho : o.Quiet r)
    (h : w.Answers o a os' fl) : os' = w.os ∧ fl = w.inFlight := by
  cases ho with
  | recv n hr => exact h.2
  | send hb => exact h.2
  | fs hl =>
    obtain ⟨-, rfl, hfl⟩ := h
    exact ⟨Os.run_looks hl, hfl⟩

theorem answers_failed {o : Sys} {a : o.Ans} (ho : Sys.Failed o a) (h : w.Answers o a os' fl) :
    os' = w.os ∧ fl = w.inFlight := by
  cases ho with
  | eof n => exact h.2
  | recv n e => exact h.2
  | offer r e => exact h.2
  | fs hr =>
    obtain ⟨ha, rfl, hfl⟩ := h
    exact ⟨Os.run_refused hr ha, hfl⟩

end World

/-- The name `.` is always taken, so an upload that finds its name free has a plain one. -/
theorem plain_of_stat_none {os : Os} {t : Text} (h : Accepted t)
    (hs : (os.run (.stat (encode t))).1 = none) : Plain (encode t) := by
  rcases h.plain_or_dot with hp | hd
  · exact hp
  · rw [hd] at hs
    simp [Os.run, Os.statAt, Os.at?_dot] at hs

section OneStep

variable {w : World T} {os' : Os} {fl : Finset Bytes} {r : Request} {u : PutRequest}
  {ph ph' : Phase} {o : Sys} {a : o.Ans}

theorem Change.of_eq (h : os' = w.os) (hl : ph ≠ .linked) : Change u w.os ph ph' os' :=
  h ▸ .same ph ph' hl

/-- **What a step does.** -/
theorem Phase.Move.change (hok : (Local.put r u ph).Ok w.os) (hx : w.Answers o a os' fl)
    (hm : ph.Move u o a ph') : Change u w.os ph ph' os' := by
  obtain ⟨hu, hplain, hk⟩ := hok
  have hp := hu.partial_plain
  cases hm with
  | taken st => exact .of_eq hx.2.1 (by simp)
  | free => exact .of_eq hx.2.1 (by simp)
  | turnAway a hb => exact .of_eq hx.2.1 (by simp)
  | reserve => exact .of_eq hx.2.1 (by simp)
  | inFlight => exact .of_eq hx.2.1 (by simp)
  | tellBusy a hb => exact .of_eq hx.2.1 (by simp)
  | absent => exact .of_eq hx.2.1 (by simp)
  | present st => exact .of_eq hx.2.1 (by simp)
  | fits hs => exact .of_eq hx.2.1 (by simp)
  | exceeds hs => exact .of_eq hx.2.1 (by simp)
  | drop =>
    obtain ⟨⟨i, hi⟩, hos⟩ := Os.run_unlink_ok hp hx.1
    rw [hx.2.1, hos]
    exact .unlink hi rfl
  | offer r => exact .of_eq hx.2.1 (by simp)
  | openPartial r h =>
    rcases Os.run_openAb_ok hp hx.1 with ⟨-, hos⟩ | ⟨he, rfl, hos⟩
    · exact .of_eq (hx.2.1.trans hos) (by simp)
    · rw [hx.2.1, hos]
      exact .create r he
  | receive hw hn hc => exact .of_eq hx.2.1 (by simp)
  | store r h w' c =>
    obtain ⟨hlt, hos⟩ := Os.run_write_ok hx.1
    rw [hx.2.1, hos]
    exact .append hlt hk
  | rehash i hw => exact .of_eq (hx.2.1.trans (Os.run_looks (.openRb _))) (by simp)
  | readMore hc => exact .of_eq (hx.2.1.trans (Os.run_looks (.read _ _ _))) (by simp)
  | mismatch hn hd => exact .of_eq (hx.2.1.trans (Os.run_looks (.read _ _ _))) (by simp)
  | matched hn hd => exact .of_eq (hx.2.1.trans (Os.run_looks (.read _ _ _))) (by simp)
  | dropCorrupt =>
    obtain ⟨i, hi⟩ := hk
    rw [hx.2.1, Os.run_unlink_entry hp hi]
    exact .unlink hi rfl
  | reopen i => exact .of_eq (hx.2.1.trans (Os.run_looks (.openRb _))) (by simp)
  | sniff c => exact .of_eq (hx.2.1.trans (Os.run_looks (.read _ _ _))) (by simp)
  | link =>
    obtain ⟨i, hi, hs⟩ := hk
    obtain ⟨-, hn, hos⟩ := Os.run_link_ok hp (hplain rfl) hx.1
    rw [hx.2.1, hos]
    exact .link hi hs hn
  | linkTaken => exact .of_eq (hx.2.1.trans (Os.run_refused (.link _ _ _) hx.1)) (by simp)
  | unlink =>
    obtain ⟨i, hi⟩ := hk
    rw [hx.2.1, Os.run_unlink_entry hp hi]
    exact .unlink hi rfl
  | stuck e =>
    -- the partial is there, so removing it does not fail
    obtain ⟨i, hi⟩ := hk
    have := hx.1
    rw [Os.run_unlink_entry hp hi] at this
    cases this
  | confirm a => exact .of_eq hx.2.1 (by simp)
  | dropLost =>
    obtain ⟨i, hi⟩ := hk
    rw [hx.2.1, Os.run_unlink_entry hp hi]
    exact .unlink hi rfl
  | reject a hb => exact .of_eq hx.2.1 (by simp)
  | linkFails he => exact .of_eq (hx.2.1.trans (Os.run_refused (.link _ _ _) hx.1)) (by simp)
  | abort ht hf => exact .of_eq (World.answers_failed hf hx).1 ht.ne_linked
  | release => exact .of_eq hx.1 (by simp)
  | giveUp hlen => exact .of_eq hx.1 (by simp)

/-- A session gets past the check by finding its name free. -/
theorem Phase.Move.past {f : Frame} (hu : u.OfFrame f) (hx : w.Answers o a os' fl)
    (hm : ph.Move u o a ph') (h : ph'.past = true) : ph.past = true ∨ w.os.entry u.path = none := by
  cases hm with
  | free =>
    have hplain : Plain u.path := plain_of_stat_none hu.accepted hx.1
    have hstat : (w.os.run (.stat u.path)).1 = none := hx.1
    rw [Os.run_stat_plain hplain] at hstat
    split at hstat
    · cases hstat
    · cases hstat
    · next hfree => exact .inr hfree
  | taken | turnAway | tellBusy | release | giveUp => cases h
  | abort ht hf => exact .inl (Phase.past_of_holds ht.holds)
  | _ => exact .inl rfl

/-- A read that returns nothing has reached the end of the file. -/
theorem eq_data_of_read_nil {os : Os} {i n : Nat} {acc : Bytes} (hn : 0 < n)
    (hacc : acc <+: os.store.data i) (hr : (os.run (.read i acc.length n)).1 = .ok []) :
    acc = os.store.data i := by
  simp only [Os.run, Except.ok.injEq, List.take_eq_nil_iff, List.drop_eq_nil_iff] at hr
  exact hacc.eq_of_length_le (by omega)

theorem prefix_of_read {os : Os} {i n : Nat} {acc c : Bytes} (hacc : acc <+: os.store.data i)
    (hr : (os.run (.read i acc.length n)).1 = .ok c) : acc ++ c <+: os.store.data i := by
  simp only [Os.run, Except.ok.injEq] at hr
  obtain ⟨rest, hrest⟩ := hacc
  subst hr
  rw [← hrest, List.drop_left, List.prefix_append_right_inj]
  exact List.take_prefix n rest

/-- **What a session learns.** -/
theorem Phase.Move.ok (hok : (Local.put r u ph).Ok w.os) (hx : w.Answers o a os' fl)
    (hm : ph.Move u o a ph') : (Local.put r u ph').Ok os' := by
  obtain ⟨hu, hplain, hk⟩ := hok
  have hp := hu.partial_plain
  refine ⟨hu, ?_, ?_⟩
  · cases hm with
    | free => exact fun _ => plain_of_stat_none hu.accepted hx.1
    | taken st => exact fun h => by cases h
    | abort ht hf => exact fun _ => hplain (Phase.past_of_holds ht.holds)
    | turnAway | tellBusy | release | giveUp => exact fun h => by cases h
    | _ => exact fun _ => hplain rfl
  · cases hm with
    | openPartial r h =>
      rcases Os.run_openAb_ok hp hx.1 with ⟨he, hos⟩ | ⟨he, rfl, hos⟩
      · rw [hx.2.1, hos]
        exact he
      · rw [hx.2.1, hos]
        simp [Phase.Knows]
    | receive hw hn hc =>
      rw [hx.2.1]
      exact hk
    | store r h w' c =>
      obtain ⟨hlt, hos⟩ := Os.run_write_ok hx.1
      rw [hx.2.1, hos]
      exact hk
    | rehash i hw =>
      rw [hx.2.1, Os.run_looks (.openRb _)]
      exact ⟨Os.run_openRb_ok hp hx.1, List.nil_prefix⟩
    | readMore hc =>
      rw [hx.2.1, Os.run_looks (.read _ _ _)]
      exact ⟨hk.1, prefix_of_read hk.2 hx.1⟩
    | mismatch hn hd =>
      rw [hx.2.1, Os.run_looks (.read _ _ _)]
      exact ⟨_, hk.1⟩
    | matched hn hd =>
      rw [hx.2.1, Os.run_looks (.read _ _ _)]
      exact ⟨_, hk.1, by rw [← eq_data_of_read_nil hn hk.2 hx.1, hd]⟩
    | reopen i =>
      rw [hx.2.1, Os.run_looks (.openRb _)]
      exact hk
    | sniff c =>
      rw [hx.2.1, Os.run_looks (.read _ _ _)]
      exact hk
    | link =>
      obtain ⟨i, hi, hs⟩ := hk
      obtain ⟨-, hn, hos⟩ := Os.run_link_ok hp (hplain rfl) hx.1
      rw [hx.2.1, hos]
      refine ⟨i, ?_⟩
      rw [Os.linkAt_entry hi]
      split
      · rfl
      · exact hi
    | linkTaken =>
      rw [hx.2.1, Os.run_refused (.link _ _ _) hx.1]
      exact hk.imp fun i hi => hi.1
    | _ => trivial

end OneStep

/-! ## Preservation -/

theorem Local.held_of_holds {phs : T → Local} {t : T} {r : Request} {u : PutRequest} {ph : Phase}
    (ht : phs t = .put r u ph) (hh : ph.holds = true) : (phs t).held = some u.partialPath := by
  rw [ht, Local.held, if_pos hh]

section Preservation

variable {watch : Bytes → Prop} {kin : Bytes → Bytes → Prop} {w w' : World T} {phs : T → Local}
  {t : T}

/-- Two sessions with reservations have different partials. -/
theorem KinInv.partial_ne (hi : KinInv kin watch w phs) {t' : T} (hne : t' ≠ t) {r r' : Request}
    {u u' : PutRequest} {ph ph' : Phase} (ht : phs t = .put r u ph) (ht' : phs t' = .put r' u' ph')
    (hh : ph.holds = true) (hh' : ph'.holds = true) : u'.partialPath ≠ u.partialPath := by
  intro he
  apply hne
  exact hi.leases.unique t' t u.partialPath (he ▸ Local.held_of_holds ht' hh')
    (Local.held_of_holds ht hh)

/-- A session that has not linked its partial is not retiring it. -/
theorem KinInv.not_retiring (hi : KinInv kin watch w phs) {r : Request} {u : PutRequest} {ph : Phase}
    (ht : phs t = .put r u ph) (hh : ph.holds = true) (hl : ph ≠ .linked) :
    ¬ Retiring phs u.partialPath := by
  rintro ⟨t', r', u', ht', hk⟩
  have : t' = t := hi.leases.unique t' t u.partialPath (hk ▸ Local.held_of_holds ht' rfl)
    (Local.held_of_holds ht hh)
  subst this
  rw [ht] at ht'
  cases ht'
  exact hl rfl

theorem Phase.holds_of_bound {ph : Phase} (h : ph.bound = true) : ph.holds = true := by
  cases ph <;> first | rfl | cases h

theorem Unused.not_past {r : Request} {u : PutRequest} {ph : Phase} (h : Unused phs u.partialPath)
    (ht : phs t = .put r u ph) : ph.past ≠ true := by
  rw [h t r u ph ht rfl]
  exact Bool.false_ne_true

/-- A second watched name of the file a session works on is about to go, or it is kin to the partial. -/
theorem KinInv.other_name (hi : KinInv kin watch w phs) (hw : ∀ p, IsPartialName p → watch p)
    {r : Request} {u : PutRequest} {ph : Phase} (ht : phs t = .put r u ph) (hh : ph.holds = true)
    (hl : ph ≠ .linked) {i : Nat} (hent : w.os.entry u.partialPath = some (.file i)) {k : Bytes}
    (hk : watch k) (hkent : w.os.entry k = some (.file i)) :
    k = u.partialPath ∨ Retiring phs k ∨ kin k u.partialPath ∧ Unused phs k := by
  by_cases he : k = u.partialPath
  · exact .inl he
  · have hok := hi.ok t
    rw [ht] at hok
    rcases hi.apart _ _ _ hk (hw _ hok.1.isPartialName) hkent hent he with hrest | hret | ⟨-, hun⟩
    · exact .inr hrest
    · exact absurd hret (hi.not_retiring ht hh hl)
    · exact absurd (Phase.past_of_holds hh) (hun.not_past ht)

/-- Without kin, it is about to go. -/
theorem Inv.other_name (hi : Inv watch w phs) (hw : ∀ p, IsPartialName p → watch p) {r : Request}
    {u : PutRequest} {ph : Phase} (ht : phs t = .put r u ph) (hh : ph.holds = true)
    (hl : ph ≠ .linked) {i : Nat} (hent : w.os.entry u.partialPath = some (.file i)) {k : Bytes}
    (hk : watch k) (hkent : w.os.entry k = some (.file i)) :
    k = u.partialPath ∨ Retiring phs k := by
  rcases KinInv.other_name hi hw ht hh hl hent hk hkent with he | hret | ⟨hkin, -⟩
  · exact .inl he
  · exact .inr hret
  · exact hkin.elim

/-- A step of one upload leaves alone what the other sessions know. -/
theorem Change.frame (hi : KinInv kin watch w phs) (hw : ∀ p, IsPartialName p → watch p) {r : Request}
    {u : PutRequest} {ph ph' : Phase} {os' : Os} (ht : phs t = .put r u ph)
    (hc : Change u w.os ph ph' os') {t' : T} (hne : t' ≠ t) : (phs t').Ok os' := by
  have hok := hi.ok t
  have hok' := hi.ok t'
  rw [ht] at hok
  cases hl : phs t' with
  | plain b q => trivial
  | put r' u' ph₁ =>
    rw [hl] at hok'
    obtain ⟨hu', hplain', hk'⟩ := hok'
    refine ⟨hu', hplain', ?_⟩
    cases hc with
    | same ph ph' hl => exact hk'
    | create r he =>
      refine hk'.frame (fun hb => ?_) fun hr i hent => ?_
      · rw [Os.createAt_entry, if_neg (hi.partial_ne hne ht hl rfl (Phase.holds_of_bound hb))]
      · rw [Os.createAt_data, if_neg (Os.entry_lt_next hent).ne]
    | @append r h w c hlt hent =>
      refine hk'.frame (fun _ => rfl) fun hr i hent' => ?_
      have hb : ph₁.bound = true := by revert hr; cases ph₁ <;> simp [Phase.reads, Phase.bound]
      have hh' := Phase.holds_of_bound hb
      rw [Os.appendTo_data, if_neg]
      -- a common file would have two watched names, neither of them at rest
      rintro rfl
      rcases KinInv.other_name hi hw ht rfl (by simp) hent (hw _ hu'.isPartialName) hent' with
        he | hret | ⟨-, hun⟩
      · exact hi.partial_ne hne ht hl rfl hh' he
      · refine hi.not_retiring hl hh' ?_ hret
        rintro rfl
        cases hr
      · exact hun.not_past hl (Phase.past_of_holds hh')
    | @unlink ph ph' i hent hh =>
      refine hk'.frame (fun hb => ?_) fun _ _ _ => rfl
      rw [Os.removeAt_entry, if_neg (hi.partial_ne hne ht hl hh (Phase.holds_of_bound hb))]
    | @link i hent hs hnone =>
      refine hk'.frame (fun hb => ?_) fun _ _ _ => by rw [Os.linkAt_data]
      obtain ⟨j, hj⟩ := hk'.entry hb
      rw [Os.linkAt_entry hent, if_neg]
      intro he
      rw [he, hnone] at hj
      cases hj

/-- A step of a session changes neither directory nor reservations, or it is a step of an upload. -/
theorem Local.Move.effect {l l' : Local} {o : Sys} {a : o.Ans} {os' : Os} {fl : Finset Bytes}
    (hm : l.Move o a l') (hx : w.Answers o a os' fl) :
    (os' = w.os ∧ fl = w.inFlight ∧ o.Quiet l.request ∧ (∃ b q, l = .plain b q) ∧
      ((∃ b q, l' = .plain b q) ∨
        ∃ b f u, l = .plain b none ∧ l' = .put (b, f) u .asked ∧ u.OfFrame f)) ∨
    ∃ r u ph ph', l = .put r u ph ∧ ph.Move u o a ph' ∧
      (l' = .put r u ph' ∨ ph' = .finished ∧ ∃ b q, l' = .plain b q) := by
  rcases hm.split with ⟨hq, hl, hl'⟩ | hup
  · obtain ⟨hos, hfl⟩ := World.answers_quiet hq hx
    exact .inl ⟨hos, hfl, hq, hl, hl'⟩
  · exact .inr hup

variable [DecidableEq T]

theorem held_update (phs : T → Local) (t : T) (l : Local) :
    (fun t' => (Function.update phs t l t').held) =
      Function.update (fun t' => (phs t').held) t l.held := by
  funext t'
  by_cases h : t' = t
  · subst h
    simp
  · simp [h]

theorem Leases.same {fl : Finset Bytes} {l : Local} (h : Leases fl fun t => (phs t).held)
    (hl : l.held = (phs t).held) : Leases fl fun t' => (Function.update phs t l t').held := by
  rw [held_update, hl, Function.update_eq_self]
  exact h

/-- The reservations after a step of an upload. -/
theorem Phase.Move.leases {os' : Os} {fl : Finset Bytes} {r : Request} {u : PutRequest}
    {ph ph' : Phase} {o : Sys} {a : o.Ans} (h : Leases w.inFlight fun t => (phs t).held)
    (ht : phs t = .put r u ph) (hx : w.Answers o a os' fl) (hm : ph.Move u o a ph') :
    Leases fl fun t' => (Function.update phs t (.put r u ph') t').held := by
  have hsame : fl = w.inFlight → ph'.holds = ph.holds →
      Leases fl fun t' => (Function.update phs t (.put r u ph') t').held := by
    rintro rfl hh
    exact h.same (by rw [ht, Local.held, Local.held, hh])
  cases hm with
  | reserve =>
    obtain ⟨ha, -, rfl⟩ := hx
    rw [held_update]
    exact h.take (of_decide_eq_true ha.symm) (by rw [ht]; rfl)
  | inFlight =>
    obtain ⟨ha, -, rfl⟩ := hx
    have hmem : u.partialPath ∈ w.inFlight := not_not.mp (of_decide_eq_false ha.symm)
    rw [Finset.insert_eq_of_mem hmem]
    exact h.same (by rw [ht]; rfl)
  | release | giveUp =>
    obtain ⟨-, rfl⟩ := hx
    rw [held_update]
    exact h.release (by rw [ht]; rfl)
  | abort ht hf => exact hsame (World.answers_failed hf hx).2 ht.holds.symm
  | _ => exact hsame hx.2.2 rfl

theorem Retiring.update {k : Bytes} {l : Local} (h : Retiring phs k)
    (ht : ∀ r u, phs t = .put r u .linked → u.partialPath ≠ k) :
    Retiring (Function.update phs t l) k := by
  obtain ⟨t', r, u, ht', hk⟩ := h
  have hne : t' ≠ t := by
    rintro rfl
    exact ht r u ht' hk
  exact ⟨t', r, u, by rw [Function.update_of_ne hne, ht'], hk⟩

theorem Unused.update {k : Bytes} {l : Local} (h : Unused phs k)
    (hl : ∀ r u ph, l = .put r u ph → u.partialPath = k → ph.past = false) :
    Unused (Function.update phs t l) k := by
  intro t' r u ph ht' hk
  by_cases he : t' = t
  · rw [he, Function.update_self] at ht'
    exact hl r u ph ht' hk
  · rw [Function.update_of_ne he] at ht'
    exact h t' r u ph ht' hk

/-- Nobody takes up a partial of a name that is there. -/
theorem Unused.step (hkin : Kinship watch kin) {r : Request} {u : PutRequest} {ph ph' : Phase}
    {l : Local} (ht : phs t = .put r u ph) (hu : u.OfFrame r.2)
    (hpast : ph'.past = true → ph.past = true ∨ w.os.entry u.path = none)
    (hl : l = .put r u ph' ∨ ph' = .finished ∧ ∃ b q, l = .plain b q) {k k' : Bytes} (hk : kin k k')
    (hent : w.os.entry k' ≠ none) (h : Unused phs k) : Unused (Function.update phs t l) k := by
  apply h.update
  rintro r' u' ph₁ rfl hp
  rcases hl with he | ⟨-, b, q, he⟩
  · cases he
    cases hph : ph'.past with
    | false => rfl
    | true =>
      rcases hpast hph with hpast | hfree
      · rw [← hp] at h
        exact absurd hpast (h.not_past ht)
      · obtain ⟨hslash, d, hd, rfl⟩ := hkin.partialOf hk
        obtain ⟨rfl, -⟩ := partialName_inj hu.accepted.encode_no_slash hslash
          (parsePut_digest_length hu.parsed) hd hp
        exact absurd hfree hent
  · cases he

/-- A step wakes no name but the partial that it removes. -/
theorem Resting.step (hkin : Kinship watch kin) {r : Request} {u : PutRequest} {ph ph' : Phase}
    {l : Local} (ht : phs t = .put r u ph) (hu : u.OfFrame r.2)
    (hpast : ph'.past = true → ph.past = true ∨ w.os.entry u.path = none)
    (hl : l = .put r u ph' ∨ ph' = .finished ∧ ∃ b q, l = .plain b q) {k k' : Bytes}
    (hne : ph = .linked → k ≠ u.partialPath) (hent : w.os.entry k' ≠ none)
    (h : Resting kin phs k k') : Resting kin (Function.update phs t l) k k' := by
  rcases h with hret | ⟨hk, hun⟩
  · refine .inl (hret.update ?_)
    rintro r' u' ht' rfl
    rw [ht] at ht'
    cases ht'
    exact hne rfl rfl
  · exact .inr ⟨hk, hun.step hkin ht hu hpast hl hk hent⟩

/-- Names stay apart. -/
theorem Change.apart (hi : KinInv kin watch w phs) (hw : ∀ p, IsPartialName p → watch p)
    (hkin : Kinship watch kin) {r : Request} {u : PutRequest} {ph ph' : Phase} {os' : Os} {l : Local}
    (ht : phs t = .put r u ph) (hc : Change u w.os ph ph' os')
    (hpast : ph'.past = true → ph.past = true ∨ w.os.entry u.path = none)
    (hl : l = .put r u ph' ∨ ph' = .finished ∧ ∃ b q, l = .plain b q) :
    Apart watch kin os' (Function.update phs t l) := by
  have hok := hi.ok t
  rw [ht] at hok
  have hkeep : ∀ {k k'}, (ph = .linked → k ≠ u.partialPath) → w.os.entry k' ≠ none →
      Resting kin phs k k' → Resting kin (Function.update phs t l) k k' :=
    fun hne hent hrest => hrest.step hkin ht hok.1 hpast hl hne hent
  have hsame : ph ≠ .linked → ∀ {k k' i}, watch k → watch k' → w.os.entry k = some (.file i) →
      w.os.entry k' = some (.file i) → k ≠ k' →
      Resting kin (Function.update phs t l) k k' ∨ Resting kin (Function.update phs t l) k' k := by
    intro hp k k' i hk hk' he he' hne
    exact (hi.apart k k' i hk hk' he he' hne).imp (hkeep (absurd · hp) (by simp [he']))
      (hkeep (absurd · hp) (by simp [he]))
  intro k k' i hk hk' he he' hne
  cases hc with
  | same ph ph' hp => exact hsame hp hk hk' he he' hne
  | create r hent =>
    rw [Os.createAt_entry] at he he'
    split at he
    · next hkp =>
      rw [if_neg fun h => hne (hkp.trans h.symm)] at he'
      cases he
      exact absurd (Os.entry_lt_next he') (Nat.lt_irrefl _)
    · split at he'
      · cases he'
        exact absurd (Os.entry_lt_next he) (Nat.lt_irrefl _)
      · exact hsame (by simp) hk hk' he he' hne
  | append hlt hent => exact hsame (by simp) hk hk' he he' hne
  | @unlink ph ph' j hent hh =>
    rw [Os.removeAt_entry] at he he'
    have hkp : k ≠ u.partialPath := fun h => by simp [h] at he
    have hkp' : k' ≠ u.partialPath := fun h => by simp [h] at he'
    rw [if_neg hkp] at he
    rw [if_neg hkp'] at he'
    exact (hi.apart k k' i hk hk' he he' hne).imp (hkeep (fun _ => hkp) (by simp [he']))
      (hkeep (fun _ => hkp') (by simp [he]))
  | @link j hent hs hnone =>
    have hlinked : l = .put r u .linked := by
      rcases hl with rfl | ⟨hend, -⟩
      · rfl
      · cases hend
    -- the new name is watched, so the partial has no kin: who has the file is about to lose it
    have hother : watch u.path → ∀ x, watch x → w.os.entry x = some (.file j) →
        Retiring (Function.update phs t l) x := by
      intro hpath x hx hex
      rcases KinInv.other_name hi hw ht rfl (by simp) hent hx hex with rfl | hret | ⟨hk, -⟩
      · exact ⟨t, r, u, by rw [Function.update_self, hlinked], rfl⟩
      · refine hret.update ?_
        intro r' u' ht'
        rw [ht] at ht'
        cases ht'
      · exact absurd hk (hkin.ends hok.1.name hpath)
    rw [Os.linkAt_entry hent] at he he'
    split at he
    · next hkn =>
      rw [if_neg fun h => hne (hkn.trans h.symm)] at he'
      cases he
      exact .inr (.inl (hother (hkn ▸ hk) k' hk' he'))
    · split at he'
      · next hkn =>
        cases he'
        exact .inl (.inl (hother (hkn ▸ hk') k hk he))
      · exact hsame (by simp) hk hk' he he' hne

/-- A step that changes neither the directory nor the reservations. -/
theorem KinInv.keep (hi : KinInv kin watch w phs) {l : Local} (hos : w'.os = w.os)
    (hfl : w'.inFlight = w.inFlight) (hheld : l.held = (phs t).held)
    (hnl : ∀ r u, phs t ≠ .put r u .linked) (hpast : ∀ r u ph, l = .put r u ph → ph.past = false)
    (hl : l.Ok w.os) : KinInv kin watch w' (Function.update phs t l) where
  leases := by
    rw [hfl]
    exact hi.leases.same hheld
  ok := by
    intro t'
    rw [hos]
    by_cases h : t' = t
    · subst h
      simpa using hl
    · simpa [h] using hi.ok t'
  apart := by
    intro k k' i hk hk' he he' hne
    rw [hos] at he he'
    have hup : ∀ {x y}, Resting kin phs x y → Resting kin (Function.update phs t l) x y :=
      fun hrest => hrest.imp (·.update fun r u ht => absurd ht (hnl r u))
        fun ⟨hkin, hun⟩ => ⟨hkin, hun.update fun r u ph hl' _ => hpast r u ph hl'⟩
    exact (hi.apart k k' i hk hk' he he' hne).imp hup hup

/-- A step of an upload, which goes on (`l` is its next phase) or is over. -/
theorem KinInv.upload (hi : KinInv kin watch w phs) (hw : ∀ p, IsPartialName p → watch p)
    (hkin : Kinship watch kin) {r : Request} {u : PutRequest} {ph ph' : Phase} {o : Sys} {a : o.Ans}
    {l : Local} (ht : phs t = .put r u ph) (hx : w.Answers o a w'.os w'.inFlight)
    (hm : ph.Move u o a ph') (hl : l = .put r u ph' ∨ ph' = .finished ∧ ∃ b q, l = .plain b q) :
    KinInv kin watch w' (Function.update phs t l) := by
  have hok := hi.ok t
  rw [ht] at hok
  have hc := hm.change hok hx
  have hheld : l.held = (Local.put r u ph').held := by
    rcases hl with rfl | ⟨rfl, b, q, rfl⟩ <;> rfl
  refine ⟨?_, fun t' => ?_, hc.apart hi hw hkin ht (hm.past hok.1 hx) hl⟩
  · have hlease := hm.leases hi.leases ht hx
    rw [held_update] at hlease ⊢
    rwa [hheld]
  · by_cases h : t' = t
    · subst h
      rw [Function.update_self]
      rcases hl with rfl | ⟨-, b, q, rfl⟩
      · exact hm.ok hok hx
      · trivial
    · rw [Function.update_of_ne h]
      exact hc.frame hi hw ht h

/-- **Every step of every session keeps the invariant.** -/
theorem KinInv.step (hw : ∀ p, IsPartialName p → watch p) (hkin : Kinship watch kin) (w : World T)
    (phs : T → Local) (t : T) (s : Session) (o : Sys) (a : o.Ans) (w' : World T) (l : Local)
    (hi : KinInv kin watch w phs) (_ : Local.Rel s (phs t)) (hx : World.Exec t s w o a w')
    (hm : (phs t).Move o a l) : KinInv kin watch w' (Function.update phs t l) := by
  rcases hm.effect hx.1 with ⟨hos, hfl, -, ⟨b, q, hl⟩, hl'⟩ | ⟨r, u, ph, ph', hl, hm, hl'⟩
  · refine hi.keep hos hfl ?_ (by simp [hl]) ?_ ?_
    · rcases hl' with ⟨b', q', rfl⟩ | ⟨b', f, u, -, rfl, -⟩ <;> simp [hl, Local.held, Phase.holds]
    · rcases hl' with ⟨b', q', rfl⟩ | ⟨b', f, u, -, rfl, -⟩ <;> simp [Phase.past]
    · rcases hl' with ⟨b', q', rfl⟩ | ⟨b', f, u, -, rfl, hu⟩
      · trivial
      · exact ⟨hu, by simp [Phase.past], trivial⟩
  · exact hi.upload hw hkin hl hx.1 hm hl'

theorem Inv.step (hw : ∀ p, IsPartialName p → watch p) (w : World T) (phs : T → Local) (t : T)
    (s : Session) (o : Sys) (a : o.Ans) (w' : World T) (l : Local) (hi : Inv watch w phs)
    (hrel : Local.Rel s (phs t)) (hx : World.Exec t s w o a w') (hm : (phs t).Move o a l) :
    Inv watch w' (Function.update phs t l) :=
  KinInv.step hw (.kinless watch) w phs t s o a w' l hi hrel hx hm

end Preservation

end Retriever
