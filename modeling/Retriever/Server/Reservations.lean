/-
# Retriever.Server.Reservations — one writer per partial

`_in_flight` is read here against the log alone: a session has reserved a partial from its own
successful test-and-add to its own discard (`reservedBy`). The set and these spans agree in every
state, whatever fails on the way. To say so for every failure, the filesystem is not trusted in
this module: a filesystem call may answer anything and leave any directory behind, and so may the
network (`World.Faulty`). Only the two sections under `_in_flight_lock` do what they say.
-/
import Retriever.Server.Publication

namespace Retriever

variable {T : Type}

/-- Any call may fail or lie; the sections under the lock work. -/
def World.Faulty (w : World T) : (o : Sys) → o.Ans → Finset Bytes → Prop
  | .recv _, _, fl | .send _, _, fl | .fs _, _, fl => fl = w.inFlight
  | .reserve p, a, fl => a = decide (p ∉ w.inFlight) ∧ fl = insert p w.inFlight
  | .discard p, _, fl => fl = w.inFlight.erase p

def World.ExecFaulty (t : T) (l : Session) (w : World T) (o : Sys) (a : o.Ans) (w' : World T) :
    Prop :=
  w.Faulty o a w'.inFlight ∧ w'.log = ⟨t, l.request, o, a, w'.os⟩ :: w.log

theorem World.Answers.faulty {w : World T} {o : Sys} {a : o.Ans} {os' : Os} {fl : Finset Bytes}
    (h : w.Answers o a os' fl) : w.Faulty o a fl := by
  cases o with
  | recv n => exact h.2.2
  | send b => exact h.2.2
  | fs o => exact h.2.2
  | reserve p => exact ⟨h.1, h.2.2⟩
  | discard p => exact h.2

/-- What an event does to the reservation of its session. -/
def Event.reservation : Event T → Option Bytes → Option Bytes
  | ⟨_, _, .reserve p, true, _⟩, _ => some p
  | ⟨_, _, .discard _, _, _⟩, _ => none
  | _, held => held

/-- What an operation other than the two under the lock does. -/
theorem Event.reservation_other {e : Event T} {held : Option Bytes}
    (hr : ∀ p, e.op ≠ .reserve p) (hd : ∀ p, e.op ≠ .discard p) : e.reservation held = held := by
  obtain ⟨t, r, o, a, os⟩ := e
  cases o with
  | recv n => rfl
  | send b => rfl
  | fs o => rfl
  | reserve p => exact absurd rfl (hr p)
  | discard p => exact absurd rfl (hd p)

theorem Sys.Quiet.not_locked {o : Sys} {r : Option Request} (h : o.Quiet r) :
    (∀ p, o ≠ .reserve p) ∧ ∀ p, o ≠ .discard p := by
  cases h <;> exact ⟨by rintro p ⟨⟩, by rintro p ⟨⟩⟩

theorem Sys.Failed.not_locked {o : Sys} {a : o.Ans} (h : Sys.Failed o a) :
    (∀ p, o ≠ .reserve p) ∧ ∀ p, o ≠ .discard p := by
  cases h <;> exact ⟨by rintro p ⟨⟩, by rintro p ⟨⟩⟩

theorem World.Faulty.same {w : World T} {o : Sys} {a : o.Ans} {fl : Finset Bytes}
    (h : w.Faulty o a fl) (hr : ∀ p, o ≠ .reserve p) (hd : ∀ p, o ≠ .discard p) :
    fl = w.inFlight := by
  cases o with
  | recv n => exact h
  | send b => exact h
  | fs o => exact h
  | reserve p => exact absurd rfl (hr p)
  | discard p => exact absurd rfl (hd p)

section

variable [DecidableEq T]

/-- Runs in which any call can go wrong. -/
abbrev Server.FaultyRun : Server T → Server T → Prop := Pool.Run Session.next World.ExecFaulty

theorem Server.Run.faulty {s s' : Server T} (h : Server.Run s s') : Server.FaultyRun s s' := by
  induction h with
  | refl => exact .refl
  | tail _ hab ih =>
    apply ih.tail
    cases hab with
    | mk hn hx => exact .mk hn ⟨hx.1.faulty, hx.2⟩

/-- The partial a session has added to `_in_flight` and not discarded yet. -/
def reservedBy (t : T) : List (Event T) → Option Bytes
  | [] => none
  | e :: past => if e.sid = t then e.reservation (reservedBy t past) else reservedBy t past

theorem reservedBy_cons (e : Event T) (log : List (Event T)) :
    (fun t => reservedBy t (e :: log)) =
      Function.update (fun t => reservedBy t log) e.sid (e.reservation (reservedBy e.sid log)) := by
  funext t
  rw [reservedBy]
  by_cases h : e.sid = t
  · subst h
    rw [if_pos rfl, Function.update_self]
  · rw [if_neg h, Function.update_of_ne (Ne.symm h)]

/-- A session discards its own reservation and nothing else. -/
def OwnDiscards (log : List (Event T)) : Prop :=
  ∀ later e past p, log = later ++ e :: past → e.op = .discard p → reservedBy e.sid past = some p

theorem OwnDiscards.cons {e : Event T} {log : List (Event T)} (h : OwnDiscards log)
    (he : ∀ p, e.op = .discard p → reservedBy e.sid log = some p) : OwnDiscards (e :: log) := by
  intro later e' past p hlog hp
  cases later with
  | nil =>
    obtain ⟨rfl, rfl⟩ := List.cons.inj hlog
    exact he p hp
  | cons e'' later => exact h later e' past p (List.cons.inj hlog).2 hp

/-- The set, the log and the phases of the sessions agree. -/
structure Reserved (w : World T) (phs : T → Local) : Prop where
  leases : Leases w.inFlight fun t => reservedBy t w.log
  held : ∀ t, (phs t).held = reservedBy t w.log
  own : OwnDiscards w.log

/-! ## One step -/

variable {w w' : World T} {phs : T → Local} {t : T}

/-- A step that leaves the reservations alone. -/
theorem Reserved.keep (hi : Reserved w phs) {e : Event T} {l : Local}
    (hlog : w'.log = e :: w.log) (ht : e.sid = t) (hr : ∀ p, e.op ≠ .reserve p)
    (hd : ∀ p, e.op ≠ .discard p) (hfl : w'.inFlight = w.inFlight) (hl : l.held = (phs t).held) :
    Reserved w' (Function.update phs t l) := by
  subst ht
  have hsame : (fun t => reservedBy t w'.log) = fun t => reservedBy t w.log := by
    rw [hlog, reservedBy_cons, Event.reservation_other hr hd, Function.update_eq_self]
  refine ⟨?_, fun t' => ?_, ?_⟩
  · rw [hsame, hfl]
    exact hi.leases
  · rw [show reservedBy t' w'.log = reservedBy t' w.log from congrFun hsame t', ← hi.held t']
    by_cases h : t' = e.sid
    · rw [h, Function.update_self, hl]
    · rw [Function.update_of_ne h]
  · rw [hlog]
    exact hi.own.cons fun p hp => absurd hp (hd p)

/-- A step that sets the reservation of its session. -/
theorem Reserved.set (hi : Reserved w phs) {e : Event T} {l : Local}
    (hlog : w'.log = e :: w.log) (ht : e.sid = t) (hl : l.held = e.reservation (reservedBy t w.log))
    (hlease : Leases w'.inFlight (Function.update (fun t => reservedBy t w.log) t l.held))
    (hown : ∀ p, e.op = .discard p → reservedBy t w.log = some p) :
    Reserved w' (Function.update phs t l) := by
  subst ht
  refine ⟨?_, fun t' => ?_, ?_⟩
  · rw [hlog, reservedBy_cons, ← hl]
    exact hlease
  · rw [show reservedBy t' w'.log = _ from congrFun (hlog ▸ reservedBy_cons e w.log) t']
    by_cases h : t' = e.sid
    · rw [h, Function.update_self, Function.update_self, hl]
    · rw [Function.update_of_ne h, Function.update_of_ne h, hi.held t']
  · rw [hlog]
    exact hi.own.cons hown

/-- A step of an upload. -/
theorem Reserved.upload (hi : Reserved w phs) {r : Request} {q : Option Request} {u : PutRequest}
    {ph ph' : Phase} {o : Sys} {a : o.Ans} {l : Local} (ht : phs t = .put r u ph)
    (hx : w.Faulty o a w'.inFlight) (hlog : w'.log = ⟨t, q, o, a, w'.os⟩ :: w.log)
    (hm : ph.Move u o a ph') (hl : l.held = (Local.put r u ph').held) :
    Reserved w' (Function.update phs t l) := by
  have hheld := hi.held t
  rw [ht] at hheld
  have hkeep : (∀ p, o ≠ .reserve p) → (∀ p, o ≠ .discard p) → ph'.holds = ph.holds →
      Reserved w' (Function.update phs t l) := by
    intro hr hd hh
    exact hi.keep hlog rfl hr hd (hx.same hr hd) (by rw [hl, ht, Local.held, Local.held, hh])
  -- the discard of an upload that holds its partial
  have hrelease : ph.holds = true → o = .discard u.partialPath → l.held = none →
      Reserved w' (Function.update phs t l) := by
    rintro hh rfl hnone
    have hmine : reservedBy t w.log = some u.partialPath := by
      rw [← hheld, Local.held, if_pos hh]
    refine hi.set hlog rfl hnone ?_ ?_
    · rw [hnone, show w'.inFlight = _ from hx]
      exact hi.leases.release hmine
    · rintro p ⟨⟩
      exact hmine
  cases hm with
  | reserve =>
    obtain ⟨ha, hfl⟩ := hx
    have hmine : reservedBy t w.log = none := hheld.symm
    refine hi.set hlog rfl hl ?_ (by rintro p ⟨⟩)
    rw [hl, hfl]
    exact hi.leases.take (of_decide_eq_true ha.symm) hmine
  | inFlight =>
    -- the partial was there already, and the session stays without one
    obtain ⟨ha, hfl⟩ := hx
    have hmem : u.partialPath ∈ w.inFlight := not_not.mp (of_decide_eq_false ha.symm)
    rw [Finset.insert_eq_of_mem hmem] at hfl
    have hmine : reservedBy t w.log = none := hheld.symm
    refine hi.set hlog rfl (hl.trans hmine.symm) ?_ (by rintro p ⟨⟩)
    rw [hl, hfl, show (Local.put r u .busy).held = reservedBy t w.log from hmine.symm,
      Function.update_eq_self]
    exact hi.leases
  | release => exact hrelease rfl rfl hl
  | giveUp => exact hrelease rfl rfl hl
  | abort htry hf => exact hkeep hf.not_locked.1 hf.not_locked.2 htry.holds.symm
  | _ => exact hkeep (by rintro p ⟨⟩) (by rintro p ⟨⟩) rfl

/-- **Every step keeps the reservations exact.** -/
theorem Reserved.step (w : World T) (phs : T → Local) (t : T) (s : Session) (o : Sys) (a : o.Ans)
    (w' : World T) (l : Local) (hi : Reserved w phs) (_ : Local.Rel s (phs t))
    (hx : World.ExecFaulty t s w o a w') (hm : (phs t).Move o a l) :
    Reserved w' (Function.update phs t l) := by
  obtain ⟨hx, hlog⟩ := hx
  rcases hm.split with ⟨hq, ⟨b, q, hl⟩, hl'⟩ | ⟨r, u, ph, ph', hl, hmove, hl'⟩
  · obtain ⟨hr, hd⟩ := hq.not_locked
    apply hi.keep hlog rfl hr hd (hx.same hr hd)
    rcases hl' with ⟨b', q', rfl⟩ | ⟨b', f, u, -, rfl, -⟩ <;> simp [hl, Local.held, Phase.holds]
  · apply hi.upload hl hx hlog hmove
    rcases hl' with rfl | ⟨rfl, b, q, rfl⟩ <;> rfl

/-- A session that has ended has no reservation. -/
theorem Local.Rel.held_closed {l : Local} (h : Local.Rel .closed l) : l.held = none := by
  cases h with
  | closed b => rfl

/-- **One writer per partial, and no reservation is lost.** In every state of every run, in which
any call of any session may fail at any time: `_in_flight` holds exactly the partials that some
session has added and not discarded; no two sessions have the same partial; what a session discards
is its own; a session that has ended has nothing left in the set, so that its partial is free again
unless another session has it. -/
theorem reservations_exact {os : Os} {s : Server T}
    (h : Server.FaultyRun (Server.start T os) s) :
    (∀ p, p ∈ s.world.inFlight ↔ ∃ t, reservedBy t s.world.log = some p) ∧
    (∀ t t' p, reservedBy t s.world.log = some p → reservedBy t' s.world.log = some p → t = t') ∧
    OwnDiscards s.world.log ∧
    ∀ t, s.threads t = .closed → reservedBy t s.world.log = none ∧
      ∀ p, (∀ t', t' ≠ t → reservedBy t' s.world.log ≠ some p) → p ∉ s.world.inFlight := by
  have hstart : Reserved (Server.start T os).world (fun _ => Local.plain 0 none) :=
    ⟨Leases.empty, fun _ => rfl, by rintro later e past p hlog; cases later <;> cases hlog⟩
  obtain ⟨phs, hshow, hi⟩ := Pool.inv_run Local.tracks Reserved.step h
    ⟨_, Local.shows_start os, hstart⟩
  refine ⟨hi.leases.mem_iff, hi.leases.unique, hi.own, fun t ht => ?_⟩
  have hnone : reservedBy t s.world.log = none := by
    have hrel := hshow t
    rw [ht] at hrel
    rw [← hi.held t, hrel.held_closed]
  refine ⟨hnone, fun p hp hmem => ?_⟩
  obtain ⟨t', ht'⟩ := (hi.leases.mem_iff p).mp hmem
  by_cases hne : t' = t
  · rw [hne, hnone] at ht'
    cases ht'
  · exact hp t' hne ht'

end

/-- Two clients upload the same file. The first has its partial reserved when the second asks, is
turned away and goes. -/
def contested : Server Bool :=
  ((Server.start Bool Os.empty).play
    (fun _ => clientBytes T_PUT (putPayload 1 (sha256 [7]) (ascii "a")) [])
    (List.replicate 6 true ++ List.replicate 8 false)).1

/-- In that run the reservation of the first client is still there. -/
theorem reservations_exact_contested :
    reservedBy true contested.world.log = some (partialName (ascii "a") (sha256 [7])) ∧
    (contested.threads false).next.isNone = true ∧
    (∀ p, p ∈ contested.world.inFlight ↔ ∃ t, reservedBy t contested.world.log = some p) := by
  have hrun : Server.FaultyRun (Server.start Bool Os.empty) contested :=
    (Server.play_run _ _ _).faulty
  exact ⟨by decide +kernel, by decide +kernel, (reservations_exact hrun).1⟩

end Retriever
