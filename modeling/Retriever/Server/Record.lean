/-
# Retriever.Server.Record — the log as a record of the run

Every event of the log is a step of the run that has led here (`Server.Run.event`). The events of one
request are the operations of the handler that served it, in order, with their answers: its
transcript. So what a handler does whatever it is answered, it has done in every run
(`Server.Run.asserts`).
-/
import Retriever.Calls
import Retriever.Server.Uploads

namespace Retriever

variable {T : Type}

/-! ## Events are steps -/

section

variable [DecidableEq T] {os : Os} {s s₁ s₂ : Server T} {later past : List (Event T)} {e : Event T}

/-- The step from `s₁` to `s₂` is the one that the event records. -/
def Records (e : Event T) (s₁ s₂ : Server T) : Prop :=
  Server.Step s₁ s₂ ∧ s₂.world.log = e :: s₁.world.log

theorem exists_records (h : Server.Step s₁ s₂) : ∃ e, Records e s₁ s₂ := by
  have hstep := h
  cases h with
  | mk hn hx => exact ⟨_, hstep, hx.2⟩

/-- Every event of the log is a step of the run. -/
theorem Server.Run.event (hr : Server.Run (Server.start T os) s)
    (hlog : s.world.log = later ++ e :: past) :
    ∃ s₁ s₂, Server.Run (Server.start T os) s₁ ∧ Records e s₁ s₂ ∧ Server.Run s₂ s ∧
      s₁.world.log = past := by
  induction hr generalizing later with
  | refl => simp [Server.start] at hlog
  | @tail a b hab hstep ih =>
    obtain ⟨e', hrec⟩ := exists_records hstep
    rw [hrec.2] at hlog
    cases later with
    | nil =>
      obtain ⟨rfl, rfl⟩ := List.cons.inj hlog
      exact ⟨a, b, hab, hrec, .refl, rfl⟩
    | cons e₁ later =>
      obtain ⟨-, hlog⟩ := List.cons.inj hlog
      obtain ⟨s₁, s₂, h₁, h₂, h₃, h₄⟩ := ih hlog
      exact ⟨s₁, s₂, h₁, h₂, h₃.tail hstep, h₄⟩

/-- What the event says about the step. -/
theorem Records.exec (h : Records e s₁ s₂) :
    ∃ k, (s₁.threads e.sid).next = some ⟨e.op, k⟩ ∧
      World.Exec e.sid (s₁.threads e.sid) s₁.world e.op e.ans s₂.world ∧
      s₂.threads = Function.update s₁.threads e.sid (k e.ans) ∧
      e.request = (s₁.threads e.sid).request ∧ e.os = s₂.world.os := by
  obtain ⟨hstep, hlog⟩ := h
  cases hstep with
  | @mk t o k a w hn hx =>
    obtain rfl : _ = e := (List.cons.inj (hx.2.symm.trans hlog)).1
    exact ⟨k, hn, hx, rfl, rfl, rfl⟩

/-- The automaton of the session makes the move that the event records. -/
theorem Records.moves (h : Records e s₁ s₂) {phs : T → Local} (hs : Pool.Shows Local.Rel s₁ phs) :
    ∃ l, (phs e.sid).Move e.op e.ans l ∧
      Pool.Shows Local.Rel s₂ (Function.update phs e.sid l) := by
  obtain ⟨k, hn, -, hthreads, -, -⟩ := h.exec
  obtain ⟨l, hmove, hrel⟩ := Local.tracks _ _ _ _ (hs e.sid) hn e.ans
  refine ⟨l, hmove, ?_⟩
  have hshow := hs.update (t := e.sid) hrel s₂.world
  rw [← hthreads] at hshow
  exact hshow

/-- The disk before an event. -/
def osBefore (os : Os) : List (Event T) → Os
  | [] => os
  | e :: _ => e.os

theorem Server.Run.os_eq (hr : Server.Run (Server.start T os) s) :
    s.world.os = osBefore os s.world.log := by
  cases hr with
  | refl => rfl
  | tail _ hstep =>
    obtain ⟨e, hrec⟩ := exists_records hstep
    obtain ⟨-, -, -, -, -, hos⟩ := hrec.exec
    rw [hrec.2, ← hos]
    rfl

end

/-! ## Transcripts -/

/-- An operation with its answer. -/
abbrev Call := (o : Sys) × o.Ans

/-- The operations of a request, newest first. -/
def transcript [DecidableEq T] (t : T) (r : Request) : List (Event T) → List Call
  | [] => []
  | e :: past =>
    if e.Of t r then ⟨e.op, e.ans⟩ :: transcript t r past else transcript t r past

namespace Call

/-- A program that asserts `P` of every operation and what was done before it, whatever the
answers. -/
def env (P : List Call → Sys → Prop) : Proc.Env Sys Sys.Ans (List Call) where
  may := P
  gives tr o a tr' := tr' = ⟨o, a⟩ :: tr

end Call

/-- The handler of a request asserts `P` of its operations and `R` of all of them in the end, and so do
the `except` clauses after it. -/
def Asserts (P : List Call → Sys → Prop) (R : List Call → Prop) (p : Py Bool) (tr : List Call) :
    Prop :=
  p.wp (Call.env P) (fun _ tr => R tr)
    (fun e tr => (onError e).wp (Call.env P) (fun _ tr => R tr) (fun _ tr => R tr) tr) tr

/-- What is left of a session's program keeps to what its handler asserts, and a session that is busy
with a request has something left to do for it. -/
def Session.Asserting (P : Request → List Call → Sys → Prop) (R : Request → List Call → Prop)
    (tr : Request → List Call) : Session → Prop
  | .serving r (.call o k) => Asserts (P r) (R r) (.call o k) (tr r)
  | .failing (some r) (.call o k) =>
    (Proc.call o k).wp (Call.env (P r)) (fun _ tr => R r tr) (fun _ tr => R r tr) (tr r)
  | .serving _ _ => False
  | .failing (some _) _ => False
  | _ => True

section

variable [DecidableEq T] {os : Os} {s : Server T} {P : Request → List Call → Sys → Prop}
  {R : Request → List Call → Prop} {tr : Request → List Call} {t : T} {r : Request} {e : Event T}
  {past : List (Event T)}

theorem transcript_own (h : e.Of t r) :
    transcript t r (e :: past) = ⟨e.op, e.ans⟩ :: transcript t r past := by
  rw [transcript, if_pos h]

theorem transcript_other (h : ¬ e.Of t r) : transcript t r (e :: past) = transcript t r past := by
  rw [transcript, if_neg h]

theorem transcript_eq_nil (h : ∀ e ∈ past, ¬ e.Of t r) : transcript t r past = [] := by
  induction past with
  | nil => rfl
  | cons e past ih =>
    rw [transcript_other (h e List.mem_cons_self)]
    exact ih fun e' he' => h e' (List.mem_cons_of_mem _ he')

theorem transcript_append (later past : List (Event T)) :
    transcript t r (later ++ past) = transcript t r later ++ transcript t r past := by
  induction later with
  | nil => rfl
  | cons e later ih =>
    rw [List.cons_append]
    by_cases h : e.Of t r
    · rw [transcript_own h, transcript_own h, ih, List.cons_append]
    · rw [transcript_other h, transcript_other h, ih]

/-- The first operation of a kind that a request has done is an event of the log. -/
theorem exists_first {Q : Call → Prop} {log : List (Event T)} (h : ∃ c ∈ transcript t r log, Q c) :
    ∃ later e past, log = later ++ e :: past ∧ e.Of t r ∧ Q ⟨e.op, e.ans⟩ ∧
      ∀ c ∈ transcript t r past, ¬ Q c := by
  induction log with
  | nil =>
    obtain ⟨c, hc, -⟩ := h
    cases hc
  | cons e past ih =>
    by_cases hpast : ∃ c ∈ transcript t r past, Q c
    · obtain ⟨later, e', past', rfl, hfirst⟩ := ih hpast
      exact ⟨e :: later, e', past', rfl, hfirst⟩
    · obtain ⟨c, hc, hQ⟩ := h
      have hnone : ∀ c ∈ transcript t r past, ¬ Q c := fun c hc hQ => hpast ⟨c, hc, hQ⟩
      by_cases hof : e.Of t r
      · rw [transcript_own hof] at hc
        rcases List.mem_cons.mp hc with rfl | hc
        · exact ⟨[], e, past, rfl, hof, hQ, hnone⟩
        · exact absurd hQ (hnone c hc)
      · rw [transcript_other hof] at hc
        exact absurd hQ (hnone c hc)

omit [DecidableEq T] in
theorem Session.asserting_failing {p : Py Unit}
    (h : p.wp (Call.env (P r)) (fun _ tr => R r tr) (fun _ tr => R r tr) (tr r)) :
    (Session.settleFailing (some r) p).Asserting P R tr ∧
      ((Session.settleFailing (some r) p).request = some r ∨ R r (tr r)) := by
  cases p with
  | done | raise => exact ⟨trivial, .inr h⟩
  | call o k => exact ⟨h, .inl rfl⟩

omit [DecidableEq T] in
theorem Session.asserting_serving {p : Py Bool} (h : Asserts (P r) (R r) p (tr r)) :
    (Session.settleServing r p).Asserting P R tr ∧
      ((Session.settleServing r p).request = some r ∨ R r (tr r)) := by
  cases p with
  | done b => cases b <;> exact ⟨trivial, .inr h⟩
  | raise e => exact Session.asserting_failing h
  | call o k => exact ⟨h, .inl rfl⟩

theorem Server.Run.numbered (hr : Server.Run (Server.start T os) s) :
    Pool.Keeps Local.Rel Numbered s :=
  Pool.inv_run Local.tracks (fun _ _ _ _ _ _ _ _ hnum hrel hx hm => hnum.step hrel hx hm) hr
    ⟨_, Local.shows_start os, ⟨by simp [Server.start], by rintro t b r ⟨⟩⟩⟩

/-- A session that waits for its request number `n` has done nothing for a request of that number. -/
theorem Server.Run.transcript_new (hr : Server.Run (Server.start T os) s) {n : Nat}
    {p : Py (Option Frame)} (ht : s.threads t = .awaiting n p) (f : Frame) :
    transcript t (n, f) s.world.log = [] := by
  obtain ⟨phs, hshow, hnum⟩ := hr.numbered
  have hrel := hshow t
  rw [ht] at hrel
  apply transcript_eq_nil
  intro e he hof
  have hlt := hnum.bounded e he (n, f) hof.2
  rw [hof.1] at hlt
  generalize phs t = l at hrel hlt
  cases hrel with
  | awaiting _ => exact absurd hlt (Nat.lt_irrefl n)

/-- One operation of a session: it is one that the handler of its request asserts, the session goes on
as asserted, and a request that is over has come to its asserted end. -/
theorem Session.asserting_next {l : Session} {o : Sys} {k : o.Ans → Session} {a : o.Ans}
    {tr' : Request → List Call} (h : l.Asserting P R tr) (hn : l.next = some ⟨o, k⟩)
    (hnew : ∀ n p, l = .awaiting n p → ∀ f, Asserts (P (n, f)) (R (n, f)) (dispatch f) (tr' (n, f)))
    (hown : ∀ r, l.request = some r → tr' r = ⟨o, a⟩ :: tr r) :
    (k a).Asserting P R tr' ∧
      ∀ r, l.request = some r → P r (tr r) o ∧ ((k a).request = some r ∨ R r (tr' r)) := by
  have hfail : ∀ p : Py Unit, (Session.settleFailing none p).Asserting P R tr' := by
    intro p
    cases p <;> trivial
  cases l with
  | greeting p =>
    cases p with
    | done | raise => cases hn
    | call o' k' =>
      cases hn
      refine ⟨?_, by rintro r ⟨⟩⟩
      change (Session.settleGreeting (k' a)).Asserting P R tr'
      cases k' a with
      | done => trivial
      | raise e => exact hfail (onError e)
      | call => trivial
  | awaiting n p =>
    cases p with
    | done | raise => cases hn
    | call o' k' =>
      cases hn
      refine ⟨?_, by rintro r ⟨⟩⟩
      change (Session.settleAwaiting n (k' a)).Asserting P R tr'
      cases k' a with
      | done x =>
        cases x with
        | none => trivial
        | some f => exact (Session.asserting_serving (r := (n, f)) (hnew n _ rfl f)).1
      | raise e => exact hfail (onError e)
      | call => trivial
  | serving r p =>
    cases p with
    | done | raise => cases hn
    | call o' k' =>
      cases hn
      obtain ⟨hmay, hrest⟩ := h
      have hrest' : Asserts (P r) (R r) (k' a) (tr' r) := by
        rw [hown r rfl]
        exact hrest a _ rfl
      have hgo := Session.asserting_serving hrest'
      exact ⟨hgo.1, by rintro r' ⟨⟩; exact ⟨hmay, hgo.2⟩⟩
  | failing q p =>
    cases p with
    | done | raise => cases hn
    | call o' k' =>
      cases hn
      cases q with
      | none => exact ⟨hfail (k' a), by rintro r ⟨⟩⟩
      | some r =>
        obtain ⟨hmay, hrest⟩ := h
        have hrest' : (k' a).wp (Call.env (P r)) (fun _ tr => R r tr) (fun _ tr => R r tr)
            (tr' r) := by
          rw [hown r rfl]
          exact hrest a _ rfl
        have hgo := Session.asserting_failing hrest'
        exact ⟨hgo.1, by rintro r' ⟨⟩; exact ⟨hmay, hgo.2⟩⟩
  | closed => cases hn

/-- What the handlers assert is so in a state of the server. -/
structure Asserted (P : Request → List Call → Sys → Prop) (R : Request → List Call → Prop)
    (s : Server T) : Prop where
  sessions : ∀ t, (s.threads t).Asserting P R fun r => transcript t r s.world.log
  calls : ∀ later e past, s.world.log = later ++ e :: past → ∀ r, e.request = some r →
    P r (transcript e.sid r past) e.op
  ends : ∀ e ∈ s.world.log, ∀ r, e.request = some r → (s.threads e.sid).request ≠ some r →
    R r (transcript e.sid r s.world.log)

/-- What a session does next for its request is asserted. -/
theorem Asserted.busy (h : Asserted P R s) (hreq : (s.threads t).request = some r) :
    ∃ o, P r (transcript t r s.world.log) o := by
  have hs := h.sessions t
  revert hreq hs
  cases s.threads t with
  | serving r' p =>
    rintro ⟨⟩ hs
    cases p with
    | done | raise => exact hs.elim
    | call o k => exact ⟨o, hs.1⟩
  | failing q p =>
    rintro ⟨⟩ hs
    cases p with
    | done | raise => exact hs.elim
    | call o k => exact ⟨o, hs.1⟩
  | _ => rintro ⟨⟩

/-- **What a handler asserts holds in every run.** -/
theorem Server.Run.asserts (hP : ∀ r, Asserts (P r) (R r) (dispatch r.2) [])
    (hr : Server.Run (Server.start T os) s) : Asserted P R s := by
  induction hr with
  | refl => exact ⟨fun t => trivial, by simp [Server.start], by simp [Server.start]⟩
  | @tail a b hab hstep ih =>
    obtain ⟨e, hrec⟩ := exists_records hstep
    obtain ⟨k, hn, hx, hthreads, hreq, -⟩ := hrec.exec
    have hsame : ∀ {t r}, ¬ e.Of t r → transcript t r b.world.log = transcript t r a.world.log := by
      intro t r hof
      rw [hrec.2, transcript_other hof]
    have hnew : ∀ n p, a.threads e.sid = .awaiting n p → ∀ f, Asserts (P (n, f)) (R (n, f))
        (dispatch f) (transcript e.sid (n, f) b.world.log) := by
      intro n p hl f
      rw [hsame fun hof => ?_, Server.Run.transcript_new hab hl f]
      · exact hP (n, f)
      · rw [Event.Of, hreq, hl] at hof
        cases hof.2
    have hnext : ∀ r, (a.threads e.sid).request = some r → transcript e.sid r b.world.log =
        ⟨e.op, e.ans⟩ :: transcript e.sid r a.world.log := by
      intro r hr'
      rw [hrec.2, transcript_own ⟨rfl, hreq.trans hr'⟩]
    obtain ⟨hgo, hown⟩ := Session.asserting_next (ih.sessions e.sid) hn hnew hnext
    refine ⟨fun t => ?_, ?_, ?_⟩
    · rw [hthreads]
      by_cases ht : t = e.sid
      · subst ht
        rw [Function.update_self]
        exact hgo
      · rw [Function.update_of_ne ht]
        have htr : (fun r => transcript t r b.world.log) = fun r => transcript t r a.world.log :=
          funext fun r => hsame fun hof => ht hof.1.symm
        rw [htr]
        exact ih.sessions t
    · intro later e' past hlog r hr'
      rw [hrec.2] at hlog
      cases later with
      | nil =>
        obtain ⟨rfl, rfl⟩ := List.cons.inj hlog
        exact (hown r (hreq.symm.trans hr')).1
      | cons e₁ later =>
        obtain ⟨-, hlog⟩ := List.cons.inj hlog
        exact ih.calls later e' past hlog r hr'
    · intro e' he' r hr' hover
      by_cases hcur : (a.threads e'.sid).request = some r
      · -- the request was not over before this step, so the step was its own
        have ht : e'.sid = e.sid := by
          by_contra hne
          rw [hthreads, Function.update_of_ne hne] at hover
          exact hover hcur
        rw [ht] at hcur hover ⊢
        rw [hthreads, Function.update_self] at hover
        exact (hown r hcur).2.resolve_left hover
      · have hof : ¬ e.Of e'.sid r := by
          rintro ⟨hsid, hof⟩
          rw [← hsid, ← hreq] at hcur
          exact hcur hof
        have hmem : e' ∈ a.world.log := by
          rw [hrec.2] at he'
          rcases List.mem_cons.mp he' with rfl | he'
          · exact absurd ⟨rfl, hr'⟩ hof
          · exact he'
        rw [hsame hof]
        exact ih.ends e' hmem r hr' hcur

end

end Retriever
