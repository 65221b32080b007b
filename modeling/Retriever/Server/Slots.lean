/-
# Retriever.Server.Slots — the accept loop of `start_server`

The main thread accepts a connection, sets its timeout, takes a permit of the semaphore `gate` and
starts a thread; each thread runs `_serve`, which gives the permit back in its `finally` clause.
Every call of the loop may raise, and the `except` clause at the bottom of the loop body goes back
to `accept`. A step is one call of the loop or one move of a session. A keyboard interrupt ends the
server and is not a step.

The permit is taken before the thread is started, and the `except` clause does not give it back:
a thread that cannot be started costs a slot for good (`slots_not_conserved`). In every run in
which each `Thread.start` succeeds the slots are conserved (`slots_conserved`).
-/
import Mathlib.Data.Finset.Card

namespace Retriever.Slots

def MAX_CLIENTS : Nat := 32

/-- Where the loop stands, with the connection in hand. -/
inductive Loop where
  | accepting
  | accepted (c : Nat)
  | limited (c : Nat)
  | acquired (c : Nat)
  deriving DecidableEq, Repr

/-- The loop, the free permits of `gate`, and the sessions: in `handle_client`, or on their way out
of `_serve`. Connections are numbered in the order they are accepted. -/
structure State where
  loop : Loop
  permits : Nat
  serving : Finset Nat
  leaving : Finset Nat
  next : Nat
  deriving DecidableEq

def start : State := ⟨.accepting, MAX_CLIENTS, ∅, ∅, 0⟩

inductive Event where
  | accept
  | acceptFails
  | settimeout
  | settimeoutFails
  | acquire
  | threadStart
  | threadStartFails
  /-- `handle_client` returns or raises. -/
  | sessionEnds (c : Nat)
  | release (c : Nat)
  deriving DecidableEq, Repr

/-- One step; `none` when it cannot happen. `acquire` waits for a permit. -/
def step (s : State) : Event → Option State
  | .accept =>
    if s.loop = .accepting then some { s with loop := .accepted s.next, next := s.next + 1 } else none
  | .acceptFails => if s.loop = .accepting then some s else none
  | .settimeout =>
    match s.loop with
    | .accepted c => some { s with loop := .limited c }
    | _ => none
  | .settimeoutFails =>
    match s.loop with
    | .accepted _ => some { s with loop := .accepting }
    | _ => none
  | .acquire =>
    match s.loop, s.permits with
    | .limited c, permits + 1 => some { s with loop := .acquired c, permits := permits }
    | _, _ => none
  | .threadStart =>
    match s.loop with
    | .acquired c => some { s with loop := .accepting, serving := insert c s.serving }
    | _ => none
  | .threadStartFails =>
    match s.loop with
    | .acquired _ => some { s with loop := .accepting }
    | _ => none
  | .sessionEnds c =>
    if c ∈ s.serving then
      some { s with serving := s.serving.erase c, leaving := insert c s.leaving }
    else none
  | .release c =>
    if c ∈ s.leaving then
      some { s with leaving := s.leaving.erase c, permits := s.permits + 1 }
    else none

def run (s : State) : List Event → Option State
  | [] => some s
  | e :: es => (step s e).bind fun s' => run s' es

/-- The sessions that have started and not given their permit back. -/
def State.sessions (s : State) : Nat := s.serving.card + s.leaving.card

/-- The permit the loop has taken for a thread it has not started yet. -/
def State.inHand (s : State) : Nat :=
  match s.loop with
  | .acquired _ => 1
  | _ => 0

/-- No connection is in two places, and every number in use has been given out. -/
structure State.Sound (s : State) : Prop where
  apart : Disjoint s.serving s.leaving
  serving_lt : ∀ c ∈ s.serving, c < s.next
  leaving_lt : ∀ c ∈ s.leaving, c < s.next
  inHand_lt : ∀ c, s.loop = .accepted c ∨ s.loop = .limited c ∨ s.loop = .acquired c →
    c < s.next ∧ c ∉ s.serving ∧ c ∉ s.leaving

/-! ## What a step can do -/

theorem step_cases {s s' : State} {e : Event} (h : step s e = some s') :
    (e = .accept ∧ s.loop = .accepting ∧
      s' = { s with loop := .accepted s.next, next := s.next + 1 }) ∨
    (e = .acceptFails ∧ s' = s) ∨
    (∃ c, e = .settimeout ∧ s.loop = .accepted c ∧ s' = { s with loop := .limited c }) ∨
    (∃ c, e = .settimeoutFails ∧ s.loop = .accepted c ∧ s' = { s with loop := .accepting }) ∨
    (∃ c n, e = .acquire ∧ s.loop = .limited c ∧ s.permits = n + 1 ∧
      s' = { s with loop := .acquired c, permits := n }) ∨
    (∃ c, e = .threadStart ∧ s.loop = .acquired c ∧
      s' = { s with loop := .accepting, serving := insert c s.serving }) ∨
    (∃ c, e = .threadStartFails ∧ s.loop = .acquired c ∧ s' = { s with loop := .accepting }) ∨
    (∃ c, e = .sessionEnds c ∧ c ∈ s.serving ∧
      s' = { s with serving := s.serving.erase c, leaving := insert c s.leaving }) ∨
    ∃ c, e = .release c ∧ c ∈ s.leaving ∧
      s' = { s with leaving := s.leaving.erase c, permits := s.permits + 1 } := by
  cases e with
  | accept =>
    simp only [step] at h
    split at h
    · next hl =>
      cases h
      exact .inl ⟨rfl, hl, rfl⟩
    · cases h
  | acceptFails =>
    simp only [step] at h
    split at h
    · cases h
      exact .inr (.inl ⟨rfl, rfl⟩)
    · cases h
  | settimeout =>
    simp only [step] at h
    split at h
    · next c hl =>
      cases h
      exact .inr (.inr (.inl ⟨c, rfl, hl, rfl⟩))
    · cases h
  | settimeoutFails =>
    simp only [step] at h
    split at h
    · next c hl =>
      cases h
      exact .inr (.inr (.inr (.inl ⟨c, rfl, hl, rfl⟩)))
    · cases h
  | acquire =>
    simp only [step] at h
    split at h
    · next c n hl hp =>
      cases h
      exact .inr (.inr (.inr (.inr (.inl ⟨c, n, rfl, hl, hp, rfl⟩))))
    · cases h
  | threadStart =>
    simp only [step] at h
    split at h
    · next c hl =>
      cases h
      exact .inr (.inr (.inr (.inr (.inr (.inl ⟨c, rfl, hl, rfl⟩)))))
    · cases h
  | threadStartFails =>
    simp only [step] at h
    split at h
    · next c hl =>
      cases h
      exact .inr (.inr (.inr (.inr (.inr (.inr (.inl ⟨c, rfl, hl, rfl⟩))))))
    · cases h
  | sessionEnds c =>
    simp only [step] at h
    split at h
    · next hc =>
      cases h
      exact .inr (.inr (.inr (.inr (.inr (.inr (.inr (.inl ⟨c, rfl, hc, rfl⟩)))))))
    · cases h
  | release c =>
    simp only [step] at h
    split at h
    · next hc =>
      cases h
      exact .inr (.inr (.inr (.inr (.inr (.inr (.inr (.inr ⟨c, rfl, hc, rfl⟩)))))))
    · cases h

theorem State.Sound.step {s s' : State} {e : Event} (hs : s.Sound) (h : step s e = some s') :
    s'.Sound := by
  obtain ⟨hd, h1, h2, h3⟩ := hs
  rcases step_cases h with ⟨-, hl, rfl⟩ | ⟨-, rfl⟩ | ⟨c, -, hl, rfl⟩ | ⟨c, -, hl, rfl⟩ |
    ⟨c, n, -, hl, hp, rfl⟩ | ⟨c, -, hl, rfl⟩ | ⟨c, -, hl, rfl⟩ | ⟨c, -, hc, rfl⟩ | ⟨c, -, hc, rfl⟩
  · refine ⟨hd, fun c hc => Nat.lt_succ_of_lt (h1 c hc), fun c hc => Nat.lt_succ_of_lt (h2 c hc), ?_⟩
    rintro c (⟨⟨⟩⟩ | ⟨⟨⟩⟩ | ⟨⟨⟩⟩)
    exact ⟨Nat.lt_succ_self _, fun hc => absurd (h1 _ hc) (lt_irrefl _),
      fun hc => absurd (h2 _ hc) (lt_irrefl _)⟩
  · exact ⟨hd, h1, h2, h3⟩
  · refine ⟨hd, h1, h2, ?_⟩
    rintro c' (⟨⟨⟩⟩ | ⟨⟨⟩⟩ | ⟨⟨⟩⟩)
    exact h3 c (.inl hl)
  · refine ⟨hd, h1, h2, ?_⟩
    rintro c' (⟨⟨⟩⟩ | ⟨⟨⟩⟩ | ⟨⟨⟩⟩)
  · refine ⟨hd, h1, h2, ?_⟩
    rintro c' (⟨⟨⟩⟩ | ⟨⟨⟩⟩ | ⟨⟨⟩⟩)
    exact h3 c (.inr (.inl hl))
  · obtain ⟨hlt, hns, hnl⟩ := h3 c (.inr (.inr hl))
    refine ⟨Finset.disjoint_insert_left.mpr ⟨hnl, hd⟩, ?_, h2, ?_⟩
    · intro c' hc'
      rcases Finset.mem_insert.mp hc' with rfl | hc'
      · exact hlt
      · exact h1 c' hc'
    · rintro c' (⟨⟨⟩⟩ | ⟨⟨⟩⟩ | ⟨⟨⟩⟩)
  · refine ⟨hd, h1, h2, ?_⟩
    rintro c' (⟨⟨⟩⟩ | ⟨⟨⟩⟩ | ⟨⟨⟩⟩)
  · refine ⟨?_, fun c' hc' => h1 c' (Finset.mem_of_mem_erase hc'), ?_, ?_⟩
    · refine Finset.disjoint_insert_right.mpr ⟨Finset.notMem_erase c _, ?_⟩
      exact hd.mono_left (Finset.erase_subset c _)
    · intro c' hc'
      rcases Finset.mem_insert.mp hc' with rfl | hc'
      · exact h1 _ hc
      · exact h2 c' hc'
    · intro c' hl
      obtain ⟨hlt, hns, hnl⟩ := h3 c' hl
      refine ⟨hlt, fun h => hns (Finset.mem_of_mem_erase h), fun h => ?_⟩
      rcases Finset.mem_insert.mp h with rfl | h
      · exact hns hc
      · exact hnl h
  · refine ⟨hd.mono_right (Finset.erase_subset c _), h1,
      fun c' hc' => h2 c' (Finset.mem_of_mem_erase hc'), ?_⟩
    intro c' hl
    obtain ⟨hlt, hns, hnl⟩ := h3 c' hl
    exact ⟨hlt, hns, fun h => hnl (Finset.mem_of_mem_erase h)⟩

/-- A step keeps the number of slots, except that a thread that cannot be started loses one. -/
theorem step_slots {s s' : State} {e : Event} (hs : s.Sound) (h : step s e = some s') :
    s'.permits + s'.sessions + s'.inHand + (if e = .threadStartFails then 1 else 0) =
      s.permits + s.sessions + s.inHand := by
  obtain ⟨hd, -, -, h3⟩ := hs
  rcases step_cases h with ⟨rfl, hl, rfl⟩ | ⟨rfl, rfl⟩ | ⟨c, rfl, hl, rfl⟩ | ⟨c, rfl, hl, rfl⟩ |
    ⟨c, n, rfl, hl, hp, rfl⟩ | ⟨c, rfl, hl, rfl⟩ | ⟨c, rfl, hl, rfl⟩ | ⟨c, rfl, hc, rfl⟩ |
    ⟨c, rfl, hc, rfl⟩
  · simp [State.sessions, State.inHand, hl]
  · simp
  · simp [State.sessions, State.inHand, hl]
  · simp [State.sessions, State.inHand, hl]
  · simp only [State.sessions, State.inHand, hl, hp, reduceCtorEq, if_false]
    omega
  · have hnew := (h3 c (.inr (.inr hl))).2.1
    simp only [State.sessions, State.inHand, hl, Finset.card_insert_of_notMem hnew, reduceCtorEq,
      if_false]
    omega
  · simp [State.sessions, State.inHand, hl]
  · have hnew : c ∉ s.leaving := Finset.disjoint_left.mp hd hc
    have hpos : 0 < s.serving.card := Finset.card_pos.mpr ⟨c, hc⟩
    simp only [State.sessions, Finset.card_insert_of_notMem hnew, Finset.card_erase_of_mem hc,
      reduceCtorEq, if_false, State.inHand]
    omega
  · have hpos : 0 < s.leaving.card := Finset.card_pos.mpr ⟨c, hc⟩
    simp only [State.sessions, Finset.card_erase_of_mem hc, reduceCtorEq, if_false, State.inHand]
    omega

/-! ## Whole runs -/

theorem run_slots {s s' : State} {es : List Event} (hs : s.Sound) (h : run s es = some s') :
    s'.permits + s'.sessions + s'.inHand + es.count .threadStartFails =
      s.permits + s.sessions + s.inHand := by
  induction es generalizing s with
  | nil =>
    cases h
    rfl
  | cons e es ih =>
    obtain ⟨s₁, h₁, h⟩ := Option.bind_eq_some_iff.mp h
    have hstep := step_slots hs h₁
    have hrest := ih (hs.step h₁) h
    rw [List.count_cons]
    by_cases he : e = .threadStartFails
    · simp only [he, if_true, beq_self_eq_true] at hstep ⊢
      omega
    · simp only [he, if_false, beq_iff_eq] at hstep ⊢
      omega

theorem start_sound : start.Sound where
  apart := by simp [start]
  serving_lt := by simp [start]
  leaving_lt := by simp [start]
  inHand_lt := by simp [start]

/-- **Slots are conserved as long as every thread starts.** In every state of every run in which no
`Thread.start` raises, whatever else fails: the free permits and the sessions that have started and
not ended, with the one in hand, are `MAX_CLIENTS` in number, and never more sessions run. -/
theorem slots_conserved {s : State} {es : List Event} (h : run start es = some s)
    (hstart : ∀ e ∈ es, e ≠ .threadStartFails) :
    s.permits + (s.sessions + s.inHand) = MAX_CLIENTS ∧ s.sessions ≤ MAX_CLIENTS := by
  have hslots := run_slots start_sound h
  have hnone : es.count .threadStartFails = 0 :=
    List.count_eq_zero.mpr fun hmem => hstart _ hmem rfl
  have h0 : start.permits + start.sessions + start.inHand = MAX_CLIENTS := rfl
  omega

/-- A session comes and goes, while two connections fail. -/
def comeAndGo : List Event :=
  [.acceptFails, .accept, .settimeout, .acquire, .threadStart, .accept, .settimeoutFails,
    .sessionEnds 0, .accept, .settimeout, .release 0, .acquire]

theorem slots_conserved_comeAndGo :
    ∃ s, run start comeAndGo = some s ∧ s.permits + (s.sessions + s.inHand) = MAX_CLIENTS := by
  obtain ⟨s, hs⟩ := Option.isSome_iff_exists.mp (show (run start comeAndGo).isSome = true by decide)
  exact ⟨s, hs, (slots_conserved hs (by decide)).1⟩

/-- **A thread that cannot be started costs a slot.** -/
theorem slots_not_conserved :
    ¬ ∀ (es : List Event) (s : State), run start es = some s →
      s.permits + (s.sessions + s.inHand) = MAX_CLIENTS := by
  intro h
  have hs : run start [.accept, .settimeout, .acquire, .threadStartFails] =
      some ⟨.accepting, 31, ∅, ∅, 1⟩ := rfl
  exact absurd (h _ _ hs) (by decide)

end Retriever.Slots
