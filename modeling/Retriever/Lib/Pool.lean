/-
# Retriever.Lib.Pool — any number of machines on one shared state

Each thread of a `Pool` is a machine that performs operations one after the other (`next`); an
operation is answered by the shared state, which it may change (`exec`). A step of the pool is one
operation of one thread, so the runs of the pool are all the interleavings of its threads.

Invariants are not proved on the machines themselves. An automaton abstracts a machine: it says
which operations a thread in a phase may perform, and its phases say what the thread knows
(`Tracks`). `Pool.inv_step` and `Pool.inv_run` turn an invariant that every move of the automaton
keeps into one that every step, and every run, of the pool keeps. `Pool.sim_pool` carries the runs of
one pool over to another.
-/
import Mathlib.Logic.Function.Basic
import Mathlib.Logic.Relation

namespace Retriever

structure Pool (T L W : Type) where
  world : W
  threads : T → L

namespace Pool

variable {T L W Op Ph : Type} [DecidableEq T] {Ans : Op → Type}
variable (next : L → Option ((o : Op) × (Ans o → L)))
variable (exec : T → L → W → (o : Op) → Ans o → W → Prop)

/-- One operation of one thread. -/
inductive Step : Pool T L W → Pool T L W → Prop
  | mk {s : Pool T L W} {t : T} {o : Op} {k : Ans o → L} {a : Ans o} {w : W} :
      next (s.threads t) = some ⟨o, k⟩ → exec t (s.threads t) s.world o a w →
      Step s ⟨w, Function.update s.threads t (k a)⟩

/-- Any number of steps. -/
def Run : Pool T L W → Pool T L W → Prop := Relation.ReflTransGen (Step next exec)

/-- Any number of steps, with a condition on the shared state from the first to the last. -/
def RunIn (P : W → Prop) (s s' : Pool T L W) : Prop :=
  P s.world ∧ Relation.ReflTransGen (fun a b => Step next exec a b ∧ P b.world) s s'

/-- Any number of steps, with a condition on the shared state before and after each of them. -/
def RunBy (R : W → W → Prop) : Pool T L W → Pool T L W → Prop :=
  Relation.ReflTransGen fun a b => Step next exec a b ∧ R a.world b.world

/-- The automaton `tr` can do whatever the machine does. -/
def Tracks (rel : L → Ph → Prop) (tr : Ph → (o : Op) → Ans o → Ph → Prop) : Prop :=
  ∀ l ph o k, rel l ph → next l = some ⟨o, k⟩ → ∀ a, ∃ ph', tr ph o a ph' ∧ rel (k a) ph'

/-- Every thread is in the phase given for it. -/
def Shows (rel : L → Ph → Prop) (s : Pool T L W) (phs : T → Ph) : Prop :=
  ∀ t, rel (s.threads t) (phs t)

/-- The automaton's phases can be chosen such that an invariant of shared state and phases holds. -/
def Keeps (rel : L → Ph → Prop) (Inv : W → (T → Ph) → Prop) (s : Pool T L W) : Prop :=
  ∃ phs, Shows rel s phs ∧ Inv s.world phs

variable {next exec} {rel : L → Ph → Prop} {tr : Ph → (o : Op) → Ans o → Ph → Prop}
variable {Inv : W → (T → Ph) → Prop}

theorem Shows.update {s : Pool T L W} {phs : T → Ph} (h : Shows rel s phs) {t : T} {l : L} {ph : Ph}
    (hl : rel l ph) (w : W) :
    Shows rel (⟨w, Function.update s.threads t l⟩ : Pool T L W) (Function.update phs t ph) := by
  intro t'
  by_cases ht : t' = t
  · subst ht
    simpa using hl
  · simpa [ht] using h t'

/-- One step of the pool is one move of the automaton. -/
theorem step_moves (htr : Tracks next rel tr) {s s' : Pool T L W} (h : Step next exec s s')
    {phs : T → Ph} (hs : Shows rel s phs) :
    ∃ t o a ph', exec t (s.threads t) s.world o a s'.world ∧ tr (phs t) o a ph' ∧
      Shows rel s' (Function.update phs t ph') := by
  cases h with
  | @mk t o k a w hn hx =>
    obtain ⟨ph', hmove, hrel⟩ := htr _ _ _ _ (hs t) hn a
    exact ⟨t, o, a, ph', hx, hmove, hs.update hrel w⟩

/-- **Invariant rule, one step.** -/
theorem inv_step (htr : Tracks next rel tr)
    (hInv : ∀ w phs t l o a w' ph', Inv w phs → rel l (phs t) → exec t l w o a w' →
      tr (phs t) o a ph' → Inv w' (Function.update phs t ph'))
    {s s' : Pool T L W} (h : Step next exec s s') (hk : Keeps rel Inv s) : Keeps rel Inv s' := by
  obtain ⟨phs, hs, hi⟩ := hk
  obtain ⟨t, o, a, ph', hx, hmove, hs'⟩ := step_moves htr h hs
  exact ⟨_, hs', hInv _ _ t _ o a _ ph' hi (hs t) hx hmove⟩

/-- **Invariant rule, whole runs.** -/
theorem inv_run (htr : Tracks next rel tr)
    (hInv : ∀ w phs t l o a w' ph', Inv w phs → rel l (phs t) → exec t l w o a w' →
      tr (phs t) o a ph' → Inv w' (Function.update phs t ph'))
    {s s' : Pool T L W} (h : Run next exec s s') (hk : Keeps rel Inv s) : Keeps rel Inv s' := by
  induction h with
  | refl => exact hk
  | tail _ hab ih => exact inv_step htr hInv hab ih

/-- **Simulation rule, runs under a condition.** Here the phase after a step is chosen knowing the
shared state, for programs whose answers mean something only there. -/
theorem sim_runIn {P : W → Prop}
    (hsim : ∀ w phs t l o k a w', Inv w phs → P w → rel l (phs t) → next l = some ⟨o, k⟩ →
      exec t l w o a w' → ∃ ph', rel (k a) ph' ∧ Inv w' (Function.update phs t ph'))
    {s s' : Pool T L W} (h : RunIn next exec P s s') (hk : Keeps rel Inv s) :
    Keeps rel Inv s' := by
  obtain ⟨hs, hr⟩ := h
  have hboth : Keeps rel Inv s' ∧ P s'.world := by
    induction hr with
    | refl => exact ⟨hk, hs⟩
    | tail _ hab ih =>
      refine ⟨?_, hab.2⟩
      obtain ⟨⟨phs, hshow, hi⟩, hP⟩ := ih
      cases hab.1 with
      | @mk t o k a w hn hx =>
        obtain ⟨ph', hrel, hi'⟩ := hsim _ phs t _ o k a _ hi hP (hshow t) hn hx
        exact ⟨_, hshow.update hrel w, hi'⟩
  exact hboth.1

/-- **Invariant rule, runs under a condition.** The step may use the condition before it. -/
theorem inv_runIn (htr : Tracks next rel tr) {P : W → Prop}
    (hInv : ∀ w phs t l o a w' ph', Inv w phs → P w → rel l (phs t) → exec t l w o a w' →
      tr (phs t) o a ph' → Inv w' (Function.update phs t ph'))
    {s s' : Pool T L W} (h : RunIn next exec P s s') (hk : Keeps rel Inv s) :
    Keeps rel Inv s' := by
  refine sim_runIn ?_ h hk
  intro w phs t l o k a w' hi hP hrel hn hx
  obtain ⟨ph', hmove, hrel'⟩ := htr l (phs t) o k hrel hn a
  exact ⟨ph', hrel', hInv w phs t l o a w' ph' hi hP hrel hx hmove⟩

theorem RunBy.mono {R R' : W → W → Prop} (hR : ∀ w w', R w w' → R' w w') {s s' : Pool T L W}
    (h : RunBy next exec R s s') : RunBy next exec R' s s' := by
  induction h with
  | refl => exact .refl
  | tail _ hab ih => exact .tail ih ⟨hab.1, hR _ _ hab.2⟩

/-- **Invariant rule, runs whose steps meet a condition.** -/
theorem inv_runBy (htr : Tracks next rel tr) {R : W → W → Prop}
    (hInv : ∀ w phs t l o a w' ph', Inv w phs → R w w' → rel l (phs t) → exec t l w o a w' →
      tr (phs t) o a ph' → Inv w' (Function.update phs t ph'))
    {s s' : Pool T L W} (h : RunBy next exec R s s') (hk : Keeps rel Inv s) :
    Keeps rel Inv s' := by
  induction h with
  | refl => exact hk
  | tail _ hab ih =>
    obtain ⟨phs, hs, hi⟩ := ih
    obtain ⟨t, o, a, ph', hx, hmove, hs'⟩ := step_moves htr hab.1 hs
    exact ⟨_, hs', hInv _ _ t _ o a _ ph' hi hab.2 (hs t) hx hmove⟩

/-! ## One pool that does what another does -/

section Simulation

variable {L' W' Op' : Type} {Ans' : Op' → Type}
variable {next' : L' → Option ((o : Op') × (Ans' o → L'))}
variable {exec' : T → L' → W' → (o : Op') → Ans' o → W' → Prop}

/-- Thread by thread two pools are in related places, and so are their shared states. -/
def Mirrors (rel : Ph → L → L' → Prop) (R : W → W' → (T → Ph) → Prop) (s : Pool T L W)
    (s' : Pool T L' W') : Prop :=
  ∃ phs, R s.world s'.world phs ∧ ∀ t, rel (phs t) (s.threads t) (s'.threads t)

theorem mirrors_update {rel : Ph → L → L' → Prop} {phs : T → Ph} {ths : T → L} {ths' : T → L'} {t : T}
    {ph : Ph} {l : L} {l' : L'} (h : ∀ u, rel (phs u) (ths u) (ths' u)) (hl : rel ph l l') (u : T) :
    rel (Function.update phs t ph u) (Function.update ths t l u) (Function.update ths' t l' u) := by
  by_cases hu : u = t
  · subst hu
    simpa using hl
  · simpa [hu] using h u

/-- **Simulation rule, one pool by another.** Where every operation of a thread of the first pool is
one of the same thread of the second pool, or nothing there, the second pool has a run for every run of
the first. -/
theorem sim_pool {rel : Ph → L → L' → Prop} {R : W → W' → (T → Ph) → Prop}
    (hsim : ∀ w w' phs t l l' o k a w₁, R w w' phs → rel (phs t) l l' → next l = some ⟨o, k⟩ →
      exec t l w o a w₁ →
      (∃ ph, rel ph (k a) l' ∧ R w₁ w' (Function.update phs t ph)) ∨
      ∃ ph o' k' a' w₁', next' l' = some ⟨o', k'⟩ ∧ exec' t l' w' o' a' w₁' ∧ rel ph (k a) (k' a') ∧
        R w₁ w₁' (Function.update phs t ph))
    {s s₁ : Pool T L W} {s' : Pool T L' W'} (h : Run next exec s s₁) (hm : Mirrors rel R s s') :
    ∃ s₁', Run next' exec' s' s₁' ∧ Mirrors rel R s₁ s₁' := by
  induction h with
  | refl => exact ⟨s', .refl, hm⟩
  | tail _ hab ih =>
    obtain ⟨s₁', hrun, phs, hR, hrel⟩ := ih
    cases hab with
    | @mk t o k a w hn hx =>
      rcases hsim _ _ phs t _ _ o k a w hR (hrel t) hn hx with
        ⟨ph, hk, hR'⟩ | ⟨ph, o', k', a', w₁', hn', hx', hk, hR'⟩
      · refine ⟨s₁', hrun, _, hR', fun u => ?_⟩
        have h := mirrors_update (t := t) hrel hk u
        rwa [Function.update_eq_self] at h
      · exact ⟨_, hrun.tail (.mk hn' hx'), _, hR', mirrors_update hrel hk⟩

end Simulation

end Pool

end Retriever
