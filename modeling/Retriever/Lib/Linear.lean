/-
# Retriever.Lib.Linear — linearizability by points

An object has states, and calls that it answers one at a time (`does`). A concurrent system works on
many calls at once. What it does is a list of events, newest first; an event belongs to at most one
call (`own`), and some events give the call its answer (`ends`). The system is linearizable when its
calls can be put in one order in which the object answers them as the system did, and in which a
call that was answered before another was begun comes first.

The rule is the usual one: give every call a point, an event of its own no later than its answer,
such that the object's state changes at the points only and as the call says
(`exists_linearization`). The points in the order of the events are the order that is asked for.
-/
import Mathlib.Data.List.Basic
import Mathlib.Data.List.Nodup

namespace Retriever

namespace Linear

variable {σ I R E : Type}

/-- The object answers the calls one after the other, newest first. -/
inductive Legal (does : σ → I → R → σ → Prop) (s : σ) : List (I × R) → σ → Prop
  | nil : Legal does s [] s
  | cons {s' s'' : σ} {i : I} {r : R} {calls : List (I × R)} : Legal does s calls s' →
      does s' i r s'' → Legal does s ((i, r) :: calls) s''

section

variable (own : E → Option I) (ends : E → Prop)

/-- Call `x` was answered before anything was done for call `y`. -/
def Precedes (log : List E) (x y : I) : Prop :=
  ∃ later e past, log = later ++ e :: past ∧ own e = some x ∧ ends e ∧
    ∀ e' ∈ e :: past, own e' ≠ some y

/-- The calls in an order in which the object answers them as the system did. -/
structure Linearization (does : σ → I → R → σ → Prop) (s s' : σ) (log : List E)
    (calls : List (I × R)) : Prop where
  legal : Legal does s calls s'
  nodup : (calls.map Prod.fst).Nodup
  begun : ∀ x ∈ calls, ∃ e ∈ log, own e = some x.1
  complete : ∀ e ∈ log, ∀ i, own e = some i → ends e → ∃ r, (i, r) ∈ calls
  order : ∀ x y, Precedes own ends log x y → ∀ r, (y, r) ∈ calls →
    ∃ newer older r', calls = newer ++ (x, r') :: older ∧ (y, r) ∈ newer

end

/-! ## Points -/

/-- The state before an event: the one that the event before it has left. -/
def before (after : E → σ) (s : σ) : List E → σ
  | [] => s
  | e :: _ => after e

section

variable (own : E → Option I) (pt : List E → E → R → Prop)

/-- The event, with what came before it, is the point of a call with an answer. -/
def IsPoint (past : List E) (e : E) (i : I) (r : R) : Prop := own e = some i ∧ pt past e r

/-- The calls whose points are in the log, with the answers of the points. -/
inductive Picks : List E → List (I × R) → Prop
  | nil : Picks [] []
  | skip {e : E} {past : List E} {calls : List (I × R)} :
      (∀ i r, ¬ IsPoint own pt past e i r) → Picks past calls → Picks (e :: past) calls
  | pick {e : E} {past : List E} {calls : List (I × R)} {i : I} {r : R} :
      IsPoint own pt past e i r → Picks past calls → Picks (e :: past) ((i, r) :: calls)

variable {own pt} {log past : List E} {calls : List (I × R)} {i : I} {r : R}

theorem exists_picks (log : List E) : ∃ calls, Picks own pt log calls := by
  induction log with
  | nil => exact ⟨[], .nil⟩
  | cons e past ih =>
    obtain ⟨calls, h⟩ := ih
    by_cases hp : ∃ i r, IsPoint own pt past e i r
    · obtain ⟨i, r, hp⟩ := hp
      exact ⟨_, .pick hp h⟩
    · exact ⟨calls, .skip (fun i r hir => hp ⟨i, r, hir⟩) h⟩

theorem Picks.point (h : Picks own pt log calls) (hx : (i, r) ∈ calls) :
    ∃ later e past, log = later ++ e :: past ∧ IsPoint own pt past e i r := by
  induction h with
  | nil => cases hx
  | @skip e past calls _ _ ih =>
    obtain ⟨later, e', past', rfl, hp⟩ := ih hx
    exact ⟨e :: later, e', past', rfl, hp⟩
  | @pick e past calls i' r' hp _ ih =>
    rcases List.mem_cons.mp hx with heq | hx
    · obtain ⟨rfl, rfl⟩ := Prod.mk.inj heq
      exact ⟨[], e, past, rfl, hp⟩
    · obtain ⟨later, e', past', rfl, hp'⟩ := ih hx
      exact ⟨e :: later, e', past', rfl, hp'⟩

/-- The calls up to a moment come last. -/
theorem Picks.split {later : List E} (h : Picks own pt (later ++ past) calls) :
    ∃ newer older, calls = newer ++ older ∧ Picks own pt past older := by
  induction later generalizing calls with
  | nil => exact ⟨[], calls, rfl, h⟩
  | cons e later ih =>
    rw [List.cons_append] at h
    cases h with
    | skip _ h => exact ih h
    | pick _ h =>
      obtain ⟨newer, older, rfl, ho⟩ := ih h
      exact ⟨_ :: newer, older, rfl, ho⟩

/-- A call with a point in the log is among the calls. -/
theorem Picks.mem (h : Picks own pt log calls) {later : List E} {e : E}
    (hlog : log = later ++ e :: past) (hp : IsPoint own pt past e i r) :
    ∃ r', (i, r') ∈ calls := by
  subst hlog
  obtain ⟨newer, older, rfl, ho⟩ := h.split
  cases ho with
  | skip hno _ => exact absurd hp (hno i r)
  | @pick _ _ _ i' r' hp' _ =>
    have hi : i' = i := Option.some.inj (hp'.1.symm.trans hp.1)
    subst hi
    exact ⟨r', List.mem_append_right _ List.mem_cons_self⟩

/-- A call has one point. -/
def OnePoint (own : E → Option I) (pt : List E → E → R → Prop) (log : List E) : Prop :=
  ∀ later e past i r, log = later ++ e :: past → IsPoint own pt past e i r →
    ∀ mid e' past' r', past = mid ++ e' :: past' → ¬ IsPoint own pt past' e' i r'

/-- Two points of a call are one. -/
theorem OnePoint.unique {later later' past' : List E} {e e' : E} {r' : R}
    (h : OnePoint own pt log) (hlog : log = later ++ e :: past) (hp : IsPoint own pt past e i r)
    (hlog' : log = later' ++ e' :: past') (hp' : IsPoint own pt past' e' i r') :
    e = e' ∧ past = past' := by
  rcases List.append_eq_append_iff.mp (hlog.symm.trans hlog') with
    ⟨mid, -, hsplit⟩ | ⟨mid, -, hsplit⟩
  · cases mid with
    | nil => exact List.cons.inj hsplit
    | cons _ mid =>
      obtain ⟨-, hsplit⟩ := List.cons.inj hsplit
      exact absurd hp' (h later e past i r hlog hp mid e' past' r' hsplit)
  · cases mid with
    | nil =>
      obtain ⟨rfl, rfl⟩ := List.cons.inj hsplit
      exact ⟨rfl, rfl⟩
    | cons _ mid =>
      obtain ⟨-, hsplit⟩ := List.cons.inj hsplit
      exact absurd hp (h later' e' past' i r' hlog' hp' mid e past r hsplit)

theorem OnePoint.tail {e : E} (h : OnePoint own pt (e :: past)) : OnePoint own pt past := by
  intro later e' past' i r hsplit
  exact h (e :: later) e' past' i r (by rw [hsplit]; rfl)

theorem Picks.nodup (h : Picks own pt log calls) (hone : OnePoint own pt log) :
    (calls.map Prod.fst).Nodup := by
  induction h with
  | nil => exact List.nodup_nil
  | skip _ _ ih => exact ih hone.tail
  | @pick e past calls i r hp hrest ih =>
    refine List.nodup_cons.mpr ⟨?_, ih hone.tail⟩
    intro hmem
    obtain ⟨⟨i', r'⟩, hx, heq⟩ := List.mem_map.mp hmem
    change i' = i at heq
    subst heq
    obtain ⟨mid, e', past', hsplit, hp'⟩ := hrest.point hx
    exact hone [] e past i' r rfl hp mid e' past' r' hsplit hp'

end

section Rule

variable {own : E → Option I} {pt : List E → E → R → Prop} {does : σ → I → R → σ → Prop}
  {after : E → σ} {s : σ} {log : List E} {calls : List (I × R)}

/-- What is asked of the points: the object does at a point what the call says, and nothing at any
other event. -/
structure Points (own : E → Option I) (pt : List E → E → R → Prop) (does : σ → I → R → σ → Prop)
    (after : E → σ) (s : σ) (log : List E) : Prop where
  one : OnePoint own pt log
  acts : ∀ later e past i r, log = later ++ e :: past → IsPoint own pt past e i r →
    does (before after s past) i r (after e)
  idle : ∀ later e past, log = later ++ e :: past → (∀ i r, ¬ IsPoint own pt past e i r) →
    after e = before after s past

theorem Points.tail {e : E} {past : List E} (h : Points own pt does after s (e :: past)) :
    Points own pt does after s past where
  one := h.one.tail
  acts := fun later e' past' i r hsplit => h.acts (e :: later) e' past' i r (by rw [hsplit]; rfl)
  idle := fun later e' past' hsplit => h.idle (e :: later) e' past' (by rw [hsplit]; rfl)

theorem Picks.legal (hpicks : Picks own pt log calls) (h : Points own pt does after s log) :
    Legal does s calls (before after s log) := by
  induction hpicks with
  | nil => exact .nil
  | @skip e past calls hno _ ih =>
    rw [show before after s (e :: past) = after e from rfl, h.idle [] e past rfl hno]
    exact ih h.tail
  | @pick e past calls i r hp _ ih => exact .cons (ih h.tail) (h.acts [] e past i r rfl hp)

/-- **Linearizability by points.** -/
theorem exists_linearization {ends : E → Prop} (h : Points own pt does after s log)
    (hends : ∀ later e past i, log = later ++ e :: past → own e = some i → ends e →
      ∃ mid e' past' r, e :: past = mid ++ e' :: past' ∧ IsPoint own pt past' e' i r) :
    ∃ calls, Linearization own ends does s (before after s log) log calls ∧
      ∀ i r, (i, r) ∈ calls →
        ∃ later e past, log = later ++ e :: past ∧ IsPoint own pt past e i r := by
  obtain ⟨calls, hpicks⟩ : ∃ calls, Picks own pt log calls := exists_picks log
  refine ⟨calls, ⟨hpicks.legal h, hpicks.nodup h.one, ?_, ?_, ?_⟩, fun i r => hpicks.point⟩
  · rintro ⟨i, r⟩ hx
    obtain ⟨later, e, past, rfl, hp⟩ := hpicks.point hx
    exact ⟨e, List.mem_append_right _ List.mem_cons_self, hp.1⟩
  · intro e he i hi hend
    obtain ⟨later, past, rfl⟩ := List.append_of_mem he
    obtain ⟨mid, e', past', r, hsplit, hp⟩ := hends later e past i rfl hi hend
    have hlog : later ++ e :: past = (later ++ mid) ++ e' :: past' := by
      rw [hsplit, List.append_assoc]
    exact hpicks.mem hlog hp
  · rintro x y ⟨later, e, past, rfl, hx, hend, hno⟩ r hy
    -- the point of `x` is no later than its answer, the point of `y` is after it
    obtain ⟨newer, older, rfl, hold⟩ := hpicks.split
    obtain ⟨mid, e', past', r₁, hsplit, hp⟩ := hends later e past x rfl hx hend
    obtain ⟨r', hmem⟩ := hold.mem hsplit hp
    obtain ⟨mid', older', rfl⟩ := List.append_of_mem hmem
    refine ⟨newer ++ mid', older', r', by rw [List.append_assoc], List.mem_append_left _ ?_⟩
    rcases List.mem_append.mp hy with hy | hy
    · exact hy
    · obtain ⟨later', e₂, past₂, hsplit₂, hp₂⟩ := hold.point hy
      exact absurd hp₂.1 (hno e₂ (by rw [hsplit₂]; exact List.mem_append_right _ List.mem_cons_self))

end Rule

end Linear

end Retriever
