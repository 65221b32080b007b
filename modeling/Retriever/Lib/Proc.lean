/-
# Retriever.Lib.Proc — programs that call out to an environment

`Proc Op Ans ε α` is a program that computes a value of type `α` or raises an exception of type `ε`,
and on the way asks its environment to perform operations `o : Op`, each answered by some
`Ans o`. It is a well-founded tree: every branch ends, so a program of this type cannot loop for
ever on its own, and a definition by recursion over the tree is a definition by recursion over the
program's remaining steps.

Three readings of one program are developed here:

* `Proc.Runs`, the complete runs of the program against an environment with a state, and
  `Proc.Reaches`, the runs that stop on the way;
* `Proc.wp`, the weakest precondition of the program, with the usual rules (`wp_bind`,
  `wp_tryCatch`) and the theorem that it speaks about every run (`wp_runs`);
* `Proc.Uses` and `Proc.Follows`, which operations the program performs and in which order, for
  arbitrary answers: all of them are of a given kind, or they are a path of an automaton.

`Proc.interp` is the program with its operations carried out by programs over other operations.
-/
import Mathlib.Logic.Basic

namespace Retriever

/-- A program over operations `Op` with answers `Ans`, exceptions `ε` and result `α`. -/
inductive Proc (Op : Type) (Ans : Op → Type) (ε α : Type) : Type
  | done (a : α)
  | raise (e : ε)
  | call (o : Op) (k : Ans o → Proc Op Ans ε α)

namespace Proc

variable {Op : Type} {Ans : Op → Type} {ε α β : Type}

/-! ## The monad -/

protected def bind : Proc Op Ans ε α → (α → Proc Op Ans ε β) → Proc Op Ans ε β
  | done a, f => f a
  | raise e, _ => raise e
  | call o k, f => call o fun x => (k x).bind f

instance : Monad (Proc Op Ans ε) where
  pure := done
  bind := Proc.bind

/-- `try p except e: h e`. -/
def tryCatch : Proc Op Ans ε α → (ε → Proc Op Ans ε α) → Proc Op Ans ε α
  | done a, _ => done a
  | raise e, h => h e
  | call o k, h => call o fun x => (k x).tryCatch h

instance : MonadExceptOf ε (Proc Op Ans ε) where
  throw := raise
  tryCatch := tryCatch

/-- `try: p finally: fin`. -/
def ensure (fin : Proc Op Ans ε Unit) : Proc Op Ans ε α → Proc Op Ans ε α
  | done a => fin.bind fun _ => done a
  | raise e => fin.bind fun _ => raise e
  | call o k => call o fun x => ensure fin (k x)

/-- Perform one operation and return its answer. -/
def perform (o : Op) : Proc Op Ans ε (Ans o) := call o done

/-- An answer that may be an exception. -/
def ofExcept : Except ε α → Proc Op Ans ε α
  | .ok a => done a
  | .error e => raise e

@[simp] theorem pure_eq (a : α) : (pure a : Proc Op Ans ε α) = done a := rfl

@[simp] theorem throw_eq (e : ε) : (throw e : Proc Op Ans ε α) = raise e := rfl

@[simp] theorem done_bind (a : α) (f : α → Proc Op Ans ε β) : (done a >>= f) = f a := rfl

@[simp] theorem raise_bind (e : ε) (f : α → Proc Op Ans ε β) :
    ((raise e : Proc Op Ans ε α) >>= f) = raise e := rfl

@[simp] theorem call_bind (o : Op) (k : Ans o → Proc Op Ans ε α) (f : α → Proc Op Ans ε β) :
    (call o k >>= f) = call o fun x => k x >>= f := rfl

@[simp] theorem ofExcept_ok (a : α) : (ofExcept (.ok a) : Proc Op Ans ε α) = done a := rfl

@[simp] theorem ofExcept_error (e : ε) : (ofExcept (.error e) : Proc Op Ans ε α) = raise e := rfl

theorem bind_assoc' (p : Proc Op Ans ε α) {γ : Type} (f : α → Proc Op Ans ε β)
    (g : β → Proc Op Ans ε γ) : (p >>= f) >>= g = p >>= fun a => f a >>= g := by
  induction p with
  | done a => rfl
  | raise e => rfl
  | call o k ih =>
    simp only [call_bind]
    congr 1
    funext x
    exact ih x

theorem id_map' {α : Type} (p : Proc Op Ans ε α) : id <$> p = p := by
  induction p with
  | done a => rfl
  | raise e => rfl
  | call o k ih =>
    change call o (fun x => id <$> k x) = _
    congr 1
    funext x
    exact ih x

instance : LawfulMonad (Proc Op Ans ε) :=
  LawfulMonad.mk' _ (fun p => id_map' p) (fun _ _ => rfl) fun p f g => bind_assoc' p f g

/-! ## Runs and weakest preconditions -/

/-- What a program may ask of its environment, and what the environment can answer. -/
structure Env (Op : Type) (Ans : Op → Type) (S : Type) where
  may : S → Op → Prop
  gives : S → (o : Op) → Ans o → S → Prop

section Sequential

variable {S : Type} (env : Env Op Ans S)

/-- The complete runs of a program against an environment. -/
inductive Runs : Proc Op Ans ε α → S → Except ε α → S → Prop
  | done (a : α) (s : S) : Runs (done a) s (.ok a) s
  | raise (e : ε) (s : S) : Runs (raise e) s (.error e) s
  | call {o : Op} {k : Ans o → Proc Op Ans ε α} {s s' s'' : S} {a : Ans o} {r : Except ε α} :
      env.gives s o a s' → Runs (k a) s' r s'' → Runs (call o k) s r s''

/-- Every run of the program from the state asks only for what it may ask for, and ends with a value
in `Q` or an exception in `E`. -/
def wp : Proc Op Ans ε α → (α → S → Prop) → (ε → S → Prop) → S → Prop
  | .done a, Q, _, s => Q a s
  | .raise e, _, E, s => E e s
  | .call o k, Q, E, s => env.may s o ∧ ∀ a s', env.gives s o a s' → (k a).wp Q E s'

variable {env} {Q : α → S → Prop} {E : ε → S → Prop} {s : S}

@[simp] theorem wp_done (a : α) : (done a : Proc Op Ans ε α).wp env Q E s ↔ Q a s := Iff.rfl

@[simp] theorem wp_raise (e : ε) : (raise e : Proc Op Ans ε α).wp env Q E s ↔ E e s := Iff.rfl

theorem wp_perform {o : Op} {Q : Ans o → S → Prop} :
    (perform o : Proc Op Ans ε (Ans o)).wp env Q E s ↔
      env.may s o ∧ ∀ a s', env.gives s o a s' → Q a s' := Iff.rfl

theorem wp_mono {p : Proc Op Ans ε α} {Q' : α → S → Prop} {E' : ε → S → Prop}
    (h : p.wp env Q E s) (hQ : ∀ a s, Q a s → Q' a s) (hE : ∀ e s, E e s → E' e s) :
    p.wp env Q' E' s := by
  induction p generalizing s with
  | done a => exact hQ a s h
  | raise e => exact hE e s h
  | call o k ih => exact ⟨h.1, fun a s' ha => ih a (h.2 a s' ha)⟩

theorem wp_bind {p : Proc Op Ans ε α} {f : α → Proc Op Ans ε β} {Q : β → S → Prop} :
    (p >>= f).wp env Q E s ↔ p.wp env (fun a s => (f a).wp env Q E s) E s := by
  induction p generalizing s with
  | done a => rfl
  | raise e => rfl
  | call o k ih =>
    exact and_congr_right fun _ => forall_congr' fun a => forall_congr' fun s' =>
      forall_congr' fun _ => ih a

theorem wp_tryCatch {p : Proc Op Ans ε α} {h : ε → Proc Op Ans ε α} :
    (p.tryCatch h).wp env Q E s ↔ p.wp env Q (fun e s => (h e).wp env Q E s) s := by
  induction p generalizing s with
  | done a => rfl
  | raise e => rfl
  | call o k ih =>
    exact and_congr_right fun _ => forall_congr' fun a => forall_congr' fun s' =>
      forall_congr' fun _ => ih a

/-- The rule for runs: what holds by `wp` holds at the end of every complete run. -/
theorem wp_runs {p : Proc Op Ans ε α} {s s' : S} {r : Except ε α} (h : p.wp env Q E s)
    (hr : Runs env p s r s') : (∃ a, r = .ok a ∧ Q a s') ∨ ∃ e, r = .error e ∧ E e s' := by
  induction hr with
  | done a s => exact .inl ⟨a, rfl, h⟩
  | raise e s => exact .inr ⟨e, rfl, h⟩
  | call hx _ ih => exact ih (h.2 _ _ hx)

/-- The environment as far as its answers are of a kind. -/
def Env.restrict (env : Env Op Ans S) (ok : (o : Op) → Ans o → Prop) : Env Op Ans S where
  may := env.may
  gives s o a s' := env.gives s o a s' ∧ ok o a

theorem wp_restrict {ok : (o : Op) → Ans o → Prop} {p : Proc Op Ans ε α} (h : p.wp env Q E s) :
    p.wp (env.restrict ok) Q E s := by
  induction p generalizing s with
  | done a => exact h
  | raise e => exact h
  | call o k ih => exact ⟨h.1, fun a s' ha => ih a (h.2 a s' ha.1)⟩

/-! ### Programs whose environment leaves them no choice -/

variable (env)

/-- However the environment answers, the program ends with `r` in the state `s'`. -/
def Yields (p : Proc Op Ans ε α) (s : S) (r : Except ε α) (s' : S) : Prop :=
  p.wp env (fun a t => r = .ok a ∧ t = s') (fun e t => r = .error e ∧ t = s') s

/-- From every state there is one outcome only. -/
def Determinate (p : Proc Op Ans ε α) : Prop := ∀ s, ∃ r s', Yields env p s r s'

variable {env} {p : Proc Op Ans ε α} {f : α → Proc Op Ans ε β} {s' s₁ : S} {a : α} {e : ε}

theorem Yields.unique {r r' : Except ε α} (h : Yields env p s r s') (hr : Runs env p s r' s₁) :
    r' = r ∧ s₁ = s' := by
  rcases wp_runs h hr with ⟨a, ha, hr', hs⟩ | ⟨e, he, hr', hs⟩
  · exact ⟨ha.trans hr'.symm, hs⟩
  · exact ⟨he.trans hr'.symm, hs⟩

theorem Yields.wp {r : Except ε α} {Q : α → S → Prop} {E : ε → S → Prop}
    (h : Yields env p s r s') (hQ : ∀ a, r = .ok a → Q a s') (hE : ∀ e, r = .error e → E e s') :
    p.wp env Q E s := by
  refine wp_mono h ?_ ?_
  · rintro a t ⟨ha, rfl⟩
    exact hQ a ha
  · rintro e t ⟨he, rfl⟩
    exact hE e he

theorem yields_done (a : α) (s : S) : Yields env (done a : Proc Op Ans ε α) s (.ok a) s := ⟨rfl, rfl⟩

theorem yields_raise (e : ε) (s : S) : Yields env (raise e : Proc Op Ans ε α) s (.error e) s :=
  ⟨rfl, rfl⟩

theorem yields_ofExcept (r : Except ε α) (s : S) :
    Yields env (ofExcept r : Proc Op Ans ε α) s r s := by
  cases r with
  | ok a => exact yields_done a s
  | error e => exact yields_raise e s

theorem yields_call {o : Op} {k : Ans o → Proc Op Ans ε α} {x : Ans o} {r : Except ε α}
    (hmay : env.may s o) (hx : ∀ a t, env.gives s o a t → a = x ∧ t = s₁)
    (h : Yields env (k x) s₁ r s') : Yields env (call o k) s r s' := by
  refine ⟨hmay, fun a t ha => ?_⟩
  obtain ⟨rfl, rfl⟩ := hx a t ha
  exact h

theorem Yields.bind {r : Except ε β} (h : Yields env p s (.ok a) s₁)
    (hf : Yields env (f a) s₁ r s') : Yields env (p >>= f) s r s' := by
  refine wp_bind.mpr (wp_mono h ?_ ?_)
  · rintro a' t ⟨ha, rfl⟩
    cases ha
    exact hf
  · rintro e t ⟨he, -⟩
    cases he

theorem Yields.bind_error (h : Yields env p s (.error e) s₁) :
    Yields env (p >>= f) s (.error e) s₁ := by
  refine wp_bind.mpr (wp_mono h ?_ ?_)
  · rintro a t ⟨ha, -⟩
    cases ha
  · rintro e' t ⟨he, rfl⟩
    cases he
    exact ⟨rfl, rfl⟩

theorem Yields.tryCatch {h : ε → Proc Op Ans ε α} (hp : Yields env p s (.ok a) s₁) :
    Yields env (p.tryCatch h) s (.ok a) s₁ := by
  refine wp_tryCatch.mpr (wp_mono hp (fun _ _ hq => hq) ?_)
  rintro e t ⟨he, -⟩
  cases he

theorem Yields.tryCatch_error {h : ε → Proc Op Ans ε α} {r : Except ε α}
    (hp : Yields env p s (.error e) s₁) (hh : Yields env (h e) s₁ r s') :
    Yields env (p.tryCatch h) s r s' := by
  refine wp_tryCatch.mpr (wp_mono hp ?_ ?_)
  · rintro a t ⟨ha, -⟩
    cases ha
  · rintro e' t ⟨he, rfl⟩
    cases he
    exact hh

theorem wp_ensure {fin : Proc Op Ans ε Unit} {Q : α → S → Prop} {E : ε → S → Prop} :
    (ensure fin p).wp env Q E s ↔
      p.wp env (fun a s => fin.wp env (fun _ s => Q a s) E s)
        (fun e s => fin.wp env (fun _ s => E e s) E s) s := by
  induction p generalizing s with
  | done a => exact wp_bind
  | raise e => exact wp_bind
  | call o k ih =>
    exact and_congr_right fun _ => forall_congr' fun a => forall_congr' fun s' =>
      forall_congr' fun _ => ih a

/-- The clause at the end does not fail. -/
theorem Yields.ensure {fin : Proc Op Ans ε Unit} {r : Except ε α} (hp : Yields env p s r s₁)
    (hfin : Yields env fin s₁ (.ok ()) s') : Yields env (Proc.ensure fin p) s r s' := by
  refine wp_ensure.mpr (wp_mono hp ?_ ?_)
  · rintro a t ⟨rfl, rfl⟩
    apply wp_mono hfin (fun _ t ht => ⟨rfl, ht.2⟩)
    rintro e t ⟨he, -⟩
    cases he
  · rintro e t ⟨rfl, rfl⟩
    apply wp_mono hfin (fun _ t ht => ⟨rfl, ht.2⟩)
    rintro e t ⟨he, -⟩
    cases he

theorem Determinate.done (a : α) : Determinate env (done a : Proc Op Ans ε α) := fun s =>
  ⟨_, s, yields_done a s⟩

theorem Determinate.raise (e : ε) : Determinate env (raise e : Proc Op Ans ε α) := fun s =>
  ⟨_, s, yields_raise e s⟩

theorem Determinate.ofExcept (r : Except ε α) : Determinate env (ofExcept r : Proc Op Ans ε α) :=
  fun s => ⟨r, s, yields_ofExcept r s⟩

theorem Determinate.bind (hp : Determinate env p) (hf : ∀ a, Determinate env (f a)) :
    Determinate env (p >>= f) := by
  intro s
  obtain ⟨r, s₁, h⟩ := hp s
  cases r with
  | ok a =>
    obtain ⟨r', s', h'⟩ := hf a s₁
    exact ⟨r', s', h.bind h'⟩
  | error e => exact ⟨_, s₁, h.bind_error⟩

theorem Determinate.tryCatch {h : ε → Proc Op Ans ε α} (hp : Determinate env p)
    (hh : ∀ e, Determinate env (h e)) : Determinate env (p.tryCatch h) := by
  intro s
  obtain ⟨r, s₁, hy⟩ := hp s
  cases r with
  | ok a => exact ⟨_, s₁, hy.tryCatch⟩
  | error e =>
    obtain ⟨r', s', h'⟩ := hh e s₁
    exact ⟨r', s', hy.tryCatch_error h'⟩

/-- An operation with one answer. -/
theorem Determinate.perform {o : Op}
    (h : ∀ s, env.may s o ∧ ∃ x s', ∀ a t, env.gives s o a t → a = x ∧ t = s') :
    Determinate env (Proc.perform o : Proc Op Ans ε (Ans o)) := by
  intro s
  obtain ⟨hmay, x, s', hx⟩ := h s
  exact ⟨.ok x, s', yields_call hmay hx (yields_done x s')⟩

/-- An environment that always has an answer lets every program run to its end. -/
theorem exists_runs (hlive : ∀ s o, ∃ a s', env.gives s o a s') (p : Proc Op Ans ε α) (s : S) :
    ∃ r s', Runs env p s r s' := by
  induction p generalizing s with
  | done a => exact ⟨_, s, .done a s⟩
  | raise e => exact ⟨_, s, .raise e s⟩
  | call o k ih =>
    obtain ⟨a, s₁, ha⟩ := hlive s o
    obtain ⟨r, s', hr⟩ := ih a s₁
    exact ⟨r, s', .call ha hr⟩

/-- The program runs to an end, and every end is of a kind. -/
def Ensures (env : Env Op Ans S) (p : Proc Op Ans ε α) (s : S) (P : Except ε α → S → Prop) : Prop :=
  (∃ r s', Runs env p s r s') ∧ ∀ r s', Runs env p s r s' → P r s'

theorem ensures_of_wp (hlive : ∀ s o, ∃ a s', env.gives s o a s') {P : Except ε α → S → Prop}
    (h : p.wp env (fun a => P (.ok a)) (fun e => P (.error e)) s) : Ensures env p s P := by
  refine ⟨exists_runs hlive p s, fun r s' hr => ?_⟩
  rcases wp_runs h hr with ⟨a, rfl, ha⟩ | ⟨e, rfl, he⟩
  · exact ha
  · exact he

/-! ### Runs that stop on the way -/

variable (env)

/-- From `p` in the state `s` the program can come to the point where `p'` is left to do. -/
inductive Reaches : Proc Op Ans ε α → S → Proc Op Ans ε α → S → Prop
  | refl (p : Proc Op Ans ε α) (s : S) : Reaches p s p s
  | call {o : Op} {k : Ans o → Proc Op Ans ε α} {p' : Proc Op Ans ε α} {s s₁ s' : S} {a : Ans o} :
      env.gives s o a s₁ → Reaches (k a) s₁ p' s' → Reaches (call o k) s p' s'

variable {env} {p' p'' : Proc Op Ans ε α} {s₂ : S}

theorem Reaches.trans (h₁ : Reaches env p s p' s₁) (h₂ : Reaches env p' s₁ p'' s₂) :
    Reaches env p s p'' s₂ := by
  induction h₁ with
  | refl => exact h₂
  | call hx _ ih => exact .call hx (ih h₂)

theorem Reaches.bind (h : Reaches env p s p' s₁) (f : α → Proc Op Ans ε β) :
    Reaches env (p >>= f) s (p' >>= f) s₁ := by
  induction h with
  | refl p s => exact .refl _ _
  | call hx _ ih => exact .call hx ih

theorem Reaches.ensure (h : Reaches env p s p' s₁) (fin : Proc Op Ans ε Unit) :
    Reaches env (Proc.ensure fin p) s (Proc.ensure fin p') s₁ := by
  induction h with
  | refl p s => exact .refl _ _
  | call hx _ ih => exact .call hx ih

theorem Runs.reaches {r : Except ε α} (h : Runs env p s r s') :
    Reaches env p s (ofExcept r) s' := by
  induction h with
  | done a s => exact .refl _ _
  | raise e s => exact .refl _ _
  | call hx _ ih => exact .call hx ih

theorem Reaches.wp {Q : α → S → Prop} {E : ε → S → Prop} (h : Reaches env p s p' s₁)
    (hwp : p.wp env Q E s) : p'.wp env Q E s₁ := by
  induction h with
  | refl => exact hwp
  | call hx _ ih => exact ih (hwp.2 _ _ hx)

/-- Every call that the program comes to is one that it may make. -/
def Allowed (env : Env Op Ans S) (p : Proc Op Ans ε α) (s : S) : Prop :=
  ∀ o k s', Reaches env p s (.call o k) s' → env.may s' o

theorem allowed_of_wp {Q : α → S → Prop} {E : ε → S → Prop} (h : p.wp env Q E s) : Allowed env p s := by
  intro o k s' hr
  exact (hr.wp h).1

/-- A program that leaves its environment no choice comes to its end. -/
theorem Yields.reaches (hlive : ∀ s o, ∃ a s', env.gives s o a s') {r : Except ε α}
    (h : Yields env p s r s') : Reaches env p s (ofExcept r) s' := by
  obtain ⟨r', s₁, hrun⟩ := exists_runs hlive p s
  obtain ⟨rfl, rfl⟩ := h.unique hrun
  exact hrun.reaches

end Sequential

/-! ## Programs that only ask -/

/-- The result of a program whose operations are answered by a function. -/
def eval (f : (o : Op) → Ans o) : Proc Op Ans ε α → Except ε α
  | .done a => .ok a
  | .raise e => .error e
  | .call o k => (k (f o)).eval f

@[simp] theorem eval_perform_bind (f : (o : Op) → Ans o) {β : Type} (o : Op)
    (k : Ans o → Proc Op Ans ε β) : (perform o >>= k).eval f = (k (f o)).eval f := rfl

/-! ## Operations of a kind -/

section Kinds

variable {A : Op → Prop} {X : ε → Prop}

/-- Whatever the answers, the program performs operations of kind `A` only and raises exceptions of
kind `X` only. -/
def Uses (A : Op → Prop) (X : ε → Prop) : Proc Op Ans ε α → Prop
  | .done _ => True
  | .raise e => X e
  | .call o k => A o ∧ ∀ a, (k a).Uses A X

theorem uses_perform {o : Op} (h : A o) : (perform o : Proc Op Ans ε (Ans o)).Uses A X :=
  ⟨h, fun _ => trivial⟩

theorem uses_ofExcept {x : Except ε α} (h : ∀ e, x = .error e → X e) :
    (ofExcept x : Proc Op Ans ε α).Uses A X := by
  cases x with
  | ok a => trivial
  | error e => exact h e rfl

theorem uses_bind {p : Proc Op Ans ε α} {f : α → Proc Op Ans ε β} (hp : p.Uses A X)
    (hf : ∀ a, (f a).Uses A X) : (p >>= f).Uses A X := by
  induction p with
  | done a => exact hf a
  | raise e => exact hp
  | call o k ih => exact ⟨hp.1, fun a => ih a (hp.2 a)⟩

theorem uses_tryCatch {Y : ε → Prop} {p : Proc Op Ans ε α} {h : ε → Proc Op Ans ε α}
    (hp : p.Uses A Y) (hh : ∀ e, Y e → (h e).Uses A X) : (p.tryCatch h).Uses A X := by
  induction p with
  | done a => trivial
  | raise e => exact hh e hp
  | call o k ih => exact ⟨hp.1, fun a => ih a (hp.2 a)⟩

theorem uses_ensure {fin : Proc Op Ans ε Unit} {p : Proc Op Ans ε α} (hp : p.Uses A X)
    (hfin : fin.Uses A X) : (ensure fin p).Uses A X := by
  induction p with
  | done a => exact uses_bind hfin fun _ => trivial
  | raise e => exact uses_bind hfin fun _ => hp
  | call o k ih => exact ⟨hp.1, fun a => ih a (hp.2 a)⟩

/-- A program of operations that are always allowed runs without a complaint. -/
theorem wp_of_uses {S : Type} {env : Env Op Ans S} (hA : ∀ s o, A o → env.may s o)
    {p : Proc Op Ans ε α} (hp : p.Uses A X) (s : S) :
    p.wp env (fun _ _ => True) (fun _ _ => True) s := by
  induction p generalizing s with
  | done a => trivial
  | raise e => trivial
  | call o k ih => exact ⟨hA s o hp.1, fun a s' _ => ih a (hp.2 a) s'⟩

/-- Wherever a program is stopped, what its operations keep has been kept. -/
theorem Reaches.keeps {S : Type} {env : Env Op Ans S} {I : S → Prop} {p p' : Proc Op Ans ε α}
    {s s' : S} (h : Reaches env p s p' s') (hp : p.Uses A X)
    (hI : ∀ s o a s', A o → env.gives s o a s' → I s → I s') (hs : I s) : I s' := by
  induction h with
  | refl => exact hs
  | call hx _ ih => exact ih (hp.2 _) (hI _ _ _ _ hp.1 hx hs)

/-- In an environment that answers some operations by a function and stays as it is, a program of
these operations just computes its result. -/
theorem wp_eval {S : Type} {env : Env Op Ans S} {f : (o : Op) → Ans o} {s : S}
    (hA : ∀ o, A o → env.may s o ∧ ∀ a s', env.gives s o a s' ↔ a = f o ∧ s' = s)
    {p : Proc Op Ans ε α} (hp : p.Uses A X) {Q : α → S → Prop} {E : ε → S → Prop} :
    p.wp env Q E s ↔
      match p.eval f with
      | .ok a => Q a s
      | .error e => E e s := by
  induction p with
  | done a => rfl
  | raise e => rfl
  | call o k ih =>
    obtain ⟨hmay, hgives⟩ := hA o hp.1
    rw [eval, ← ih (f o) (hp.2 _)]
    constructor
    · intro h
      exact h.2 _ _ ((hgives _ _).mpr ⟨rfl, rfl⟩)
    · intro h
      refine ⟨hmay, fun a s' ha => ?_⟩
      obtain ⟨rfl, rfl⟩ := (hgives a s').mp ha
      exact h

theorem eval_uses {f : (o : Op) → Ans o} {p : Proc Op Ans ε α} (hp : p.Uses A X) {e : ε}
    (h : p.eval f = .error e) : X e := by
  induction p with
  | done a => cases h
  | raise e' =>
    cases h
    exact hp
  | call o k ih => exact ih (f o) (hp.2 _) h

end Kinds

/-! ## Conformance to an automaton -/

section Automaton

variable {Ph : Type} (tr : Ph → (o : Op) → Ans o → Ph → Prop)

/-- Whatever the answers, the program's operations are a path of the automaton `tr`, which ends in
a phase that fits the outcome. -/
def Follows : Proc Op Ans ε α → (α → Ph → Prop) → (ε → Ph → Prop) → Ph → Prop
  | .done a, Q, _, ph => Q a ph
  | .raise e, _, E, ph => E e ph
  | .call o k, Q, E, ph => ∀ a, ∃ ph', tr ph o a ph' ∧ (k a).Follows Q E ph'

variable {tr} {Q : α → Ph → Prop} {E : ε → Ph → Prop} {ph : Ph}

@[simp] theorem follows_done (a : α) : (done a : Proc Op Ans ε α).Follows tr Q E ph ↔ Q a ph :=
  Iff.rfl

@[simp] theorem follows_raise (e : ε) : (raise e : Proc Op Ans ε α).Follows tr Q E ph ↔ E e ph :=
  Iff.rfl

theorem follows_bind {p : Proc Op Ans ε α} {f : α → Proc Op Ans ε β} {Q : β → Ph → Prop} :
    (p >>= f).Follows tr Q E ph ↔ p.Follows tr (fun a ph => (f a).Follows tr Q E ph) E ph := by
  induction p generalizing ph with
  | done a => rfl
  | raise e => rfl
  | call o k ih =>
    refine forall_congr' fun a => exists_congr fun ph' => and_congr_right fun _ => ih a

theorem follows_tryCatch {p : Proc Op Ans ε α} {h : ε → Proc Op Ans ε α} :
    (p.tryCatch h).Follows tr Q E ph ↔ p.Follows tr Q (fun e ph => (h e).Follows tr Q E ph) ph := by
  induction p generalizing ph with
  | done a => rfl
  | raise e => rfl
  | call o k ih =>
    refine forall_congr' fun a => exists_congr fun ph' => and_congr_right fun _ => ih a

theorem follows_ensure {p : Proc Op Ans ε α} {fin : Proc Op Ans ε Unit} :
    (ensure fin p).Follows tr Q E ph ↔
      p.Follows tr (fun a ph => fin.Follows tr (fun _ ph => Q a ph) E ph)
        (fun e ph => fin.Follows tr (fun _ ph => E e ph) E ph) ph := by
  induction p generalizing ph with
  | done a => exact follows_bind
  | raise e => exact follows_bind
  | call o k ih =>
    refine forall_congr' fun a => exists_congr fun ph' => and_congr_right fun _ => ih a

theorem follows_mono {p : Proc Op Ans ε α} {Q' : α → Ph → Prop} {E' : ε → Ph → Prop}
    (h : p.Follows tr Q E ph) (hQ : ∀ a ph, Q a ph → Q' a ph) (hE : ∀ e ph, E e ph → E' e ph) :
    p.Follows tr Q' E' ph := by
  induction p generalizing ph with
  | done a => exact hQ a ph h
  | raise e => exact hE e ph h
  | call o k ih =>
    intro a
    obtain ⟨ph', htr, hk⟩ := h a
    exact ⟨ph', htr, ih a hk⟩

end Automaton

/-! ## Other operations -/

section Interp

variable {Op' Op'' : Type} {Ans' : Op' → Type} {Ans'' : Op'' → Type}

/-- The program with every operation carried out by a program over other operations. -/
def interp (h : (o : Op) → Proc Op' Ans' ε (Ans o)) : Proc Op Ans ε α → Proc Op' Ans' ε α
  | .done a => .done a
  | .raise e => .raise e
  | .call o k => h o >>= fun a => (k a).interp h

variable {h : (o : Op) → Proc Op' Ans' ε (Ans o)}

@[simp] theorem interp_done (a : α) : (done a : Proc Op Ans ε α).interp h = done a := rfl

@[simp] theorem interp_call (o : Op) (k : Ans o → Proc Op Ans ε α) :
    (call o k).interp h = h o >>= fun a => (k a).interp h := rfl

@[simp] theorem interp_bind (p : Proc Op Ans ε α) (f : α → Proc Op Ans ε β) :
    (p >>= f).interp h = p.interp h >>= fun a => (f a).interp h := by
  induction p with
  | done a => rfl
  | raise e => rfl
  | call o k ih =>
    simp only [call_bind, interp_call, LawfulMonad.bind_assoc]
    exact congrArg _ (funext ih)

@[simp] theorem interp_perform (o : Op) :
    (perform o : Proc Op Ans ε (Ans o)).interp h = h o := bind_pure (h o)

theorem interp_interp {h' : (o : Op') → Proc Op'' Ans'' ε (Ans' o)} (p : Proc Op Ans ε α) :
    (p.interp h).interp h' = p.interp fun o => (h o).interp h' := by
  induction p with
  | done a => rfl
  | raise e => rfl
  | call o k ih =>
    simp only [interp_call, interp_bind]
    exact congrArg _ (funext ih)

theorem interp_self (p : Proc Op Ans ε α) : p.interp perform = p := by
  induction p with
  | done a => rfl
  | raise e => rfl
  | call o k ih => exact congrArg (call o) (funext ih)

end Interp

end Proc

end Retriever
