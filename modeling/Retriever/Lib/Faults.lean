/-
# Retriever.Lib.Faults — programs that a fault is the end of

Some answers of the environment are faults: a connection that breaks, a message that does not come. A
program is `Fragile` when after a fault, however it goes on, it can only end badly: with a value of kind `X`
or an exception of kind `Y`. A run of such a program that ends well has met with no fault, so it is a run in
an environment that has none.
-/
import Retriever.Lib.Proc

namespace Retriever

namespace Proc

variable {Op : Type} {Ans : Op → Type} {ε ε' α β : Type} {bad : (o : Op) → Ans o → Prop}
variable {X X' : α → Prop} {Y Y' : ε → Prop} {Z : β → Prop}

/-- Whatever the answers, the program ends with a value of kind `X` or an exception of kind `Y`. -/
def Ends (X : α → Prop) (Y : ε → Prop) : Proc Op Ans ε α → Prop
  | .done a => X a
  | .raise e => Y e
  | .call _ k => ∀ a, (k a).Ends X Y

/-- After a fault the program ends badly. -/
def Fragile (bad : (o : Op) → Ans o → Prop) (X : α → Prop) (Y : ε → Prop) : Proc Op Ans ε α → Prop
  | .done _ => True
  | .raise e => Y e
  | .call o k => ∀ a, (bad o a → (k a).Ends X Y) ∧ (k a).Fragile bad X Y

theorem Ends.mono {p : Proc Op Ans ε α} (h : p.Ends X Y) (hX : ∀ a, X a → X' a) (hY : ∀ e, Y e → Y' e) :
    p.Ends X' Y' := by
  induction p with
  | done a => exact hX a h
  | raise e => exact hY e h
  | call o k ih => exact fun a => ih a (h a)

theorem Ends.bind {p : Proc Op Ans ε α} {f : α → Proc Op Ans ε β} (h : p.Ends X Y)
    (hf : ∀ a, X a → (f a).Ends Z Y) : (p >>= f).Ends Z Y := by
  induction p with
  | done a => exact hf a h
  | raise e => exact h
  | call o k ih => exact fun a => ih a (h a)

theorem Ends.tryCatch {p : Proc Op Ans ε α} {g : ε → Proc Op Ans ε α} (h : p.Ends X Y)
    (hg : ∀ e, Y e → (g e).Ends X Y') : (p.tryCatch g).Ends X Y' := by
  induction p with
  | done a => exact h
  | raise e => exact hg e h
  | call o k ih => exact fun a => ih a (h a)

theorem Ends.eval {p : Proc Op Ans ε α} (h : p.Ends X Y) {f : (o : Op) → Ans o} {a : α}
    (ha : p.eval f = .ok a) : X a := by
  induction p with
  | done b =>
    cases ha
    exact h
  | raise e => cases ha
  | call o k ih => exact ih (f o) (h (f o)) ha

theorem Ends.fragile {p : Proc Op Ans ε α} (h : p.Ends X Y) : p.Fragile bad X Y := by
  induction p with
  | done a => trivial
  | raise e => exact h
  | call o k ih => exact fun a => ⟨fun _ => h a, ih a (h a)⟩

theorem Fragile.bind {p : Proc Op Ans ε α} {f : α → Proc Op Ans ε β} (h : p.Fragile bad X Y)
    (hbad : ∀ a, X a → (f a).Ends Z Y) (hf : ∀ a, (f a).Fragile bad Z Y) :
    (p >>= f).Fragile bad Z Y := by
  induction p with
  | done a => exact hf a
  | raise e => exact h
  | call o k ih => exact fun a => ⟨fun ha => ((h a).1 ha).bind hbad, ih a (h a).2⟩

theorem Fragile.tryCatch {p : Proc Op Ans ε α} {g : ε → Proc Op Ans ε α} (h : p.Fragile bad X Y)
    (hbad : ∀ e, Y e → (g e).Ends X Y') (hg : ∀ e, Y e → (g e).Fragile bad X Y') :
    (p.tryCatch g).Fragile bad X Y' := by
  induction p with
  | done a => trivial
  | raise e => exact hg e h
  | call o k ih => exact fun a => ⟨fun ha => ((h a).1 ha).tryCatch hbad, ih a (h a).2⟩

theorem fragile_ofExcept {r : Except ε α} (h : ∀ e, r = .error e → Y e) :
    (ofExcept r : Proc Op Ans ε α).Fragile bad X Y := by
  cases r with
  | ok a => trivial
  | error e => exact h e rfl

/-- A program that performs only operations which have no faults. -/
theorem Uses.fragile {A : Op → Prop} {p : Proc Op Ans ε α} (h : p.Uses A Y)
    (hA : ∀ o a, A o → ¬ bad o a) : p.Fragile bad X Y := by
  induction p with
  | done a => trivial
  | raise e => exact h
  | call o k ih => exact fun a => ⟨fun ha => absurd ha (hA o a h.1), ih a (h.2 a)⟩

/-- The exceptions of such a program are of the kind. -/
theorem Fragile.wp {S : Type} {env : Env Op Ans S} {Q : α → S → Prop} {s : S} {p : Proc Op Ans ε α}
    (h : p.Fragile bad X Y) (hwp : p.wp env Q (fun _ _ => True) s) : p.wp env Q (fun e _ => Y e) s := by
  induction p generalizing s with
  | done a => exact hwp
  | raise e => exact h
  | call o k ih => exact ⟨hwp.1, fun a s' ha => ih a (h a).2 (hwp.2 a s' ha)⟩

/-! ## What comes after a program -/

/-- The program, and after it what depends on how it has ended. -/
def andThen (fin : Except ε α → Proc Op Ans ε' β) : Proc Op Ans ε α → Proc Op Ans ε' β
  | .done a => fin (.ok a)
  | .raise e => fin (.error e)
  | .call o k => .call o fun a => (k a).andThen fin

theorem Ends.andThen {W : ε' → Prop} {fin : Except ε α → Proc Op Ans ε' β} {p : Proc Op Ans ε α}
    (h : p.Ends X Y) (hX : ∀ a, X a → (fin (.ok a)).Ends Z W) (hY : ∀ e, Y e → (fin (.error e)).Ends Z W) :
    (p.andThen fin).Ends Z W := by
  induction p with
  | done a => exact hX a h
  | raise e => exact hY e h
  | call o k ih => exact fun a => ih a (h a)

theorem Fragile.andThen {W : ε' → Prop} {fin : Except ε α → Proc Op Ans ε' β} {p : Proc Op Ans ε α}
    (h : p.Fragile bad X Y) (hX : ∀ a, X a → (fin (.ok a)).Ends Z W)
    (hY : ∀ e, Y e → (fin (.error e)).Ends Z W) (hfin : ∀ a, (fin (.ok a)).Fragile bad Z W) :
    (p.andThen fin).Fragile bad Z W := by
  induction p with
  | done a => exact hfin a
  | raise e => exact (hY e h).fragile
  | call o k ih => exact fun a => ⟨fun ha => ((h a).1 ha).andThen hX hY, ih a (h a).2⟩

theorem wp_andThen {S : Type} {env : Env Op Ans S} {fin : Except ε α → Proc Op Ans ε' β}
    {p : Proc Op Ans ε α} {Q : β → S → Prop} {E : ε' → S → Prop} {s : S} :
    (p.andThen fin).wp env Q E s ↔ p.wp env (fun a => (fin (.ok a)).wp env Q E)
      (fun e => (fin (.error e)).wp env Q E) s := by
  induction p generalizing s with
  | done a => rfl
  | raise e => rfl
  | call o k ih =>
    exact and_congr_right fun _ => forall_congr' fun a => forall_congr' fun s' =>
      forall_congr' fun _ => ih a

end Proc

end Retriever
