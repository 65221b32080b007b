/-
# Retriever.Calls — proof rules for the calls

One rule for each call a Python program makes, for any environment: the call has to be one the
program may make, and the rest has to be right for each answer the environment can give. A failed
call raises its error (`Outcome`).
-/
import Retriever.Protocol

namespace Retriever

variable {S α : Type} {env : Proc.Env Sys Sys.Ans S} {E : Exn → S → Prop} {s : S}

/-- What is left to show once a call has been answered. -/
def Outcome (Q : α → S → Prop) (E : Exn → S → Prop) : Except SysErr α → S → Prop
  | .ok a, s => Q a s
  | .error e, s => E (.sys e) s

namespace Py

theorem wp_orRaise {x : Except SysErr α} {Q : α → S → Prop} :
    (orRaise x).wp env Q E s ↔ Outcome Q E x s := by
  cases x <;> rfl

theorem wp_recv {n : Nat} {Q : Bytes → S → Prop} : (recv n).wp env Q E s ↔
    env.may s (.recv n) ∧ ∀ a s', env.gives s (.recv n) a s' → Outcome Q E a s' := by
  simp only [recv, Proc.wp_bind, Proc.wp_perform, wp_orRaise]

theorem wp_sendall {b : Bytes} {Q : Unit → S → Prop} : (sendall b).wp env Q E s ↔
    env.may s (.send b) ∧ ∀ a s', env.gives s (.send b) a s' → Outcome Q E a s' := by
  simp only [sendall, Proc.wp_bind, Proc.wp_perform, wp_orRaise]

theorem wp_stat {p : Bytes} {Q : Option Stat → S → Prop} : (stat p).wp env Q E s ↔
    env.may s (.fs (.stat p)) ∧ ∀ a s', env.gives s (.fs (.stat p)) a s' → Q a s' :=
  Proc.wp_perform

theorem wp_openRb {p : Bytes} {Q : Nat → S → Prop} : (openRb p).wp env Q E s ↔
    env.may s (.fs (.openRb p)) ∧
      ∀ a s', env.gives s (.fs (.openRb p)) a s' → Outcome Q E a s' := by
  simp only [openRb, Proc.wp_bind, Proc.wp_perform, wp_orRaise]

theorem wp_openAb {p : Bytes} {Q : Nat → S → Prop} : (openAb p).wp env Q E s ↔
    env.may s (.fs (.openAb p)) ∧
      ∀ a s', env.gives s (.fs (.openAb p)) a s' → Outcome Q E a s' := by
  simp only [openAb, Proc.wp_bind, Proc.wp_perform, wp_orRaise]

theorem wp_openWb {p : Bytes} {Q : Nat → S → Prop} : (openWb p).wp env Q E s ↔
    env.may s (.fs (.openWb p)) ∧
      ∀ a s', env.gives s (.fs (.openWb p)) a s' → Outcome Q E a s' := by
  simp only [openWb, Proc.wp_bind, Proc.wp_perform, wp_orRaise]

theorem wp_read {i pos n : Nat} {Q : Bytes → S → Prop} : (read i pos n).wp env Q E s ↔
    env.may s (.fs (.read i pos n)) ∧
      ∀ a s', env.gives s (.fs (.read i pos n)) a s' → Outcome Q E a s' := by
  simp only [read, Proc.wp_bind, Proc.wp_perform, wp_orRaise]

theorem wp_write {i : Nat} {b : Bytes} {Q : Unit → S → Prop} : (write i b).wp env Q E s ↔
    env.may s (.fs (.write i b)) ∧
      ∀ a s', env.gives s (.fs (.write i b)) a s' → Outcome Q E a s' := by
  simp only [write, Proc.wp_bind, Proc.wp_perform, wp_orRaise]

theorem wp_remove {p : Bytes} {Q : Unit → S → Prop} : (remove p).wp env Q E s ↔
    env.may s (.fs (.unlink p)) ∧
      ∀ a s', env.gives s (.fs (.unlink p)) a s' → Outcome Q E a s' := by
  simp only [remove, Proc.wp_bind, Proc.wp_perform, wp_orRaise]

theorem wp_replace {p q : Bytes} {Q : Unit → S → Prop} : (replace p q).wp env Q E s ↔
    env.may s (.fs (.rename p q)) ∧
      ∀ a s', env.gives s (.fs (.rename p q)) a s' → Outcome Q E a s' := by
  simp only [replace, Proc.wp_bind, Proc.wp_perform, wp_orRaise]

theorem wp_listdir {p : Bytes} {Q : List Bytes → S → Prop} : (listdir p).wp env Q E s ↔
    env.may s (.fs (.listdir p)) ∧
      ∀ a s', env.gives s (.fs (.listdir p)) a s' → Outcome Q E a s' := by
  simp only [listdir, Proc.wp_bind, Proc.wp_perform, wp_orRaise]

/-- Reading a file to its end, in an environment whose reads keep `I` and show the bytes `c`. -/
theorem wp_readAll {I : S → Prop} {f n : Nat} {c : Bytes} {Q : Bytes → S → Prop} (hn : 0 < n)
    (hread : ∀ s pos, I s → env.may s (.fs (.read f pos n)) ∧
      ∀ a s', env.gives s (.fs (.read f pos n)) a s' → a = .ok ((c.drop pos).take n) ∧ I s')
    (hQ : ∀ s, I s → Q c s) {fuel : Nat} {acc : Bytes} (hacc : acc <+: c)
    (hfuel : c.length < acc.length + fuel) {s : S} (hs : I s) :
    (readAll f n fuel acc).wp env Q E s := by
  induction fuel generalizing acc s with
  | zero => exact absurd hacc.length_le (by omega)
  | succ fuel ih =>
    rw [readAll]
    refine Proc.wp_bind.mpr (wp_read.mpr ⟨(hread s _ hs).1, fun a s' ha => ?_⟩)
    obtain ⟨rfl, hs'⟩ := (hread s _ hs).2 a s' ha
    obtain ⟨rest, rfl⟩ := hacc
    simp only [Outcome, List.drop_left]
    by_cases hnil : rest.take n = []
    · rw [if_pos hnil]
      have hrest : rest = [] := by
        rcases List.take_eq_nil_iff.mp hnil with h | h
        · omega
        · exact h
      rw [hrest, List.append_nil] at hQ
      exact hQ s' hs'
    · rw [if_neg hnil]
      have hpos : 0 < (rest.take n).length := List.length_pos_iff.mpr hnil
      refine ih ?_ (by simp only [List.length_append] at hfuel ⊢; omega) hs'
      exact (List.prefix_append_right_inj _).mpr (List.take_prefix n rest)

end Py

/-- Hashing a file, in an environment that lets it be opened (`J f` then holds) and shows the
bytes `c`. -/
theorem wp_sha256File {J : Nat → S → Prop} {p c : Bytes} {Q : Bytes → S → Prop}
    (hmay : env.may s (.fs (.openRb p)))
    (hopen : ∀ a s', env.gives s (.fs (.openRb p)) a s' → ∃ f, a = .ok f ∧ J f s')
    (hread : ∀ f n s pos, J f s → env.may s (.fs (.read f pos n)) ∧
      ∀ a s', env.gives s (.fs (.read f pos n)) a s' → a = .ok ((c.drop pos).take n) ∧ J f s')
    (hc : c.length < OFF_MAX) (hQ : ∀ f s, J f s → Q (sha256 c) s) :
    (sha256File p).wp env Q E s := by
  unfold sha256File
  refine Proc.wp_bind.mpr (Py.wp_openRb.mpr ⟨hmay, ?_⟩)
  intro a s' ha
  obtain ⟨f, rfl, hs'⟩ := hopen a s' ha
  refine Proc.wp_bind.mpr (Py.wp_readAll (by decide) (hread f _) ?_ List.nil_prefix (by simpa) hs')
  exact fun s hs => hQ f s hs

end Retriever
