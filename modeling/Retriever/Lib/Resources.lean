/-
# Retriever.Lib.Resources — programs that take and give back

Some operations of a program take a resource (a block of memory, a file handle, a socket) and some give
one back; others only need one that is held. `Usage` says which, and `Usage.env` is the environment
that keeps the account: an operation is allowed when what it needs and gives back is held, and what it
takes is new.

`Owns F G p H` is a triple with a frame: `p` may use what is in `F`, owns `G` when it begins, and owns
`H a` when it returns `a`; everything else that is held stays held. The rules follow the program. A
program that owns nothing at both ends has given back what it took on every path, gives nothing back
twice and uses nothing that it does not hold (`Balanced.runs`). Programs raise nothing here, as in C.
-/
import Mathlib.Data.Finset.Basic
import Mathlib.Data.Finset.Lattice.Lemmas
import Mathlib.Data.Finset.SDiff
import Retriever.Lib.Proc

namespace Retriever

variable {Op : Type} {Ans : Op → Type} {α β R : Type} [DecidableEq R]

/-- What the operations need, give back and take. -/
structure Usage (Op : Type) (Ans : Op → Type) (R : Type) where
  needs : Op → Finset R
  returns : Op → Finset R
  takes : (o : Op) → Ans o → Finset R

/-- The account of what is held. -/
def Usage.env (u : Usage Op Ans R) : Proc.Env Op Ans (Finset R) where
  may held o := u.needs o ⊆ held ∧ u.returns o ⊆ held
  gives held o a held' := Disjoint (u.takes o a) held ∧ held' = held \ u.returns o ∪ u.takes o a

/-- The program owns `G` at first and `H a` when it returns `a`, and uses `F` besides. -/
def Owns (u : Usage Op Ans R) (F G : Finset R) (p : Proc Op Ans Empty α) (H : α → Finset R) : Prop :=
  ∀ held, F ⊆ held → Disjoint G held →
    p.wp u.env (fun a held' => Disjoint (H a) held ∧ held' = held ∪ H a) (fun e _ => e.elim) (held ∪ G)

/-- The program uses `F` and owns nothing at both ends. -/
abbrev Balanced (u : Usage Op Ans R) (F : Finset R) (p : Proc Op Ans Empty α) : Prop :=
  Owns u F ∅ p fun _ => ∅

section

variable {u : Usage Op Ans R} {F F' G : Finset R} {H : α → Finset R} {p : Proc Op Ans Empty α}

theorem owns_done {a : α} (h : H a = G) : Owns u F G (.done a) H := by
  intro held _ hG
  rw [← h] at hG ⊢
  exact ⟨hG, rfl⟩

theorem owns_call {o : Op} {k : Ans o → Proc Op Ans Empty α} (hn : u.needs o ⊆ F ∪ G)
    (hr : u.returns o ⊆ G) (hk : ∀ a, Owns u F (G \ u.returns o ∪ u.takes o a) (k a) H) :
    Owns u F G (.call o k) H := by
  intro held hF hG
  refine ⟨⟨hn.trans (Finset.union_subset_union_left hF), hr.trans Finset.subset_union_right⟩, ?_⟩
  rintro a held' ⟨hnew, rfl⟩
  obtain ⟨hnew, -⟩ := Finset.disjoint_union_right.mp hnew
  have hdis : Disjoint (G \ u.returns o ∪ u.takes o a) held :=
    Finset.disjoint_union_left.mpr ⟨hG.mono_left Finset.sdiff_subset, hnew⟩
  have hheld : (held ∪ G) \ u.returns o ∪ u.takes o a =
      held ∪ (G \ u.returns o ∪ u.takes o a) := by
    rw [Finset.union_sdiff_distrib, Finset.union_assoc,
      Finset.sdiff_eq_self_of_disjoint (hG.symm.mono_right hr)]
  rw [hheld]
  exact hk a held hF hdis

theorem owns_bind {f : α → Proc Op Ans Empty β} {K : β → Finset R} (hp : Owns u F G p H)
    (hf : ∀ a, Owns u F (H a) (f a) K) : Owns u F G (p >>= f) K := by
  intro held hF hG
  refine Proc.wp_bind.mpr (Proc.wp_mono (hp held hF hG) ?_ fun e => e.elim)
  rintro a held' ⟨hH, rfl⟩
  exact hf a held hF hH

theorem Owns.mono (h : Owns u F G p H) (hF : F ⊆ F') : Owns u F' G p H :=
  fun held hheld => h held (hF.trans hheld)

/-- What is owned can be used by a piece that leaves it alone. -/
theorem Owns.frame {G' : Finset R} (h : Owns u (F ∪ G') G p H) (hG : Disjoint G G') :
    Owns u F (G ∪ G') p fun a => H a ∪ G' := by
  intro held hF hdis
  obtain ⟨hG₁, hG₂⟩ := Finset.disjoint_union_left.mp hdis
  have hwp := h (held ∪ G') (Finset.union_subset_union_left hF)
    (Finset.disjoint_union_right.mpr ⟨hG₁, hG⟩)
  rw [Finset.union_assoc, Finset.union_comm G' G] at hwp
  refine Proc.wp_mono hwp ?_ fun e => e.elim
  rintro a held' ⟨hH, rfl⟩
  obtain ⟨hH₁, hH₂⟩ := Finset.disjoint_union_right.mp hH
  exact ⟨Finset.disjoint_union_left.mpr ⟨hH₁, hG₂⟩, by rw [Finset.union_assoc, Finset.union_comm G']⟩

/-- A balanced piece, and what follows it. -/
theorem Balanced.bind {f : α → Proc Op Ans Empty β} {K : β → Finset R} (hp : Balanced u (F ∪ G) p)
    (hf : ∀ a, Owns u F G (f a) K) : Owns u F G (p >>= f) K := by
  have hframe := hp.frame (Finset.disjoint_empty_left G)
  simp only [Finset.empty_union] at hframe
  exact owns_bind hframe hf

/-- An operation that takes something, and what follows it. -/
theorem owns_takes {o : Op} {k : Ans o → Proc Op Ans Empty α} (hn : u.needs o = ∅)
    (hr : u.returns o = ∅) (hk : ∀ a, Owns u F (u.takes o a) (k a) H) :
    Owns u F ∅ (Proc.perform o >>= k) H := by
  refine owns_call (by rw [hn]; exact Finset.empty_subset _) (by rw [hr]) fun a => ?_
  rw [hr, Finset.sdiff_empty, Finset.empty_union]
  exact hk a

/-- An operation that gives back what is owned, and what follows it. -/
theorem owns_returns {o : Op} {k : Ans o → Proc Op Ans Empty α} (hn : u.needs o = ∅)
    (hr : u.returns o = G) (ht : ∀ a, u.takes o a = ∅) (hk : ∀ a, Owns u F ∅ (k a) H) :
    Owns u F G (Proc.perform o >>= k) H := by
  refine owns_call (by rw [hn]; exact Finset.empty_subset _) (by rw [hr]) fun a => ?_
  rw [hr, ht a, Finset.sdiff_self, Finset.empty_union]
  exact hk a

/-- An operation that neither takes nor gives back. -/
theorem balanced_perform {o : Op} (hn : u.needs o ⊆ F) (hr : u.returns o = ∅)
    (ht : ∀ a, u.takes o a = ∅) : Balanced u F (Proc.perform o) := by
  refine owns_call (hn.trans Finset.subset_union_left) (by rw [hr]) fun a => ?_
  rw [hr, ht a]
  exact owns_done rfl

/-- **A balanced program gives back what it took.** On every path it only does what it may, and in the
end it holds what it held at first. -/
theorem Balanced.runs (h : Balanced u F p) {held : Finset R} (hF : F ⊆ held) :
    Proc.Allowed u.env p held ∧
      ∀ r held', Proc.Runs u.env p held r held' → held' = held := by
  have hwp := h held hF (Finset.disjoint_empty_left _)
  rw [Finset.union_empty] at hwp
  refine ⟨Proc.allowed_of_wp hwp, fun r held' hrun => ?_⟩
  rcases Proc.wp_runs hwp hrun with ⟨a, -, -, hend⟩ | ⟨e, -⟩
  · rw [hend, Finset.union_empty]
  · exact e.elim

end

end Retriever
