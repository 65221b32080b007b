/-
# Retriever.Lib.Leases — a set of taken keys and who holds them

A set `taken` is the record of what the holders hold: a key is in the set exactly when somebody
holds it, and nobody else does. Taking a free key and giving a key back keep the record right.
-/
import Mathlib.Data.Finset.Basic

namespace Retriever

variable {T κ : Type}

structure Leases (taken : Finset κ) (held : T → Option κ) : Prop where
  mem_iff : ∀ k, k ∈ taken ↔ ∃ t, held t = some k
  unique : ∀ t t' k, held t = some k → held t' = some k → t = t'

namespace Leases

variable {taken : Finset κ} {held : T → Option κ} {t : T} {k : κ}

theorem empty : Leases ∅ (fun _ : T => (none : Option κ)) :=
  ⟨by simp, by simp⟩

theorem mem (h : Leases taken held) (ht : held t = some k) : k ∈ taken :=
  (h.mem_iff k).mpr ⟨t, ht⟩

variable [DecidableEq T] [DecidableEq κ]

theorem take (h : Leases taken held) (hk : k ∉ taken) (ht : held t = none) :
    Leases (insert k taken) (Function.update held t (some k)) where
  mem_iff := by
    intro k'
    rw [Finset.mem_insert, h.mem_iff]
    constructor
    · rintro (rfl | ⟨t', ht'⟩)
      · exact ⟨t, by simp⟩
      · have hne : t' ≠ t := by
          rintro rfl
          rw [ht] at ht'
          cases ht'
        exact ⟨t', by simp [hne, ht']⟩
    · rintro ⟨t', ht'⟩
      by_cases hne : t' = t
      · subst hne
        rw [Function.update_self] at ht'
        exact .inl (Option.some.inj ht').symm
      · rw [Function.update_of_ne hne] at ht'
        exact .inr ⟨t', ht'⟩
  unique := by
    have hfree : ∀ t', held t' ≠ some k := fun t' ht' => hk (h.mem ht')
    intro t₁ t₂ k' h₁ h₂
    by_cases e₁ : t₁ = t <;> by_cases e₂ : t₂ = t
    · rw [e₁, e₂]
    · rw [e₁, Function.update_self] at h₁
      rw [Function.update_of_ne e₂, ← h₁] at h₂
      exact absurd h₂ (hfree t₂)
    · rw [e₂, Function.update_self] at h₂
      rw [Function.update_of_ne e₁, ← h₂] at h₁
      exact absurd h₁ (hfree t₁)
    · rw [Function.update_of_ne e₁] at h₁
      rw [Function.update_of_ne e₂] at h₂
      exact h.unique t₁ t₂ k' h₁ h₂

theorem release (h : Leases taken held) (ht : held t = some k) :
    Leases (taken.erase k) (Function.update held t none) where
  mem_iff := by
    intro k'
    rw [Finset.mem_erase, h.mem_iff]
    constructor
    · rintro ⟨hne, t', ht'⟩
      have : t' ≠ t := by
        rintro rfl
        rw [ht] at ht'
        exact hne (Option.some.inj ht').symm
      exact ⟨t', by simp [this, ht']⟩
    · rintro ⟨t', ht'⟩
      by_cases hne : t' = t
      · subst hne
        simp at ht'
      · rw [Function.update_of_ne hne] at ht'
        refine ⟨?_, t', ht'⟩
        rintro rfl
        exact hne (h.unique t' t k' ht' ht)
  unique := by
    intro t₁ t₂ k' h₁ h₂
    have hne : ∀ {t'}, Function.update held t none t' = some k' → t' ≠ t := by
      rintro t' h' rfl
      simp at h'
    rw [Function.update_of_ne (hne h₁)] at h₁
    rw [Function.update_of_ne (hne h₂)] at h₂
    exact h.unique t₁ t₂ k' h₁ h₂

end Leases

end Retriever
