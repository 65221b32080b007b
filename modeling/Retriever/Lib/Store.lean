/-
# Retriever.Lib.Store — a directory of hard-linked files

A `Store κ β` binds keys to slots: a key names a file, given by its inode number, or a
subdirectory. The bytes of a file belong to the inode, not to the key, so two keys may name one
file, a file keeps its bytes when a name is taken away, and a program that has opened an inode is
not affected by later changes to the names. Inode numbers are never reused: the next one is above
every number in use, which is a field of the structure.

Every operation comes with the lemmas that say what it does to each key (`*_lookup`) and to each
inode (`*_data`).
-/
import Mathlib.Data.List.AList

namespace Retriever

/-- What a key is bound to. -/
inductive Slot where
  | file (i : Nat)
  | subdir
  deriving DecidableEq, Repr

structure Store (κ β : Type) [DecidableEq κ] where
  dir : AList (fun _ : κ => Slot)
  data : Nat → List β
  next : Nat
  fresh : ∀ k i, dir.lookup k = some (.file i) → i < next

namespace Store

variable {κ β : Type} [DecidableEq κ]

def lookup (s : Store κ β) (k : κ) : Option Slot := s.dir.lookup k

/-! ## Operations -/

/-- Bind a key to a new empty file. -/
def create (s : Store κ β) (k : κ) : Store κ β where
  dir := s.dir.insert k (.file s.next)
  data := Function.update s.data s.next []
  next := s.next + 1
  fresh := by
    intro k' i h
    by_cases hk : k' = k
    · subst hk
      rw [AList.lookup_insert] at h
      cases h
      exact Nat.lt_succ_self _
    · rw [AList.lookup_insert_ne hk] at h
      exact Nat.lt_succ_of_lt (s.fresh k' i h)

/-- Replace the bytes of an inode. -/
def setData (s : Store κ β) (i : Nat) (bs : List β) : Store κ β :=
  { s with data := Function.update s.data i bs }

/-- Add bytes at the end of an inode. -/
def append (s : Store κ β) (i : Nat) (bs : List β) : Store κ β := s.setData i (s.data i ++ bs)

/-- Take a name away. -/
def remove (s : Store κ β) (k : κ) : Store κ β where
  dir := s.dir.erase k
  data := s.data
  next := s.next
  fresh := by
    intro k' i h
    by_cases hk : k' = k
    · subst hk
      rw [AList.lookup_erase] at h
      cases h
    · rw [AList.lookup_erase_ne hk] at h
      exact s.fresh k' i h

/-- Bind a key to a slot that another key has. -/
def bind (s : Store κ β) (k : κ) (src : κ) : Store κ β :=
  match h : s.dir.lookup src with
  | none => s
  | some slot =>
    { dir := s.dir.insert k slot
      data := s.data
      next := s.next
      fresh := by
        intro k' i h'
        by_cases hk : k' = k
        · subst hk
          rw [AList.lookup_insert] at h'
          cases h'
          exact s.fresh src i h
        · rw [AList.lookup_insert_ne hk] at h'
          exact s.fresh k' i h' }

/-- Move a name: what `src` names is called `dst` afterwards, and nothing is called `src`. -/
def rename (s : Store κ β) (src dst : κ) : Store κ β := (s.bind dst src).remove src

/-! ## What the operations do to each key -/

theorem lookup_lt_next {s : Store κ β} {k : κ} {i : Nat} (h : s.lookup k = some (.file i)) :
    i < s.next := s.fresh k i h

theorem create_lookup (s : Store κ β) (k k' : κ) :
    (s.create k).lookup k' = if k' = k then some (.file s.next) else s.lookup k' := by
  by_cases h : k' = k
  · subst h
    simp [create, lookup]
  · simp [create, lookup, h, AList.lookup_insert_ne h]

@[simp] theorem setData_lookup (s : Store κ β) (i : Nat) (bs : List β) (k : κ) :
    (s.setData i bs).lookup k = s.lookup k := rfl

@[simp] theorem append_lookup (s : Store κ β) (i : Nat) (bs : List β) (k : κ) :
    (s.append i bs).lookup k = s.lookup k := rfl

theorem remove_lookup (s : Store κ β) (k k' : κ) :
    (s.remove k).lookup k' = if k' = k then none else s.lookup k' := by
  by_cases h : k' = k
  · subst h
    simp [remove, lookup]
  · simp [remove, lookup, h, AList.lookup_erase_ne h]

theorem bind_lookup {s : Store κ β} {k src : κ} {slot : Slot} (h : s.lookup src = some slot)
    (k' : κ) : (s.bind k src).lookup k' = if k' = k then some slot else s.lookup k' := by
  unfold bind
  split
  · next hs => rw [show s.dir.lookup src = some slot from h] at hs; cases hs
  · next slot' hs =>
    have he : slot' = slot := by
      rw [show s.dir.lookup src = some slot from h] at hs
      exact (Option.some.inj hs).symm
    subst he
    by_cases hk : k' = k
    · subst hk
      simp [lookup]
    · simp [lookup, hk, AList.lookup_insert_ne hk]

theorem rename_lookup {s : Store κ β} {src dst : κ} {slot : Slot} (h : s.lookup src = some slot)
    (k : κ) : (s.rename src dst).lookup k =
      if k = src then none else if k = dst then some slot else s.lookup k := by
  rw [rename, remove_lookup, bind_lookup h]

/-! ## What the operations do to each inode -/

theorem create_data (s : Store κ β) (k : κ) (i : Nat) :
    (s.create k).data i = if i = s.next then [] else s.data i := by
  by_cases h : i = s.next
  · subst h
    simp [create]
  · simp [create, h]

theorem setData_data (s : Store κ β) (i : Nat) (bs : List β) (j : Nat) :
    (s.setData i bs).data j = if j = i then bs else s.data j := by
  by_cases h : j = i
  · subst h
    simp [setData]
  · simp [setData, h]

theorem append_data (s : Store κ β) (i : Nat) (bs : List β) (j : Nat) :
    (s.append i bs).data j = if j = i then s.data i ++ bs else s.data j :=
  setData_data s i _ j

@[simp] theorem remove_data (s : Store κ β) (k : κ) : (s.remove k).data = s.data := rfl

@[simp] theorem bind_data (s : Store κ β) (k src : κ) : (s.bind k src).data = s.data := by
  unfold bind
  split <;> rfl

@[simp] theorem rename_data (s : Store κ β) (src dst : κ) : (s.rename src dst).data = s.data := by
  simp [rename]

end Store

end Retriever
