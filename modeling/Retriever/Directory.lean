/-
# Retriever.Directory — filesystem calls on entries of the working directory

The server uses plain names only, so to it the filesystem is one directory: `Os.entry` gives what
a name is bound to and `Os.store.data` the bytes of each file. This module says what each call
does in these terms: a call that fails changes nothing, a call that only looks changes nothing, and
the calls that change something are the four spelled out at the end.
-/
import Retriever.Names

namespace Retriever

/-- The call only looks. -/
inductive FsOp.Looks : FsOp → Prop
  | stat (p : Bytes) : FsOp.Looks (.stat p)
  | openRb (p : Bytes) : FsOp.Looks (.openRb p)
  | read (i pos n : Nat) : FsOp.Looks (.read i pos n)
  | listdir (p : Bytes) : FsOp.Looks (.listdir p)

/-- The call did not do what it was asked to. -/
inductive FsOp.Refused : (o : FsOp) → o.Ans → Prop
  | stat (p : Bytes) : FsOp.Refused (.stat p) none
  | openRb (p : Bytes) (e : SysErr) : FsOp.Refused (.openRb p) (.error e)
  | openAb (p : Bytes) (e : SysErr) : FsOp.Refused (.openAb p) (.error e)
  | read (i pos n : Nat) (e : SysErr) : FsOp.Refused (.read i pos n) (.error e)
  | write (i : Nat) (bs : Bytes) (e : SysErr) : FsOp.Refused (.write i bs) (.error e)
  | unlink (p : Bytes) (e : SysErr) : FsOp.Refused (.unlink p) (.error e)
  | link (p q : Bytes) (e : SysErr) : FsOp.Refused (.link p q) (.error e)

namespace Os

variable {os os' : Os} {p n : Bytes}

/-! ## Entries -/

/-- What a name in the working directory is bound to. -/
def entry (os : Os) (n : Bytes) : Option Slot := os.store.lookup (os.cwd ++ [n])

theorem slot_eq_entry (os : Os) (n : Bytes) : os.slot (os.cwd ++ [n]) = os.entry n := os.slot_entry n

theorem at?_plain (os : Os) (h : Plain p) : os.at? p = os.entry p := by
  simp [at?, locate_plain os h, slot_entry, entry]

theorem content_of_entry (h : Plain p) {i : Nat} (he : os.entry p = some (.file i)) :
    os.content p = some (os.store.data i) := by
  rw [content, at?_plain os h, he, bytesOf]

theorem content_eq_some (h : Plain p) {c : Bytes} :
    os.content p = some c ↔ ∃ i, os.entry p = some (.file i) ∧ os.store.data i = c := by
  rw [content, at?_plain os h]
  constructor
  · intro hc
    unfold bytesOf at hc
    split at hc
    · next i hi => exact ⟨i, hi, by simpa using hc⟩
    · cases hc
  · rintro ⟨i, hi, rfl⟩
    rw [hi, bytesOf]

/-- A name that keeps its binding and the bytes of its file looks the same. -/
theorem content_congr (h : Plain p) (he : os'.entry p = os.entry p)
    (hd : ∀ i, os.entry p = some (.file i) → os'.store.data i = os.store.data i) :
    os'.content p = os.content p := by
  rw [content, content, at?_plain os h, at?_plain os' h, he]
  cases hs : os.entry p with
  | none => rfl
  | some sl =>
    cases sl with
    | file i => simp [bytesOf, hd i hs]
    | subdir => rfl

theorem at?_dot (os : Os) : os.at? [DOT] = some .subdir := by
  simp [at?, locate_dot, slot]

theorem entry_lt_next {i : Nat} (h : os.entry n = some (.file i)) : i < os.store.next :=
  Store.lookup_lt_next h

/-! ## Calls that look, calls that fail -/

theorem run_looks {o : FsOp} (h : o.Looks) : (os.run o).2 = os := by
  cases h with
  | stat p => rfl
  | openRb p =>
    simp only [run]
    split <;> rfl
  | read i pos n => rfl
  | listdir p =>
    simp only [run]
    split
    · split <;> rfl
    · rfl

theorem openNew_refused {f : Nat → Os} {e : SysErr} (h : (os.openNew p f).1 = .error e) :
    (os.openNew p f).2 = os := by
  unfold openNew at h ⊢
  split
  · rfl
  · next l hl =>
    rw [hl] at h
    cases hs : os.slot l with
    | none =>
      simp only [hs] at h ⊢
      split
      · next hc => simp [hc] at h
      · rfl
    | some sl =>
      cases sl with
      | file i => simp [hs] at h
      | subdir => rfl

theorem run_refused {o : FsOp} {a : o.Ans} (h : o.Refused a) (hr : (os.run o).1 = a) :
    (os.run o).2 = os := by
  cases h with
  | stat p => rfl
  | openRb p e => exact run_looks (.openRb p)
  | openAb p e => exact openNew_refused hr
  | read i pos n e => rfl
  | write i bs e =>
    simp only [run] at hr ⊢
    split
    · next h => rw [dif_pos h] at hr; cases hr
    · rfl
  | unlink p e =>
    simp only [run] at hr ⊢
    split
    · rfl
    · next l hl =>
      simp only [hl] at hr
      split
      · next i hi => simp only [hi] at hr; cases hr
      · rfl
  | link p q e =>
    simp only [run] at hr ⊢
    split
    · next s d hs hd =>
      simp only [hs, hd] at hr
      split
      · rfl
      · next i hi hd' =>
        simp only [hi, hd'] at hr
        split
        · next hc => rw [if_pos hc] at hr; cases hr
        · rfl
      · rfl
    · rfl

/-! ## Answers -/

theorem run_stat_plain (hp : Plain p) : (os.run (.stat p)).1 =
    match os.entry p with
    | some (.file i) => some (.regular (os.store.data i).length)
    | some .subdir => some (.directory os.dirSize)
    | none => none := by
  cases he : os.entry p with
  | none => simp [run, statAt, at?_plain os hp, he]
  | some sl => cases sl <;> simp [run, statAt, at?_plain os hp, he]

theorem run_openRb_ok (hp : Plain p) {i : Nat} (h : (os.run (.openRb p)).1 = .ok i) :
    os.entry p = some (.file i) := by
  simp only [run, at?_plain os hp] at h
  split at h
  · next j hj =>
    cases h
    exact hj
  · cases h

theorem run_openRb_entry (hp : Plain p) {i : Nat} (h : os.entry p = some (.file i)) :
    (os.run (.openRb p)).1 = .ok i := by
  simp [run, at?_plain os hp, h]

/-! ## Calls that change the directory -/

@[simp] theorem createAt_entry (os : Os) (p n : Bytes) :
    (os.createAt (os.cwd ++ [p])).entry n =
      if n = p then some (.file os.store.next) else os.entry n := by
  simp [entry, createAt, Store.create_lookup]

@[simp] theorem createAt_data (os : Os) (l : Loc) (i : Nat) :
    (os.createAt l).store.data i = if i = os.store.next then [] else os.store.data i :=
  Store.create_data os.store l i

@[simp] theorem removeAt_entry (os : Os) (p n : Bytes) :
    (os.removeAt (os.cwd ++ [p])).entry n = if n = p then none else os.entry n := by
  simp [entry, removeAt, rebind, Store.remove_lookup]

@[simp] theorem removeAt_data (os : Os) (l : Loc) : (os.removeAt l).store.data = os.store.data := rfl

@[simp] theorem appendTo_entry (os : Os) (i : Nat) (bs n : Bytes)
    (h : (os.store.data i).length + bs.length < OFF_MAX) : (os.appendTo i bs h).entry n = os.entry n :=
  rfl

@[simp] theorem appendTo_data (os : Os) (i : Nat) (bs : Bytes)
    (h : (os.store.data i).length + bs.length < OFF_MAX) (j : Nat) :
    (os.appendTo i bs h).store.data j = if j = i then os.store.data i ++ bs else os.store.data j :=
  Store.append_data os.store i bs j

/-- `open(p, "ab")` finds the file or makes it. -/
theorem run_openAb_ok (hp : Plain p) {h : Nat} (hr : (os.run (.openAb p)).1 = .ok h) :
    (os.entry p = some (.file h) ∧ (os.run (.openAb p)).2 = os) ∨
    (os.entry p = none ∧ h = os.store.next ∧
      (os.run (.openAb p)).2 = os.createAt (os.cwd ++ [p])) := by
  simp only [run, openNew, locate_plain os hp, slot_entry] at hr ⊢
  cases hs : os.store.lookup (os.cwd ++ [p]) with
  | none =>
    refine .inr ⟨hs, ?_⟩
    simp only [hs] at hr ⊢
    split at hr
    · next hc =>
      rw [if_pos hc]
      cases hr
      exact ⟨rfl, rfl⟩
    · cases hr
  | some sl =>
    cases sl with
    | file i =>
      simp only [hs] at hr
      cases hr
      exact .inl ⟨hs, rfl⟩
    | subdir =>
      simp only [hs] at hr
      cases hr

theorem run_write_ok {i : Nat} {bs : Bytes} (hr : (os.run (.write i bs)).1 = .ok ()) :
    ∃ h, (os.run (.write i bs)).2 = os.appendTo i bs h := by
  simp only [run] at hr ⊢
  split at hr
  · next h => exact ⟨h, by rw [dif_pos h]⟩
  · cases hr

theorem run_unlink_entry (hp : Plain p) {i : Nat} (h : os.entry p = some (.file i)) :
    os.run (.unlink p) = (.ok (), os.removeAt (os.cwd ++ [p])) := by
  have hs : os.store.lookup (os.cwd ++ [p]) = some (.file i) := h
  simp [run, locate_plain os hp, slot_entry, hs]

theorem run_unlink_ok (hp : Plain p) (hr : (os.run (.unlink p)).1 = .ok ()) :
    (∃ i, os.entry p = some (.file i)) ∧
      (os.run (.unlink p)).2 = os.removeAt (os.cwd ++ [p]) := by
  have hi : ∃ i, os.entry p = some (.file i) := by
    simp only [run, locate_plain os hp, slot_entry] at hr
    split at hr
    · next i hi => exact ⟨i, hi⟩
    · cases hr
  obtain ⟨i, hi⟩ := hi
  exact ⟨⟨i, hi⟩, by rw [run_unlink_entry hp hi]⟩

/-- The directory after `os.link(p, n)`. -/
def linkAt (os : Os) (p n : Bytes) : Os :=
  os.rebind (os.store.bind (os.cwd ++ [n]) (os.cwd ++ [p])) (os.store.bind_data _ _)

theorem linkAt_entry {i : Nat} (h : os.entry p = some (.file i)) (n n' : Bytes) :
    (os.linkAt p n).entry n' = if n' = n then some (.file i) else os.entry n' := by
  simp only [entry, linkAt, rebind, Store.bind_lookup h, List.append_cancel_left_eq,
    List.cons.injEq, and_true]

@[simp] theorem linkAt_data (os : Os) (p n : Bytes) :
    (os.linkAt p n).store.data = os.store.data := Store.bind_data _ _ _

/-- `os.link` succeeds only when the new name is free. -/
theorem run_link_ok (hp : Plain p) (hn : Plain n) (hr : (os.run (.link p n)).1 = .ok ()) :
    (∃ i, os.entry p = some (.file i)) ∧ os.entry n = none ∧
      (os.run (.link p n)).2 = os.linkAt p n := by
  simp only [run, locate_plain os hp, locate_plain os hn, slot_entry] at hr ⊢
  change (∃ i, os.store.lookup _ = _) ∧ os.store.lookup _ = _ ∧ _
  split at hr
  · cases hr
  · next i hi hd =>
    split at hr
    · next hc => exact ⟨⟨i, hi⟩, hd, by simp [hc, linkAt]⟩
    · cases hr
  · cases hr

/-- `FileExistsError` means that the new name is taken. -/
theorem run_link_exists (hp : Plain p) (hn : Plain n)
    (hr : (os.run (.link p n)).1 = .error .fileExists) : ∃ sl, os.entry n = some sl := by
  simp only [run, locate_plain os hp, locate_plain os hn, slot_entry] at hr
  split at hr
  · next hi hd => exact ⟨_, hd⟩
  · split at hr <;> cases hr
  · cases hr

/-- A file can be opened for appending unless a directory is in the way or the filesystem does not
take the name. -/
theorem run_openAb_error (hp : Plain p) {e : SysErr} (hr : (os.run (.openAb p)).1 = .error e) :
    os.entry p = some .subdir ∨ os.entry p = none ∧ os.accepts p = false := by
  simp only [run, openNew, locate_plain os hp, slot_entry] at hr
  cases hs : os.store.lookup (os.cwd ++ [p]) with
  | none =>
    refine .inr ⟨hs, ?_⟩
    simp only [hs] at hr
    split at hr
    · cases hr
    · next hc => simpa [creatable] using hc
  | some sl =>
    cases sl with
    | file i =>
      simp only [hs] at hr
      cases hr
    | subdir => exact .inl hs

/-- A file can be linked unless the new name is taken or not to the filesystem's liking. -/
theorem run_link_error (hp : Plain p) (hn : Plain n) {i : Nat} (h : os.entry p = some (.file i))
    {e : SysErr} (hr : (os.run (.link p n)).1 = .error e) :
    e = .fileExists ∨ os.accepts n = false := by
  have hs : os.store.lookup (os.cwd ++ [p]) = some (.file i) := h
  simp only [run, locate_plain os hp, locate_plain os hn, slot_entry, hs] at hr
  cases hd : os.store.lookup (os.cwd ++ [n]) with
  | some sl =>
    simp only [hd] at hr
    cases hr
    exact .inl rfl
  | none =>
    simp only [hd] at hr
    split at hr
    · cases hr
    · next hc => exact .inr (by simpa [creatable] using hc)

theorem run_write_error {i : Nat} {bs : Bytes} {e : SysErr}
    (h : (os.run (.write i bs)).1 = .error e) : OFF_MAX ≤ (os.store.data i).length + bs.length := by
  by_contra hlt
  simp [run, Nat.not_le.mp hlt] at h

end Os

end Retriever
