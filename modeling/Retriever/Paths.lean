/-
# Retriever.Paths — filesystem calls at locations

What the calls do to each location and to each file, for paths of any shape. Directories never
appear or change through the calls of the programs, so a path leads to the same location before
and after (`locate_congr`), except that C's `remove` may take an empty directory away.
-/
import Retriever.Directory

namespace Retriever.Os

variable {os os' : Os} {p q : Bytes} {l l' : Loc} {i : Nat}

/-! ## Slots -/

theorem slot_of_apart (os : Os) (h : ¬ l <+: os.cwd) : os.slot l = os.store.lookup l := if_neg h

theorem not_prefix_of_slot (h : os.slot l ≠ some .subdir) : ¬ l <+: os.cwd := fun hp =>
  h (if_pos hp)

/-- A location with a file or nothing in it is not on the way to the working directory. -/
theorem slot_congr (hc : os'.cwd = os.cwd) (h : os'.store.lookup l = os.store.lookup l) :
    os'.slot l = os.slot l := by
  rw [slot, slot, hc, h]

theorem createAt_slot (h : os.slot l = none) (l' : Loc) :
    (os.createAt l).slot l' = if l' = l then some (.file os.store.next) else os.slot l' := by
  have hp : ¬ l <+: os.cwd := not_prefix_of_slot (by rw [h]; simp)
  by_cases he : l' = l
  · subst he
    rw [if_pos rfl, slot_of_apart (os.createAt l') hp]
    simp [createAt, Store.create_lookup]
  · rw [if_neg he]
    exact slot_congr rfl (by simp [createAt, Store.create_lookup, he])

theorem removeAt_slot (h : ¬ l <+: os.cwd) (l' : Loc) :
    (os.removeAt l).slot l' = if l' = l then none else os.slot l' := by
  by_cases he : l' = l
  · subst he
    rw [if_pos rfl, slot_of_apart (os.removeAt l') h]
    simp [removeAt, rebind, Store.remove_lookup]
  · rw [if_neg he]
    exact slot_congr rfl (by simp [removeAt, rebind, Store.remove_lookup, he])

theorem truncate_slot (os : Os) (i : Nat) (l : Loc) : (os.truncate i).slot l = os.slot l :=
  slot_congr rfl rfl

theorem truncate_data (os : Os) (i j : Nat) :
    (os.truncate i).store.data j = if j = i then [] else os.store.data j :=
  Store.setData_data _ _ _ _

theorem run_write_slot (os : Os) (i : Nat) (bs : Bytes) (l : Loc) :
    (os.run (.write i bs)).2.slot l = os.slot l := by
  simp only [run]
  split <;> rfl

/-! ## What a directory lists -/

/-- A name determines its location. -/
theorem entry_key {k l : Loc} {c : Bytes} (h : (match k.getLast? with
    | some c => if k.dropLast = l then some c else none
    | none => none) = some c) : k = l ++ [c] := by
  split at h
  · next c' hc =>
    split at h
    · next hl =>
      cases h
      rw [← hl, List.dropLast_append_getLast? c hc]
    · cases h
  · cases h

theorem mem_entries_at (os : Os) {n : Bytes} :
    n ∈ os.entries l ↔ os.store.lookup (l ++ [n]) ≠ none := by
  unfold entries Store.lookup
  rw [List.mem_filterMap, ← Option.isSome_iff_ne_none, AList.lookup_isSome, AList.mem_keys]
  constructor
  · rintro ⟨k, hk, hn⟩
    rw [← entry_key hn]
    exact hk
  · intro hk
    exact ⟨_, hk, by simp⟩

theorem entries_nodup (os : Os) : (os.entries l).Nodup := by
  refine List.Nodup.filterMap ?_ os.store.dir.keys_nodup
  intro k k' c hk hk'
  rw [entry_key hk, entry_key hk']

/-! ## Where paths lead -/

theorem walk_congr (hd : ∀ l, os'.isDir l = os.isDir l) (l : Loc) (cs : List Bytes) :
    os'.walk l cs = os.walk l cs := by
  induction cs generalizing l with
  | nil => rfl
  | cons c cs ih => rw [walk, walk, hd, ih]

theorem locate_congr (hc : os'.cwd = os.cwd) (hd : ∀ l, os'.isDir l = os.isDir l) (p : Bytes) :
    os'.locate p = os.locate p := by
  unfold locate
  split
  · rfl
  · rw [walk_congr hd, walk_congr hd, hc]

theorem isDir_congr (h : os'.slot l = os.slot l) : os'.isDir l = os.isDir l := by
  rw [isDir, isDir, h]

/-- Files may come and go without any path leading elsewhere. -/
theorem isDir_of_file (h : os.slot l ≠ some .subdir) (h' : os'.slot l ≠ some .subdir) :
    os'.isDir l = os.isDir l := by
  rw [isDir, isDir, decide_eq_false h, decide_eq_false h']

theorem locate_createAt (h : os.slot l = none) (p : Bytes) :
    (os.createAt l).locate p = os.locate p := by
  apply locate_congr (show (os.createAt l).cwd = os.cwd from rfl)
  intro l'
  by_cases he : l' = l
  · subst he
    exact isDir_of_file (by rw [h]; simp) (by rw [createAt_slot h]; simp)
  · exact isDir_congr (by rw [createAt_slot h, if_neg he])

theorem locate_removeAt (h : os.slot l = some (.file i)) (p : Bytes) :
    (os.removeAt l).locate p = os.locate p := by
  have hp : ¬ l <+: os.cwd := not_prefix_of_slot (by rw [h]; simp)
  apply locate_congr (show (os.removeAt l).cwd = os.cwd from rfl)
  intro l'
  by_cases he : l' = l
  · subst he
    exact isDir_of_file (by rw [h]; simp) (by rw [removeAt_slot hp]; simp)
  · exact isDir_congr (by rw [removeAt_slot hp, if_neg he])

/-- The location and the slot behind what a path leads to. -/
theorem at?_eq_some {sl : Slot} :
    os.at? p = some sl ↔ ∃ l, os.locate p = some l ∧ os.slot l = some sl := by
  simp [at?, Option.bind_eq_some_iff]

theorem at?_eq_none : os.at? p = none ↔ ∀ l, os.locate p = some l → os.slot l = none := by
  simp [at?, Option.bind_eq_none_iff]

/-! ## The calls -/

theorem run_unlink_at (hl : os.locate p = some l) (h : os.slot l = some (.file i)) :
    os.run (.unlink p) = (.ok (), os.removeAt l) := by
  simp [run, hl, h]

theorem run_unlink_dir (h : os.at? p = some .subdir) :
    os.run (.unlink p) = (.error .osError, os) := by
  obtain ⟨l, hl, hs⟩ := at?_eq_some.mp h
  simp [run, hl, hs]

theorem run_openAb_file (h : os.at? p = some (.file i)) : os.run (.openAb p) = (.ok i, os) := by
  obtain ⟨l, hl, hs⟩ := at?_eq_some.mp h
  simp [run, openNew, hl, hs]

theorem run_openAb_dir (h : os.at? p = some .subdir) :
    os.run (.openAb p) = (.error .osError, os) := by
  obtain ⟨l, hl, hs⟩ := at?_eq_some.mp h
  simp [run, openNew, hl, hs]

/-- A missing file is made, with nothing in it. -/
theorem run_openAb_none (h : os.at? p = none) :
    os.run (.openAb p) = (.error .osError, os) ∨
    ∃ l, os.locate p = some l ∧ os.slot l = none ∧ os.creatable l = true ∧
      os.run (.openAb p) = (.ok os.store.next, os.createAt l) := by
  cases hl : os.locate p with
  | none =>
    left
    simp [run, openNew, hl]
  | some l =>
    have hs := at?_eq_none.mp h l hl
    by_cases hc : os.creatable l = true
    · exact .inr ⟨l, rfl, hs, hc, by simp [run, openNew, hl, hs, hc]⟩
    · left
      simp [run, openNew, hl, hs, hc]

/-- A path with content leads to a file. -/
theorem content_at {c : Bytes} (h : os.content p = some c) :
    ∃ i, os.at? p = some (.file i) ∧ os.store.data i = c := by
  unfold content bytesOf at h
  split at h
  · next i hi => exact ⟨i, hi, by simpa using h⟩
  · cases h

theorem statAt_file (h : os.at? p = some (.file i)) :
    os.statAt p = some (.regular (os.store.data i).length) := by
  rw [statAt, h]

theorem statAt_dir (h : os.at? p = some .subdir) : os.statAt p = some (.directory os.dirSize) := by
  rw [statAt, h]

theorem statAt_none (h : os.at? p = none) : os.statAt p = none := by
  rw [statAt, h]

/-! ## Writing in pieces -/

/-- The filesystem after bytes have been added to a file. -/
def extend (os : Os) (i : Nat) (bs : Bytes) : Os := (os.run (.write i bs)).2

theorem run_write {os : Os} {i : Nat} {bs : Bytes}
    (h : (os.store.data i).length + bs.length < OFF_MAX) :
    os.run (.write i bs) = (.ok (), os.extend i bs) := by
  simp only [extend, run, dif_pos h]

theorem extend_eq {os : Os} {i : Nat} {bs : Bytes}
    (h : (os.store.data i).length + bs.length < OFF_MAX) : os.extend i bs = os.appendTo i bs h := by
  simp only [extend, run, dif_pos h]

theorem extend_data {os : Os} {i : Nat} {bs : Bytes}
    (h : (os.store.data i).length + bs.length < OFF_MAX) :
    (os.extend i bs).store.data i = os.store.data i ++ bs := by
  rw [extend_eq h]
  simp [appendTo, Store.append_data]

theorem extend_nil (os : Os) (i : Nat) : os.extend i [] = os := by
  have hsmall : (os.store.data i).length + ([] : Bytes).length < OFF_MAX := by
    simpa using os.small i
  rw [extend_eq hsmall]
  obtain ⟨cwd, ⟨dir, data, next, fresh⟩, accepts, dirSize, small, dirSmall⟩ := os
  simp only [appendTo, Store.append, Store.setData, List.append_nil, Function.update_eq_self]

/-- Two writes to the end of a file are one. -/
theorem extend_extend {os : Os} {i : Nat} {a b : Bytes}
    (h : (os.store.data i).length + (a ++ b).length < OFF_MAX) :
    (os.extend i a).extend i b = os.extend i (a ++ b) := by
  have ha : (os.store.data i).length + a.length < OFF_MAX := by
    rw [List.length_append] at h
    omega
  have hb : ((os.extend i a).store.data i).length + b.length < OFF_MAX := by
    rw [extend_data ha]
    simpa [Nat.add_assoc] using h
  rw [extend_eq hb, extend_eq h]
  obtain ⟨cwd, ⟨dir, data, next, fresh⟩, accepts, dirSize, small, dirSmall⟩ := os
  simp only [extend, run, dif_pos ha, appendTo, Store.append, Store.setData, Function.update_self,
    Function.update_idem, List.append_assoc]

theorem extend_slot (os : Os) (i : Nat) (bs : Bytes) (l : Loc) :
    (os.extend i bs).slot l = os.slot l := run_write_slot os i bs l

theorem extend_other {j : Nat} (os : Os) (bs : Bytes) (h : j ≠ i) :
    (os.extend i bs).store.data j = os.store.data j := by
  simp only [extend, run]
  split
  · simp [appendTo, Store.append_data, h]
  · rfl

theorem extend_next (os : Os) (i : Nat) (bs : Bytes) :
    (os.extend i bs).store.next = os.store.next := by
  simp only [extend, run]
  split <;> rfl

theorem extend_cwd (os : Os) (i : Nat) (bs : Bytes) : (os.extend i bs).cwd = os.cwd := by
  simp only [extend, run]
  split <;> rfl

theorem extend_accepts (os : Os) (i : Nat) (bs : Bytes) : (os.extend i bs).accepts = os.accepts := by
  simp only [extend, run]
  split <;> rfl

theorem locate_extend (os : Os) (i : Nat) (bs p : Bytes) :
    (os.extend i bs).locate p = os.locate p :=
  locate_congr (extend_cwd os i bs) (fun l => isDir_congr (extend_slot os i bs l)) p

/-! ## Links and renames -/

theorem run_link_at {s d : Loc} (hs : os.locate p = some s) (hd : os.locate q = some d)
    (hfile : os.slot s = some (.file i)) (hfree : os.slot d = none) (hc : os.creatable d = true) :
    os.run (.link p q) = (.ok (), os.linked s d) := by
  simp [run, hs, hd, hfile, hfree, hc, linked]

theorem linked_slot {s d : Loc} (hfile : os.slot s = some (.file i)) (hfree : os.slot d = none)
    (l : Loc) : (os.linked s d).slot l = if l = d then some (.file i) else os.slot l := by
  have hs : ¬ s <+: os.cwd := not_prefix_of_slot (by rw [hfile]; simp)
  have hd : ¬ d <+: os.cwd := not_prefix_of_slot (by rw [hfree]; simp)
  have hlook : os.store.lookup s = some (.file i) := by rw [← slot_of_apart os hs, hfile]
  by_cases he : l = d
  · subst he
    rw [if_pos rfl, slot_of_apart (os.linked s l) hd]
    simp [linked, rebind, Store.bind_lookup hlook]
  · rw [if_neg he]
    exact slot_congr rfl (by simp [linked, rebind, Store.bind_lookup hlook, he])

theorem locate_linked {s d : Loc} (hfile : os.slot s = some (.file i)) (hfree : os.slot d = none)
    (p : Bytes) : (os.linked s d).locate p = os.locate p := by
  apply locate_congr (show (os.linked s d).cwd = os.cwd from rfl)
  intro l
  by_cases he : l = d
  · subst he
    exact isDir_of_file (by rw [hfree]; simp) (by rw [linked_slot hfile hfree]; simp)
  · exact isDir_congr (by rw [linked_slot hfile hfree, if_neg he])

theorem linked_next {s d : Loc} : (os.linked s d).store.next = os.store.next := by
  simp only [linked, rebind, Store.bind]
  split <;> rfl

theorem linked_data {s d : Loc} : (os.linked s d).store.data = os.store.data :=
  os.store.bind_data d s

/-- The filesystem after the file at `s` has been given the name `d` and has lost its own. -/
def published (os : Os) (s d : Loc) : Os := (os.linked s d).removeAt s

theorem published_slot {s d : Loc} (hfile : os.slot s = some (.file i)) (hfree : os.slot d = none)
    (l : Loc) : (os.published s d).slot l =
      if l = s then none else if l = d then some (.file i) else os.slot l := by
  have hs : ¬ s <+: os.cwd := not_prefix_of_slot (by rw [hfile]; simp)
  have hs' : ¬ s <+: (os.linked s d).cwd := hs
  rw [published, removeAt_slot hs', linked_slot hfile hfree]

theorem locate_published {s d : Loc} (hfile : os.slot s = some (.file i))
    (hfree : os.slot d = none) (p : Bytes) : (os.published s d).locate p = os.locate p := by
  have hne : s ≠ d := by
    rintro rfl
    rw [hfile] at hfree
    cases hfree
  have hs : (os.linked s d).slot s = some (.file i) := by
    rw [linked_slot hfile hfree, if_neg hne, hfile]
  rw [published, locate_removeAt hs, locate_linked hfile hfree]

theorem published_data {s d : Loc} : (os.published s d).store.data = os.store.data := linked_data

theorem run_rename_at {s d : Loc} (hs : os.locate p = some s) (hd : os.locate q = some d)
    (hfile : os.slot s = some (.file i)) (hfree : os.slot d = none) (hc : os.creatable d = true) :
    os.run (.rename p q) = (.ok (), os.renamed s d) := by
  simp [run, hs, hd, hfile, hfree, hc, renamed]

theorem renamed_slot {s d : Loc} (hfile : os.slot s = some (.file i)) (hfree : os.slot d = none)
    (l : Loc) :
    (os.renamed s d).slot l = if l = s then none else if l = d then some (.file i) else os.slot l := by
  have hs : ¬ s <+: os.cwd := not_prefix_of_slot (by rw [hfile]; simp)
  have hd : ¬ d <+: os.cwd := not_prefix_of_slot (by rw [hfree]; simp)
  have hlook : os.store.lookup s = some (.file i) := by rw [← slot_of_apart os hs, hfile]
  have hslot : ∀ l', ¬ l' <+: os.cwd → (os.renamed s d).slot l' =
      if l' = s then none else if l' = d then some (.file i) else os.store.lookup l' := by
    intro l' hl'
    rw [slot_of_apart (os.renamed s d) hl']
    simp [renamed, rebind, Store.rename_lookup hlook]
  by_cases hp : l <+: os.cwd
  · have hls : l ≠ s := fun h => hs (h ▸ hp)
    have hld : l ≠ d := fun h => hd (h ▸ hp)
    have hnew : (os.renamed s d).slot l = some .subdir :=
      if_pos (show l <+: (os.renamed s d).cwd from hp)
    have hold : os.slot l = some .subdir := if_pos hp
    rw [if_neg hls, if_neg hld, hnew, hold]
  · rw [hslot l hp, slot_of_apart os hp]

theorem locate_renamed {s d : Loc} (hfile : os.slot s = some (.file i)) (hfree : os.slot d = none)
    (p : Bytes) : (os.renamed s d).locate p = os.locate p := by
  apply locate_congr (show (os.renamed s d).cwd = os.cwd from rfl)
  intro l
  by_cases hls : l = s
  · subst hls
    exact isDir_of_file (by rw [hfile]; simp) (by rw [renamed_slot hfile hfree]; simp)
  · by_cases hld : l = d
    · subst hld
      exact isDir_of_file (by rw [hfree]; simp) (by rw [renamed_slot hfile hfree]; simp [hls])
    · exact isDir_congr (by rw [renamed_slot hfile hfree, if_neg hls, if_neg hld])

theorem renamed_next {s d : Loc} : (os.renamed s d).store.next = os.store.next := by
  simp only [renamed, rebind, Store.rename, Store.remove, Store.bind]
  split <;> rfl

theorem renamed_data {s d : Loc} : (os.renamed s d).store.data = os.store.data :=
  os.store.rename_data s d

/-! ## What stays as it was -/

/-- Only the locations in `P`, and the files that were there, may have changed: every other location
has what it had, and every other file its bytes. A file that was there may have another name besides,
which shows its new bytes too. -/
structure Confined (P : Loc → Prop) (os os' : Os) : Prop where
  cwd : os'.cwd = os.cwd
  accepts : os'.accepts = os.accepts
  next : os.store.next ≤ os'.store.next
  slot : ∀ l, ¬ P l → os'.slot l = os.slot l
  data : ∀ i < os.store.next, (∀ l, P l → os.slot l ≠ some (.file i)) →
    os'.store.data i = os.store.data i
  source : ∀ l i, P l → os'.slot l = some (.file i) →
    os.store.next ≤ i ∨ ∃ l', P l' ∧ os.slot l' = some (.file i)

namespace Confined

variable {P : Loc → Prop} {os₁ os₂ : Os}

theorem refl (P : Loc → Prop) (os : Os) : Confined P os os :=
  ⟨rfl, rfl, le_refl _, fun _ _ => rfl, fun _ _ _ => rfl, fun l _ hl h => .inr ⟨l, hl, h⟩⟩

/-- Names whose location is not concerned keep their entry. -/
theorem entry (h : Confined P os os₁) {n : Bytes} (hn : ¬ P (os.cwd ++ [n])) :
    os₁.entry n = os.entry n := by
  have hslot := h.slot _ hn
  rw [← h.cwd] at hslot
  rw [Os.entry, Os.entry, ← Os.slot_entry, ← Os.slot_entry, hslot, h.cwd]

theorem trans (h₁ : Confined P os os₁) (h₂ : Confined P os₁ os₂) : Confined P os os₂ where
  cwd := h₂.cwd.trans h₁.cwd
  accepts := h₂.accepts.trans h₁.accepts
  next := h₁.next.trans h₂.next
  slot := fun l hl => (h₂.slot l hl).trans (h₁.slot l hl)
  data := by
    intro i hi hfree
    rw [h₂.data i (hi.trans_le h₁.next), h₁.data i hi hfree]
    intro l hl hs
    rcases h₁.source l i hl hs with hle | ⟨l', hl', hs'⟩
    · omega
    · exact hfree l' hl' hs'
  source := by
    intro l i hl hs
    rcases h₂.source l i hl hs with hle | ⟨l', hl', hs'⟩
    · exact .inl (h₁.next.trans hle)
    · exact h₁.source l' i hl' hs'

theorem mono {Q : Loc → Prop} (h : Confined P os os₁) (hPQ : ∀ l, P l → Q l) :
    Confined Q os os₁ where
  cwd := h.cwd
  accepts := h.accepts
  next := h.next
  slot := fun l hl => h.slot l fun hp => hl (hPQ l hp)
  data := fun i hi hfree => h.data i hi fun l hl => hfree l (hPQ l hl)
  source := by
    intro l i hl hs
    by_cases hp : P l
    · rcases h.source l i hp hs with hle | ⟨l', hl', hs'⟩
      · exact .inl hle
      · exact .inr ⟨l', hPQ l' hl', hs'⟩
    · rw [h.slot l hp] at hs
      exact .inr ⟨l, hl, hs⟩

theorem createAt (hl : P l) (h : os.slot l = none) : Confined P os (os.createAt l) where
  cwd := rfl
  accepts := rfl
  next := Nat.le_succ _
  slot := fun l' hl' => by
    rw [createAt_slot h, if_neg]
    rintro rfl
    exact hl' hl
  data := by
    intro i hi _
    rw [createAt_data, if_neg (Nat.ne_of_lt hi)]
  source := by
    intro l' i hl' hs
    rw [createAt_slot h] at hs
    split at hs
    · cases hs
      exact .inl (le_refl _)
    · exact .inr ⟨l', hl', hs⟩

theorem removeAt (hl : P l) (h : ¬ l <+: os.cwd) : Confined P os (os.removeAt l) where
  cwd := rfl
  accepts := rfl
  next := le_refl _
  slot := fun l' hl' => by
    rw [removeAt_slot h, if_neg]
    rintro rfl
    exact hl' hl
  data := fun _ _ _ => rfl
  source := by
    intro l' i hl' hs
    rw [removeAt_slot h] at hs
    split at hs
    · cases hs
    · exact .inr ⟨l', hl', hs⟩

theorem extend (hl : P l) (h : os.slot l = some (.file i)) (bs : Bytes) :
    Confined P os (os.extend i bs) where
  cwd := extend_cwd os i bs
  accepts := extend_accepts os i bs
  next := by rw [extend_next]
  slot := fun l' _ => extend_slot os i bs l'
  data := fun j _ hfree => extend_other os bs fun he => hfree l hl (he ▸ h)
  source := by
    intro l' j hl' hs
    rw [extend_slot] at hs
    exact .inr ⟨l', hl', hs⟩

theorem truncate (hl : P l) (h : os.slot l = some (.file i)) : Confined P os (os.truncate i) where
  cwd := rfl
  accepts := rfl
  next := le_refl _
  slot := fun l' _ => truncate_slot os i l'
  data := by
    intro j _ hfree
    rw [truncate_data, if_neg]
    rintro rfl
    exact hfree l hl h
  source := by
    intro l' j hl' hs
    rw [truncate_slot] at hs
    exact .inr ⟨l', hl', hs⟩

theorem linked {s d : Loc} (hs : P s) (hd : P d) (hfile : os.slot s = some (.file i))
    (hfree : os.slot d = none) : Confined P os (os.linked s d) where
  cwd := rfl
  accepts := rfl
  next := by rw [linked_next]
  slot := fun l hl => by
    rw [linked_slot hfile hfree, if_neg]
    rintro rfl
    exact hl hd
  data := fun _ _ _ => by rw [linked_data]
  source := by
    intro l j hl hj
    rw [linked_slot hfile hfree] at hj
    split at hj
    · cases hj
      exact .inr ⟨s, hs, hfile⟩
    · exact .inr ⟨l, hl, hj⟩

theorem published {s d : Loc} (hs : P s) (hd : P d) (hfile : os.slot s = some (.file i))
    (hfree : os.slot d = none) : Confined P os (os.published s d) := by
  have hnot : ¬ s <+: os.cwd := not_prefix_of_slot (by rw [hfile]; simp)
  exact (linked hs hd hfile hfree).trans (removeAt hs hnot)

theorem renamed {s d : Loc} (hs : P s) (hd : P d) (hfile : os.slot s = some (.file i))
    (hfree : os.slot d = none) : Confined P os (os.renamed s d) where
  cwd := rfl
  accepts := rfl
  next := by rw [renamed_next]
  slot := fun l hl => by
    rw [renamed_slot hfile hfree, if_neg, if_neg]
    · rintro rfl
      exact hl hd
    · rintro rfl
      exact hl hs
  data := fun _ _ _ => by rw [renamed_data]
  source := by
    intro l j hl hj
    rw [renamed_slot hfile hfree] at hj
    split at hj
    · cases hj
    · split at hj
      · cases hj
        exact .inr ⟨s, hs, hfile⟩
      · exact .inr ⟨l, hl, hj⟩

end Confined

end Retriever.Os
