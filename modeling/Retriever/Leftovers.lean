/-
# Retriever.Leftovers — what a download leaves in its directory

A download changes the place of the partial it writes, the place of the partial it found, and the
destination. `Os.Fetched` says what is at each of them afterwards, for every way a download can end
(`Os.Transfers.fetched`), and that everything else is as it was.
-/
import Retriever.Fetch

namespace Retriever.Os

variable {os os₁ os' : Os} {old : Option Loc} {p dest g F w : Bytes} {l lp ld s d : Loc} {f i : Nat}

/-! ## Directories stay -/

/-- The same directories are there. -/
structure Alike (os os' : Os) : Prop where
  cwd : os'.cwd = os.cwd
  isDir : ∀ l, os'.isDir l = os.isDir l

namespace Alike

theorem refl (os : Os) : Alike os os := ⟨rfl, fun _ => rfl⟩

theorem trans (h : Alike os os₁) (h' : Alike os₁ os') : Alike os os' :=
  ⟨h'.cwd.trans h.cwd, fun l => (h'.isDir l).trans (h.isDir l)⟩

theorem locate (h : Alike os os') (p : Bytes) : os'.locate p = os.locate p :=
  locate_congr h.cwd h.isDir p

theorem destDir (h : Alike os os') (dest : Bytes) : os'.destDir dest = os.destDir dest := by
  have hdir : os'.isDir = os.isDir := funext h.isDir
  rw [Os.destDir, Os.destDir, locateDir, locateDir, h.locate, hdir]

theorem createAt (h : os.slot l = none) : Alike os (os.createAt l) := by
  refine ⟨rfl, fun l' => ?_⟩
  by_cases he : l' = l
  · subst he
    exact isDir_of_file (by rw [h]; simp) (by rw [createAt_slot h]; simp)
  · exact isDir_congr (by rw [createAt_slot h, if_neg he])

theorem cleared (h : os.Old old) : Alike os (os.cleared old) := by
  refine ⟨by cases old <;> rfl, fun l => ?_⟩
  by_cases he : old = some l
  · obtain ⟨i, hi⟩ := h l he
    exact isDir_of_file (by rw [hi]; simp) (by rw [cleared_slot h, if_pos he]; simp)
  · exact isDir_congr (by rw [cleared_slot h, if_neg he])

theorem extend (os : Os) (i : Nat) (bs : Bytes) : Alike os (os.extend i bs) :=
  ⟨extend_cwd os i bs, fun l => isDir_congr (extend_slot os i bs l)⟩

theorem renamed (hs : os.slot s = some (.file i)) (hd : os.slot d = none) :
    Alike os (os.renamed s d) := by
  refine ⟨rfl, fun l => ?_⟩
  by_cases hls : l = s
  · subst hls
    exact isDir_of_file (by rw [hs]; simp) (by rw [renamed_slot hs hd]; simp)
  · by_cases hld : l = d
    · subst hld
      exact isDir_of_file (by rw [hd]; simp) (by rw [renamed_slot hs hd]; simp [hls])
    · exact isDir_congr (by rw [renamed_slot hs hd, if_neg hls, if_neg hld])

end Alike

/-! ## Names -/

theorem lookup_of_slot (h : os.slot l = some (.file i)) : os.store.lookup l = some (.file i) := by
  rw [← slot_of_apart os (not_prefix_of_slot (by rw [h]; simp)), h]

theorem lookup_of_free (h : os.slot l = none) : os.store.lookup l = none := by
  rw [← slot_of_apart os (not_prefix_of_slot (by rw [h]; simp)), h]

theorem extend_lookup (os : Os) (i : Nat) (bs : Bytes) (l : Loc) :
    (os.extend i bs).store.lookup l = os.store.lookup l := by
  simp only [extend, run]
  split <;> rfl

theorem renamed_lookup (hs : os.slot s = some (.file i)) (l : Loc) :
    (os.renamed s d).store.lookup l =
      if l = s then none else if l = d then some (.file i) else os.store.lookup l :=
  Store.rename_lookup (lookup_of_slot hs) l

theorem cleared_lookup (os : Os) (old : Option Loc) (l : Loc) :
    (os.cleared old).store.lookup l = if old = some l then none else os.store.lookup l := by
  cases old with
  | none => rfl
  | some l₀ =>
    show (os.store.remove l₀).lookup l = _
    rw [Store.remove_lookup]
    by_cases h : l = l₀
    · rw [if_pos h, if_pos (by rw [h])]
    · rw [if_neg h, if_neg (by rintro ⟨⟩; exact h rfl)]

/-! ## After a download -/

/-- The file is new, or was in the partial before. -/
def Own (os : Os) (lp : Loc) (i : Nat) : Prop :=
  os.store.next ≤ i ∨ os.store.lookup lp = some (.file i)

/-- What is on the disk after a download that wrote to the partial at `lp` and had found a partial at
`old`. -/
structure Fetched (os : Os) (old : Option Loc) (lp ld : Loc) (F : Bytes) (ok : Bool) (os' : Os) :
    Prop where
  alike : Alike os os'
  accepts : os'.accepts = os.accepts
  next : os.store.next ≤ os'.store.next
  others : ∀ l, l ≠ lp → l ≠ ld → old ≠ some l → os'.store.lookup l = os.store.lookup l
  gone : ∀ l, old = some l → l ≠ lp → os'.store.lookup l = none
  kept : ok = false → os'.store.lookup ld = none ∧ (os'.store.lookup lp = none ∨
    ∃ i, os'.store.lookup lp = some (.file i) ∧ os'.store.data i <+: F ∧ os.Own lp i)
  done : ok = true → os'.store.lookup lp = none ∧
    ∃ i, os'.slot ld = some (.file i) ∧ os'.store.data i = F ∧ os.Own lp i
  data : ∀ i < os.store.next, os.store.lookup lp ≠ some (.file i) →
    os'.store.data i = os.store.data i

namespace Opened

theorem alike (h : os.Opened old lp g os₁ f) (hold : os.Old old) : Alike os os₁ := by
  cases h with
  | resumed hs hnil => exact .refl os
  | restarted hs hc => exact (Alike.cleared hold).trans (.createAt hs)

theorem accepts (h : os.Opened old lp g os₁ f) : os₁.accepts = os.accepts := by
  cases h with
  | resumed hs hnil => rfl
  | restarted hs hc => cases old <;> rfl

theorem next (h : os.Opened old lp g os₁ f) : os.store.next ≤ os₁.store.next := by
  cases h with
  | resumed hs hnil => exact le_rfl
  | restarted hs hc =>
    show os.store.next ≤ (os.cleared old).store.next + 1
    rw [(cleared_store os old).2]
    exact Nat.le_succ _

theorem slot_self (h : os.Opened old lp g os₁ f) : os₁.slot lp = some (.file f) := by
  cases h with
  | resumed hs hnil => exact hs
  | restarted hs hc => rw [createAt_slot hs, if_pos rfl, (cleared_store os old).2]

theorem slot_free (h : os.Opened old lp g os₁ f) (hold : os.Old old) (hfree : os.slot ld = none)
    (hne : ld ≠ lp) : os₁.slot ld = none := by
  cases h with
  | resumed hs hnil => exact hfree
  | restarted hs hc => rw [createAt_slot hs, if_neg hne, cleared_slot hold, hfree, ite_self]

theorem own (h : os.Opened old lp g os₁ f) : os.Own lp f := by
  cases h with
  | resumed hs hnil => exact .inr (lookup_of_slot hs)
  | restarted hs hc => exact .inl le_rfl

theorem others (h : os.Opened old lp g os₁ f) (hl : l ≠ lp) (ho : old ≠ some l) :
    os₁.store.lookup l = os.store.lookup l := by
  cases h with
  | resumed hs hnil => rfl
  | restarted hs hc =>
    show ((os.cleared old).store.create lp).lookup l = _
    rw [Store.create_lookup, if_neg hl, cleared_lookup, if_neg ho]

theorem gone (h : os.Opened old lp g os₁ f) (hl : l ≠ lp) (ho : old = some l) (hg : g = []) :
    os₁.store.lookup l = none := by
  cases h with
  | resumed hs hnil => exact absurd hg hnil
  | restarted hs hc =>
    show ((os.cleared old).store.create lp).lookup l = _
    rw [Store.create_lookup, if_neg hl, cleared_lookup, if_pos ho]

theorem data_other (h : os.Opened old lp g os₁ f) (hi : i < os.store.next)
    (hlp : os.store.lookup lp ≠ some (.file i)) : i ≠ f ∧ os₁.store.data i = os.store.data i := by
  cases h with
  | resumed hs hnil =>
    refine ⟨?_, rfl⟩
    rintro rfl
    exact hlp (lookup_of_slot hs)
  | restarted hs hc =>
    refine ⟨Nat.ne_of_lt hi, ?_⟩
    rw [createAt_data, (cleared_store os old).2, if_neg (Nat.ne_of_lt hi), (cleared_store os old).1]

end Opened

/-- What the end of a download makes of the open partial. -/
theorem Ends.fetched {ok : Bool} (hopen : os.Opened old lp g os₁ f) (h : os₁.Ends f F lp ld ok os')
    (hold : os.Old old) (hfree : os.slot ld = none) (hne : ld ≠ lp)
    (hsame : ∀ l, old = some l → l ≠ lp → g = []) (hsmall : F.length < OFF_MAX) :
    os.Fetched old lp ld F ok os' := by
  have hslot := hopen.slot_self
  have hld := hopen.slot_free hold hfree hne
  have hroom : ∀ w, os₁.store.data f ++ w <+: F →
      (os₁.store.data f).length + w.length < OFF_MAX := by
    intro w hw
    have := hw.length_le
    rw [List.length_append] at this
    omega
  cases h with
  | @kept w hw =>
    refine ⟨(hopen.alike hold).trans (.extend os₁ f w), ?_, ?_, ?_, ?_, ?_, (fun h => by cases h), ?_⟩
    · rw [extend_accepts, hopen.accepts]
    · rw [extend_next]
      exact hopen.next
    · intro l hl _ ho
      rw [extend_lookup, hopen.others hl ho]
    · intro l ho hl
      rw [extend_lookup, hopen.gone hl ho (hsame l ho hl)]
    · refine fun _ => ⟨?_, .inr ⟨f, ?_, ?_, hopen.own⟩⟩
      · rw [extend_lookup, lookup_of_free hld]
      · rw [extend_lookup, lookup_of_slot hslot]
      · rw [extend_data (hroom w hw)]
        exact hw
    · intro i hi hlp
      obtain ⟨hif, hdata⟩ := hopen.data_other hi hlp
      rw [extend_other os₁ w hif, hdata]
  | @delivered w hw =>
    have hslot' : (os₁.extend f w).slot lp = some (.file f) := by rw [extend_slot, hslot]
    have hld' : (os₁.extend f w).slot ld = none := by rw [extend_slot, hld]
    refine ⟨(hopen.alike hold).trans ((Alike.extend os₁ f w).trans (.renamed hslot' hld')), ?_, ?_, ?_,
      ?_, (fun h => by cases h), ?_, ?_⟩
    · show (os₁.extend f w).accepts = _
      rw [extend_accepts, hopen.accepts]
    · rw [renamed_next, extend_next]
      exact hopen.next
    · intro l hl hl' ho
      rw [renamed_lookup hslot', if_neg hl, if_neg hl', extend_lookup, hopen.others hl ho]
    · intro l ho hl
      have hl' : l ≠ ld := by
        rintro rfl
        obtain ⟨i, hi⟩ := hold l ho
        rw [hfree] at hi
        cases hi
      rw [renamed_lookup hslot', if_neg hl, if_neg hl', extend_lookup, hopen.gone hl ho (hsame l ho hl)]
    · refine fun _ => ⟨?_, f, ?_, ?_, hopen.own⟩
      · rw [renamed_lookup hslot', if_pos rfl]
      · rw [renamed_slot hslot' hld', if_neg hne, if_pos rfl]
      · rw [renamed_data, extend_data (hroom w (by rw [hw]))]
        exact hw
    · intro i hi hlp
      obtain ⟨hif, hdata⟩ := hopen.data_other hi hlp
      rw [renamed_data, extend_other os₁ w hif, hdata]

/-- **What a download leaves behind**, however it ends. -/
theorem Transfers.fetched {ok : Bool} (h : os.Transfers old lp ld g F ok os') (hold : os.Old old)
    (hfree : os.slot ld = none) (hne : ld ≠ lp) (hsame : ∀ l, old = some l → l ≠ lp → g = [])
    (hsmall : F.length < OFF_MAX) : os.Fetched old lp ld F ok os' := by
  cases h with
  | ended hopen hends => exact hends.fetched hopen hold hfree hne hsame hsmall
  | refused hs hc =>
    refine ⟨.cleared hold, by cases old <;> rfl, by rw [(cleared_store os old).2], ?_, ?_, ?_,
      (fun h => by cases h), ?_⟩
    · intro l _ _ ho
      rw [cleared_lookup, if_neg ho]
    · intro l ho _
      rw [cleared_lookup, if_pos ho]
    · refine fun _ => ⟨?_, .inl (lookup_of_free hs)⟩
      rw [cleared_lookup, lookup_of_free hfree, ite_self]
    · intro i _ _
      rw [(cleared_store os old).1]

end Retriever.Os
