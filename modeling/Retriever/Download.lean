/-
# Retriever.Download — a download against any server

Both clients trust the reply of the server for the size, the offset and the hash, and both touch
three places only: the leftover partial they found, the partial of the hash in the reply, and the
destination. What happens on the disk before the last step is confined to the first two
(`Os.Guarded`), which are other places than the destination; the last step is the `rename` of a file
whose hash has just been compared. So whatever is sent, `dest` appears only with content of the hash
that was announced.
-/
import Retriever.Client
import Retriever.Partials
import Retriever.Sha256.Refine

namespace Retriever

open Os (SLASH DOT)
open Proc (Yields)

/-! ## Changes that stay away from the destination -/

namespace Os

variable {P : Loc → Prop} {os₀ os : Os} {p q dest : Bytes} {l : Loc} {i : Nat}

/-- Only the locations in `P` have changed, and no directory has appeared. -/
structure Guarded (P : Loc → Prop) (os₀ os : Os) : Prop where
  confined : Confined P os₀ os
  dirs : ∀ l, os.isDir l = true → os₀.isDir l = true

theorem Guarded.refl (P : Loc → Prop) (os : Os) : Guarded P os os := ⟨.refl P os, fun _ h => h⟩

theorem walk_mono (hd : ∀ l, os.isDir l = true → os₀.isDir l = true) {l l' : Loc} {cs : List Bytes}
    (h : os.walk l cs = some l') : os₀.walk l cs = some l' := by
  induction cs generalizing l with
  | nil => exact h
  | cons c cs ih =>
    rw [walk] at h ⊢
    split at h
    · next hl =>
      rw [if_pos (hd l hl)]
      exact ih h
    · cases h

/-- A path that still leads somewhere leads where it led before. -/
theorem Guarded.locate (h : Guarded P os₀ os) (hl : os.locate p = some l) :
    os₀.locate p = some l := by
  unfold Os.locate at hl ⊢
  cases p with
  | nil => cases hl
  | cons b rest =>
    simp only at hl ⊢
    split at hl
    · next hb =>
      rw [if_pos hb]
      exact walk_mono h.dirs hl
    · next hb =>
      rw [if_neg hb, ← h.confined.cwd]
      exact walk_mono h.dirs hl

/-- What was absent is absent, unless it lies in `P`. -/
theorem Guarded.absent (h : Guarded P os₀ os) (h₀ : os₀.at? dest = none)
    (hP : ∀ l, os₀.locate dest = some l → ¬ P l) : os.at? dest = none := by
  refine at?_eq_none.mpr fun l hl => ?_
  have hl₀ := h.locate hl
  rw [h.confined.slot l (hP l hl₀)]
  exact at?_eq_none.mp h₀ l hl₀

theorem Guarded.step {os' : Os} (h : Guarded P os₀ os) (hc : Confined P os os')
    (hd : ∀ l, os'.isDir l = true → os.isDir l = true) : Guarded P os₀ os' :=
  ⟨h.confined.trans hc, fun l hl => h.dirs l (hd l hl)⟩

theorem isDir_of_removeAt (hl : ¬ l <+: os.cwd) {l' : Loc} (h : (os.removeAt l).isDir l' = true) :
    os.isDir l' = true := by
  unfold isDir at h ⊢
  rw [removeAt_slot hl] at h
  split at h
  · simp at h
  · exact h

/-- `os.remove` in `P`. -/
theorem Guarded.unlink (h : Guarded P os₀ os) (hq : ∀ l, os₀.locate q = some l → P l) :
    Guarded P os₀ (os.run (.unlink q)).2 := by
  simp only [run]
  cases hl : os.locate q with
  | none => exact h
  | some l =>
    have hP := hq l (h.locate hl)
    simp only
    split
    · next i hi =>
      have hnot : ¬ l <+: os.cwd := not_prefix_of_slot (by rw [hi]; simp)
      exact h.step (.removeAt hP hnot) fun _ => isDir_of_removeAt hnot
    · exact h

/-- C's `remove` in `P`. -/
theorem Guarded.remove (h : Guarded P os₀ os) (hq : ∀ l, os₀.locate q = some l → P l) :
    Guarded P os₀ (os.run (.remove q)).2 := by
  simp only [run]
  cases hl : os.locate q with
  | none => exact h
  | some l =>
    have hP := hq l (h.locate hl)
    simp only
    split
    · next i hi =>
      have hnot : ¬ l <+: os.cwd := not_prefix_of_slot (by rw [hi]; simp)
      exact h.step (.removeAt hP hnot) fun _ => isDir_of_removeAt hnot
    · split
      · next hempty => exact h.step (.removeAt hP hempty.2) fun _ => isDir_of_removeAt hempty.2
      · exact h
    · exact h

/-- The open file lies in `P`. -/
def Held (P : Loc → Prop) (os : Os) (i : Nat) : Prop := ∃ l, P l ∧ os.slot l = some (.file i)

/-- Opening a file in `P` for writing: what happens to a file that is there is `existing`. -/
theorem Guarded.openNew {existing : Nat → Os} (h : Guarded P os₀ os)
    (hq : ∀ l, os₀.locate q = some l → P l)
    (hex : ∀ l i, P l → os.slot l = some (.file i) →
      Confined P os (existing i) ∧ ∀ l', (existing i).slot l' = os.slot l') :
    Guarded P os₀ (os.openNew q existing).2 ∧
      ∀ i, (os.openNew q existing).1 = .ok i → Held P (os.openNew q existing).2 i := by
  unfold Os.openNew
  cases hl : os.locate q with
  | none => exact ⟨h, fun i hi => by cases hi⟩
  | some l =>
    have hP := hq l (h.locate hl)
    simp only
    split
    · next j hj =>
      obtain ⟨hc, hslot⟩ := hex l j hP hj
      refine ⟨h.step hc fun l' hl' => ?_, ?_⟩
      · rwa [isDir_congr (hslot l')] at hl'
      · intro i hi
        cases hi
        exact ⟨l, hP, by rw [hslot, hj]⟩
    · exact ⟨h, fun i hi => by cases hi⟩
    · next hfree =>
      split
      · refine ⟨h.step (.createAt hP hfree) fun l' hl' => ?_, ?_⟩
        · unfold isDir at hl' ⊢
          rw [createAt_slot hfree] at hl'
          split at hl'
          · simp at hl'
          · exact hl'
        · intro i hi
          cases hi
          exact ⟨l, hP, by rw [createAt_slot hfree, if_pos rfl]⟩
      · exact ⟨h, fun i hi => by cases hi⟩

theorem Guarded.openAb (h : Guarded P os₀ os) (hq : ∀ l, os₀.locate q = some l → P l) :
    Guarded P os₀ (os.run (.openAb q)).2 ∧
      ∀ i, (os.run (.openAb q)).1 = .ok i → Held P (os.run (.openAb q)).2 i :=
  h.openNew hq fun _ _ _ _ => ⟨.refl P os, fun _ => rfl⟩

theorem Guarded.openWb (h : Guarded P os₀ os) (hq : ∀ l, os₀.locate q = some l → P l) :
    Guarded P os₀ (os.run (.openWb q)).2 ∧
      ∀ i, (os.run (.openWb q)).1 = .ok i → Held P (os.run (.openWb q)).2 i :=
  h.openNew hq fun _ i hP hi => ⟨.truncate hP hi, fun l' => truncate_slot os i l'⟩

theorem Guarded.write (h : Guarded P os₀ os) (hi : Held P os i) (bs : Bytes) :
    Guarded P os₀ (os.run (.write i bs)).2 ∧ Held P (os.run (.write i bs)).2 i := by
  obtain ⟨l, hP, hl⟩ := hi
  refine ⟨h.step (Confined.extend hP hl bs) fun l' hl' => ?_, l, hP, ?_⟩
  · rwa [isDir_congr (run_write_slot os i bs l')] at hl'
  · rw [run_write_slot, hl]

/-- The last step: the file at `q` gets the name `dest`, or nothing happens. -/
theorem Guarded.rename (h : Guarded P os₀ os) (hq : ∀ l, os₀.locate q = some l → P l)
    (h₀ : os₀.at? dest = none) (hP : ∀ l, os₀.locate dest = some l → ¬ P l)
    (hfile : os.at? q = some (.file i)) :
    ((os.run (.rename q dest)).1 = .ok () ∧
      (os.run (.rename q dest)).2.content dest = some (os.store.data i) ∧
      Confined (fun l => os₀.locate dest = some l ∨ P l) os₀ (os.run (.rename q dest)).2) ∨
    ∃ e, os.run (.rename q dest) = (.error e, os) := by
  obtain ⟨s, hs, hslot⟩ := at?_eq_some.mp hfile
  have habsent := h.absent h₀ hP
  cases hd : os.locate dest with
  | none => exact .inr ⟨.osError, by simp [run, hs, hd]⟩
  | some d =>
    have hfree := at?_eq_none.mp habsent d hd
    have hd₀ := h.locate hd
    by_cases hc : os.creatable d = true
    · left
      have hrun := run_rename_at hs hd hslot hfree hc
      have hne : d ≠ s := by
        rintro rfl
        exact hP d hd₀ (hq d (h.locate hs))
      refine ⟨by rw [hrun], ?_, ?_⟩
      · have hat : (os.renamed s d).at? dest = some (.file i) := by
          refine at?_eq_some.mpr ⟨d, by rw [locate_renamed hslot hfree, hd], ?_⟩
          rw [renamed_slot hslot hfree, if_neg hne, if_pos rfl]
        rw [hrun, content, hat]
        show some ((os.renamed s d).store.data i) = _
        rw [renamed_data]
      · rw [hrun]
        exact (h.confined.mono fun l hl => .inr hl).trans
          (Confined.renamed (.inr (hq s (h.locate hs))) (.inl hd₀) hslot hfree)
    · exact .inr ⟨.osError, by simp [run, hs, hd, hslot, hfree, hc]⟩

end Os

/-! ## A peer that sends anything -/

section Hostile

variable {m : Machine Bytes}

theorem readExactLoop_hostile {n fuel : Nat} {data : Bytes} {Q : Bytes → Machine Bytes → Prop}
    {E : Exn → Machine Bytes → Prop} (hn : data.length ≤ n) (hfuel : n ≤ data.length + fuel)
    (hQ : ∀ rest, (data ++ rest).length = n → Q (data ++ rest) { m with net := m.net ++ rest })
    (hE : ∀ e rest, E e { m with net := m.net ++ rest }) :
    (readExactLoop n fuel data).wp Net.hostile.env Q E m := by
  induction fuel generalizing data m with
  | zero =>
    show Q data m
    simpa using hQ [] (by simp; omega)
  | succ fuel ih =>
    unfold readExactLoop
    split
    · next hlt =>
      refine Proc.wp_bind.mpr (Py.wpm_recv.mpr ⟨trivial, ?_⟩)
      rintro a x (⟨c, rfl, hc, rfl⟩ | ⟨e, rfl, rfl⟩)
      · show Proc.wp _ _ _ _ _
        split
        · exact hE _ c
        · next hne =>
          have hpos : 0 < c.length := List.length_pos_iff.mpr hne
          refine ih (by simp; omega) (by simp; omega) ?_ ?_
          · intro rest hrest
            have := hQ (c ++ rest) (by rw [← List.append_assoc]; exact hrest)
            rwa [← List.append_assoc, ← List.append_assoc] at this
          · intro e rest
            have := hE e (c ++ rest)
            rwa [← List.append_assoc] at this
      · have := hE (.sys e) []
        rwa [List.append_nil] at this
    · next hge => simpa using hQ [] (by simp; omega)

/-- `n` bytes arrive, or fewer and an error. -/
theorem readExactBytes_hostile {n : Nat} {Q : Bytes → Machine Bytes → Prop}
    {E : Exn → Machine Bytes → Prop}
    (hQ : ∀ data, data.length = n → Q data { m with net := m.net ++ data })
    (hE : ∀ e rest, E e { m with net := m.net ++ rest }) :
    (readExactBytes n).wp Net.hostile.env Q E m :=
  readExactLoop_hostile (by simp) (by simp) (fun rest hrest => hQ rest hrest) hE

theorem C.readExactLoop_hostile {n fuel : Nat} {data : Bytes}
    {Q : Option Bytes → Machine Bytes → Prop} {E : Empty → Machine Bytes → Prop}
    (hn : data.length ≤ n) (hfuel : n ≤ data.length + fuel)
    (hQ : ∀ rest, (data ++ rest).length = n → Q (some (data ++ rest)) { m with net := m.net ++ rest })
    (hnone : ∀ rest, Q none { m with net := m.net ++ rest }) :
    (C.readExactLoop n fuel data).wp Net.hostile.env Q E m := by
  induction fuel generalizing data m with
  | zero =>
    show Q (some data) m
    simpa using hQ [] (by simp; omega)
  | succ fuel ih =>
    unfold C.readExactLoop
    split
    · next hlt =>
      refine Proc.wp_bind.mpr (Proc.wp_perform.mpr (Net.call_recv.mpr ⟨trivial, ?_⟩))
      rintro a x (⟨c, rfl, hc, rfl⟩ | ⟨e, rfl, rfl⟩)
      · simp only
        split
        · exact hnone c
        · next hne =>
          have hpos : 0 < c.length := List.length_pos_iff.mpr hne
          refine ih (by simp; omega) (by simp; omega) ?_ ?_
          · intro rest hrest
            have := hQ (c ++ rest) (by rw [← List.append_assoc]; exact hrest)
            rwa [← List.append_assoc, ← List.append_assoc] at this
          · intro rest
            have := hnone (c ++ rest)
            rwa [← List.append_assoc] at this
      · have := hnone []
        rwa [List.append_nil] at this
    · next hge => simpa using hQ [] (by simp; omega)

theorem C.readExact_hostile {n : Nat} {Q : Option Bytes → Machine Bytes → Prop}
    {E : Empty → Machine Bytes → Prop}
    (hQ : ∀ data, data.length = n → Q (some data) { m with net := m.net ++ data })
    (hnone : ∀ rest, Q none { m with net := m.net ++ rest }) :
    (C.readExact n).wp Net.hostile.env Q E m :=
  C.readExactLoop_hostile (by simp) (by simp) (fun rest hrest => hQ rest hrest) hnone

end Hostile

/-! ## A download, once the metadata is there -/

/-- `open(partial, "ab" if start else "wb")` -/
def Os.openPartial (os : Os) (start : Nat) (p : Bytes) : Except SysErr Nat × Os :=
  if start = 0 then os.run (.openWb p) else os.run (.openAb p)

/-- The old partial goes when the server starts over. -/
def Os.discardOld (os : Os) (start : Nat) (existing : Option Bytes) : Except SysErr Unit × Os :=
  match existing with
  | some q => if start = 0 then os.run (.unlink q) else (.ok (), os)
  | none => (.ok (), os)

/-- The old partial goes when the server starts over, if it can be removed. -/
def C.discardOld (os : Os) (start : Nat) (existing : C.Found) : Os :=
  match existing with
  | .found q _ _ => if start = 0 then (os.run (.remove q)).2 else os
  | _ => os

section Rules

variable {N : Type} {net : Net N} {m : Machine N} {dest p metadata : Bytes}

/-- The `try` of Python: the partial is opened, and the body is saved. -/
theorem fetchBody_wp {total start : Nat} {Q : Unit → Machine N → Prop} {E : Exn → Machine N → Prop}
    (h : Outcome (fun f => (saveBody f (total - start) (total - start)).wp net.env Q
        (fun _ => E (.exit EXIT_CONN "download interrupted (partial kept for resume)".toList)))
      (fun _ => E (.exit EXIT_CONN "download interrupted (partial kept for resume)".toList))
      (m.os.openPartial start p).1 { m with os := (m.os.openPartial start p).2 }) :
    (fetchBody p total start).wp net.env Q E m := by
  apply Proc.wp_tryCatch.mpr
  unfold Os.openPartial at h
  simp only
  by_cases hs : start = 0
  · rw [if_pos hs] at h
    rw [if_neg (not_not.mpr hs)]
    exact Proc.wp_bind.mpr (Py.wpm_openWb.mpr h)
  · rw [if_neg hs] at h
    rw [if_pos hs]
    exact Proc.wp_bind.mpr (Py.wpm_openAb.mpr h)

/-- Python: what was found goes, and the body is fetched. -/
theorem receiveDownload_wp {existing : Option Bytes} {Q : Unit → Machine N → Prop}
    {E : Exn → Machine N → Prop}
    (h : Outcome (fun _ => (fetchBody (partialName dest (metadata.drop 16)) (ofBE (metadata.take 8))
        (ofBE ((metadata.drop 8).take 8))).wp net.env
        (fun _ => (verifyDownload dest (partialName dest (metadata.drop 16)) (metadata.drop 16)).wp
          net.env Q E) E) E (m.os.discardOld (ofBE ((metadata.drop 8).take 8)) existing).1
      { m with os := (m.os.discardOld (ofBE ((metadata.drop 8).take 8)) existing).2 }) :
    (receiveDownload dest existing metadata).wp net.env Q E m := by
  unfold receiveDownload
  unfold Os.discardOld at h
  by_cases hs : ofBE ((metadata.drop 8).take 8) = 0
  · rw [if_pos hs]
    cases existing with
    | none => exact Proc.wp_bind.mpr h
    | some q =>
      simp only [if_pos hs] at h
      refine Proc.wp_bind.mpr (Py.wpm_remove.mpr ?_)
      cases hrun : (m.os.run (.unlink q)).1 with
      | error e =>
        rw [hrun] at h
        exact h
      | ok u =>
        rw [hrun] at h
        exact Proc.wp_bind.mpr h
  · rw [if_neg hs]
    cases existing with
    | none => exact Proc.wp_bind.mpr h
    | some q =>
      simp only [if_neg hs] at h
      exact Proc.wp_bind.mpr h

theorem C.fopenPartial_wp {start : UInt64} {Q : Except SysErr Nat → Machine N → Prop}
    {E : Empty → Machine N → Prop}
    (h : Q (m.os.openPartial start.toNat p).1 { m with os := (m.os.openPartial start.toNat p).2 }) :
    (C.fopenPartial p start).wp net.env Q E m := by
  unfold C.fopenPartial
  unfold Os.openPartial at h
  have hiff : start > 0 ↔ start.toNat ≠ 0 := by
    rw [gt_iff_lt, UInt64.lt_iff_toNat_lt]
    exact Nat.pos_iff_ne_zero
  by_cases hs : start.toNat = 0
  · rw [if_pos hs] at h
    rw [if_neg (by rw [hiff]; exact not_not.mpr hs)]
    exact Proc.wp_perform.mpr (Net.call_fs.mpr h)
  · rw [if_neg hs] at h
    rw [if_pos (hiff.mpr hs)]
    exact Proc.wp_perform.mpr (Net.call_fs.mpr h)

/-- C: what was found goes, and the body is fetched. -/
theorem C.receiveDownload_wp {existing : C.Found} {Q : Bool → Machine N → Prop}
    {E : Empty → Machine N → Prop} (hnone : C.partialName dest (metadata.drop 16) = none → Q false m)
    (hfetch : ∀ p, C.partialName dest (metadata.drop 16) = some p →
      (C.fetchBody dest p (metadata.drop 16) (C.getU64 (metadata.drop 8))
        (C.getU64 metadata - C.getU64 (metadata.drop 8))).wp net.env Q E
        { m with os := C.discardOld m.os (C.getU64 (metadata.drop 8)).toNat existing }) :
    (C.receiveDownload dest existing metadata).wp net.env Q E m := by
  unfold C.receiveDownload
  simp only
  cases hp : C.partialName dest (metadata.drop 16) with
  | none => exact hnone hp
  | some p =>
    have hfetch := hfetch p hp
    simp only
    by_cases hs : C.getU64 (metadata.drop 8) = 0
    · rw [if_pos hs]
      cases existing with
      | found path size token =>
        refine Proc.wp_bind.mpr (Proc.wp_perform.mpr (Net.call_fs.mpr ?_))
        rw [show C.discardOld m.os _ (.found path size token) = (m.os.run (.remove path)).2 from
          if_pos (by rw [hs]; rfl)] at hfetch
        exact hfetch
      | absent => exact hfetch
      | failed => exact hfetch
    · rw [if_neg hs]
      cases existing with
      | found path size token =>
        rw [show C.discardOld m.os _ (.found path size token) = m.os from
          if_neg fun h => hs (UInt64.toNat_inj.mp h)] at hfetch
        exact hfetch
      | absent => exact hfetch
      | failed => exact hfetch

end Rules

/-! ## What a download may do -/

/-- The hash in the metadata block of a reply, which follows the header. -/
def metaHash (got : Bytes) : Bytes := (got.drop (HEADER_SIZE + 16)).take HASH_SIZE

/-- The places of the partial that was found and of the partial of a hash. -/
def Spots (os : Os) (existing : Option Bytes) (partialAt : Bytes → Option Bytes) (digest : Bytes)
    (l : Loc) : Prop :=
  (∃ p, existing = some p ∧ os.locate p = some l) ∨
    ∃ p, partialAt digest = some p ∧ os.locate p = some l

/-- The places a download may touch when it has received `got`. Without a whole metadata block there
is no partial of its hash. -/
def Touched (os : Os) (dest : Bytes) (existing : Option Bytes) (partialAt : Bytes → Option Bytes)
    (got : Bytes) (l : Loc) : Prop :=
  os.locate dest = some l ∨ (∃ p, existing = some p ∧ os.locate p = some l) ∨
    HEADER_SIZE + GET_META ≤ got.length ∧ ∃ p, partialAt (metaHash got) = some p ∧
      os.locate p = some l

/-- What a download that has received `got` and ends as `ok` says makes of the disk. -/
structure DownloadSafe (os : Os) (dest : Bytes) (existing : Option Bytes)
    (partialAt : Bytes → Option Bytes) (ok : Prop) (got : Bytes) (os' : Os) : Prop where
  taken : os.at? dest ≠ none → os' = os
  success : ok → os.at? dest = none ∧ ∃ c, os'.content dest = some c ∧ sha256 c = metaHash got
  failure : os.at? dest = none → ¬ ok → os'.at? dest = none
  confined : Os.Confined (Touched os dest existing partialAt got) os os'

theorem DownloadSafe.unchanged {os : Os} {dest : Bytes} {existing : Option Bytes}
    {partialAt : Bytes → Option Bytes} {ok : Prop} (hok : ¬ ok) (got : Bytes) :
    DownloadSafe os dest existing partialAt ok got os :=
  ⟨fun _ => rfl, fun h => absurd h hok, fun h _ => h, .refl _ os⟩

section Steps

variable {os₀ : Os} {dest : Bytes} {existing : Option Bytes} {partialAt : Bytes → Option Bytes}
  {digest pre : Bytes}

/-- What is known from the time the metadata block has arrived: the destination is free, what was
found is there, the partials are other places than the destination, and the block holds `digest`. -/
structure Fetching (os₀ : Os) (dest : Bytes) (existing : Option Bytes)
    (partialAt : Bytes → Option Bytes) (digest pre : Bytes) : Prop where
  free : os₀.at? dest = none
  found : ∀ p, existing = some p → os₀.at? p ≠ none
  apart : ∀ p l, partialAt digest = some p → os₀.locate dest = some l → os₀.locate p ≠ some l
  length : HEADER_SIZE + GET_META ≤ pre.length
  hash : metaHash pre = digest

theorem Fetching.spots_ne (h : Fetching os₀ dest existing partialAt digest pre) :
    ∀ l, os₀.locate dest = some l → ¬ Spots os₀ existing partialAt digest l := by
  rintro l hl (⟨p, hp, hlp⟩ | ⟨p, hp, hlp⟩)
  · have hnone := Os.at?_eq_none.mp h.free l hl
    obtain ⟨sl, hsl⟩ := Option.ne_none_iff_exists'.mp (h.found p hp)
    obtain ⟨l', hl', hs⟩ := Os.at?_eq_some.mp hsl
    rw [hlp] at hl'
    cases hl'
    rw [hnone] at hs
    cases hs
  · exact h.apart p l hp hl hlp

theorem metaHash_extends {pre got : Bytes} (h : pre <+: got)
    (hlen : HEADER_SIZE + GET_META ≤ pre.length) : metaHash got = metaHash pre := by
  obtain ⟨rest, rfl⟩ := h
  have h1 : HEADER_SIZE + GET_META = 62 := rfl
  have h2 : HEADER_SIZE + 16 = 30 := rfl
  have h3 : HASH_SIZE = 32 := rfl
  unfold metaHash
  rw [List.drop_append_of_le_length (by omega),
    List.take_append_of_le_length (by rw [List.length_drop]; omega)]

theorem Fetching.touched (h : Fetching os₀ dest existing partialAt digest pre) {got : Bytes}
    (hpre : pre <+: got) {l : Loc} (hl : Spots os₀ existing partialAt digest l) :
    Touched os₀ dest existing partialAt got l := by
  rcases hl with hl | hl
  · exact .inr (.inl hl)
  · refine .inr (.inr ⟨h.length.trans hpre.length_le, ?_⟩)
    rw [metaHash_extends hpre h.length, h.hash]
    exact hl

/-- The download is under way. -/
def Underway (os₀ : Os) (existing : Option Bytes) (partialAt : Bytes → Option Bytes)
    (digest pre : Bytes) (m : Machine Bytes) : Prop :=
  Os.Guarded (Spots os₀ existing partialAt digest) os₀ m.os ∧ pre <+: m.net

/-- Giving up at any point on the way is safe. -/
theorem Fetching.stopped (h : Fetching os₀ dest existing partialAt digest pre) {ok : Prop}
    (hok : ¬ ok) {m : Machine Bytes} (hm : Underway os₀ existing partialAt digest pre m) :
    DownloadSafe os₀ dest existing partialAt ok m.net m.os where
  taken hne := absurd h.free hne
  success hs := absurd hs hok
  failure h₀ _ := hm.1.absent h₀ h.spots_ne
  confined := hm.1.confined.mono fun _ hl => h.touched hm.2 hl

/-- The last step is safe. -/
theorem Fetching.renamed (h : Fetching os₀ dest existing partialAt digest pre) {p : Bytes}
    (hp : partialAt digest = some p) {m : Machine Bytes}
    (hm : Underway os₀ existing partialAt digest pre m) {i : Nat}
    (hfile : m.os.at? p = some (.file i)) (hhash : sha256 (m.os.store.data i) = digest) :
    ((m.os.run (.rename p dest)).1 = .ok () ∧ ∀ {ok : Prop}, ok →
      DownloadSafe os₀ dest existing partialAt ok m.net (m.os.run (.rename p dest)).2) ∨
    ∃ e, m.os.run (.rename p dest) = (.error e, m.os) := by
  have hspot : ∀ l, os₀.locate p = some l → Spots os₀ existing partialAt digest l :=
    fun l hl => .inr ⟨p, hp, hl⟩
  rcases hm.1.rename hspot h.free h.spots_ne hfile with ⟨hok, hcontent, hconf⟩ | herr
  · refine .inl ⟨hok, fun {ok} hok' => ⟨fun hne => absurd h.free hne, fun _ => ⟨h.free, _, hcontent, ?_⟩,
      fun _ hno => absurd hok' hno, hconf.mono ?_⟩⟩
    · rw [metaHash_extends hm.2 h.length, h.hash, hhash]
    · rintro l (hl | hl)
      · exact .inl hl
      · exact h.touched hm.2 hl
  · exact .inr herr

/-! ## Python -/

theorem Os.run_openRb_missing {os : Os} {p : Bytes} (h : ∀ i, os.at? p ≠ some (.file i)) :
    (os.run (.openRb p)).1 = .error .osError := by
  cases hat : os.at? p with
  | none => simp [Os.run, hat]
  | some sl =>
    cases sl with
    | file i => exact absurd hat (h i)
    | subdir => simp [Os.run, hat]

/-- A path that does not lead to a file cannot be hashed. -/
theorem wpm_sha256File_missing {N : Type} {net : Net N} {m : Machine N}
    {E : Exn → Machine N → Prop} {p : Bytes} (h : ∀ i, m.os.at? p ≠ some (.file i))
    {Q : Bytes → Machine N → Prop} (hE : E (.sys .osError) m) : (sha256File p).wp net.env Q E m := by
  unfold sha256File
  refine Proc.wp_bind.mpr (Py.wpm_openRb.mpr ?_)
  rw [Os.run_openRb_missing h]
  exact hE

/-- The loop keeps the download under way, whatever arrives. -/
theorem saveBody_underway {f : Nat} {m : Machine Bytes} (fuel remaining : Nat)
    (hm : Underway os₀ existing partialAt digest pre m)
    (hf : Os.Held (Spots os₀ existing partialAt digest) m.os f) :
    (saveBody f fuel remaining).wp Net.hostile.env
      (fun _ m => Underway os₀ existing partialAt digest pre m)
      (fun _ m => Underway os₀ existing partialAt digest pre m) m := by
  induction fuel generalizing remaining m with
  | zero => exact hm
  | succ fuel ih =>
    unfold saveBody
    split
    · refine Proc.wp_bind.mpr (Py.wpm_recv.mpr ⟨trivial, ?_⟩)
      rintro a x (⟨c, rfl, -, rfl⟩ | ⟨e, rfl, rfl⟩)
      · have hm' : Underway os₀ existing partialAt digest pre { m with net := m.net ++ c } :=
          ⟨hm.1, hm.2.trans (List.prefix_append _ _)⟩
        show Proc.wp _ _ _ _ _
        split
        · exact hm'
        · refine Proc.wp_bind.mpr (Py.wpm_write.mpr ?_)
          obtain ⟨hg, hheld⟩ := hm.1.write hf c
          cases (m.os.run (.write f c)).1 with
          | ok u => exact ih _ ⟨hg, hm'.2⟩ hheld
          | error e => exact ⟨hg, hm'.2⟩
      · exact hm
    · exact hm

/-- The partial is opened. -/
theorem Underway.openPartial {m : Machine Bytes} {p : Bytes}
    (hm : Underway os₀ existing partialAt digest pre m) (hp : partialAt digest = some p) (start : Nat) :
    Underway os₀ existing partialAt digest pre { m with os := (m.os.openPartial start p).2 } ∧
      ∀ f, (m.os.openPartial start p).1 = .ok f →
        Os.Held (Spots os₀ existing partialAt digest) (m.os.openPartial start p).2 f := by
  have hspot : ∀ l, os₀.locate p = some l → Spots os₀ existing partialAt digest l :=
    fun l hl => .inr ⟨p, hp, hl⟩
  unfold Os.openPartial
  split
  · obtain ⟨hg, hheld⟩ := hm.1.openWb hspot
    exact ⟨⟨hg, hm.2⟩, hheld⟩
  · obtain ⟨hg, hheld⟩ := hm.1.openAb hspot
    exact ⟨⟨hg, hm.2⟩, hheld⟩

theorem fetchBody_underway {m : Machine Bytes} {p : Bytes} (hp : partialAt digest = some p)
    (totalSize start : Nat) (hm : Underway os₀ existing partialAt digest pre m) :
    (fetchBody p totalSize start).wp Net.hostile.env
      (fun _ m => Underway os₀ existing partialAt digest pre m)
      (fun _ m => Underway os₀ existing partialAt digest pre m) m := by
  obtain ⟨hopened, hheld⟩ := hm.openPartial hp start
  apply fetchBody_wp
  cases hr : (m.os.openPartial start p).1 with
  | ok f => exact saveBody_underway _ _ hopened (hheld f hr)
  | error e => exact hopened

theorem verifyDownload_safe (h : Fetching os₀ dest existing partialAt digest pre)
    {m : Machine Bytes} {p : Bytes} (hp : partialAt digest = some p)
    (hm : Underway os₀ existing partialAt digest pre m) :
    (verifyDownload dest p digest).wp Net.hostile.env
      (fun _ m => DownloadSafe os₀ dest existing partialAt True m.net m.os)
      (fun _ m => DownloadSafe os₀ dest existing partialAt False m.net m.os) m := by
  have hspot : ∀ l, os₀.locate p = some l → Spots os₀ existing partialAt digest l :=
    fun l hl => .inr ⟨p, hp, hl⟩
  unfold verifyDownload
  apply Proc.wp_bind.mpr
  by_cases hfile : ∃ i, m.os.at? p = some (.file i)
  · obtain ⟨i, hi⟩ := hfile
    apply wpm_sha256File hi
    by_cases hhash : sha256 (m.os.store.data i) = digest
    · rw [if_neg (not_not.mpr hhash)]
      apply Py.wpm_replace.mpr
      rcases h.renamed hp hm hi hhash with ⟨hok, hsafe⟩ | ⟨e, herr⟩
      · rw [hok]
        exact hsafe trivial
      · rw [herr]
        exact h.stopped not_false hm
    · rw [if_pos hhash]
      refine Proc.wp_bind.mpr (Py.wpm_remove.mpr ?_)
      have hgone : Underway os₀ existing partialAt digest pre
          { m with os := (m.os.run (.unlink p)).2 } := ⟨hm.1.unlink hspot, hm.2⟩
      cases (m.os.run (.unlink p)).1 with
      | ok u => exact h.stopped not_false hgone
      | error e => exact h.stopped not_false hgone
  · rw [not_exists] at hfile
    exact wpm_sha256File_missing hfile (h.stopped not_false hm)

end Steps

theorem metaHash_block {header metadata : Bytes} (hh : header.length = HEADER_SIZE)
    (hm : metadata.length = GET_META) : metaHash (header ++ metadata) = metadata.drop 16 := by
  have h1 : HEADER_SIZE = 14 := rfl
  have h2 : GET_META = 48 := rfl
  have h3 : HASH_SIZE = 32 := rfl
  unfold metaHash
  rw [← hh, List.drop_append, List.drop_of_length_le (by omega), List.nil_append,
    Nat.add_sub_cancel_left, List.take_of_length_le (by rw [List.length_drop]; omega)]

/-- Another place than the destination, for both kinds of partial names. -/
theorem apart_of_entry {os : Os} {dest digest p : Bytes} {l : Loc}
    (hloc : os.locate p = (os.destDir dest).map fun l => l ++ [partialBase (Path.tail dest) digest])
    (hd : os.locate dest = some l) : os.locate p ≠ some l := by
  intro hp
  obtain ⟨L, hL, rfl⟩ := Option.map_eq_some_iff.mp (hloc.symm.trans hp)
  exact Os.dest_ne_entry hL hd (partialBase_ne _ _) rfl

theorem Os.statAt_isSome {os : Os} {p : Bytes} : (os.statAt p).isSome = true ↔ os.at? p ≠ none := by
  unfold Os.statAt
  cases os.at? p with
  | none => simp
  | some sl => cases sl <;> simp

section Python

variable {os : Os} {fl : Finset Bytes} {dest : Bytes} {existing : Option Bytes}

/-- The disk at the end of a run of the Python client. -/
def PySafe (os : Os) (dest : Bytes) (existing : Option Bytes) (ok : Prop) (m : Machine Bytes) : Prop :=
  DownloadSafe os dest existing (fun d => some (partialName dest d)) ok m.net m.os

theorem receiveDownload_safe (hfree : os.at? dest = none)
    (hfound : ∀ p, existing = some p → os.at? p ≠ none) {header metadata : Bytes}
    (hh : header.length = HEADER_SIZE) (hm : metadata.length = GET_META) :
    (receiveDownload dest existing metadata).wp Net.hostile.env
      (fun _ m => PySafe os dest existing True m) (fun _ m => PySafe os dest existing False m)
      ⟨os, fl, header ++ metadata⟩ := by
  have hf : Fetching os dest existing (fun d => some (partialName dest d)) (metadata.drop 16)
      (header ++ metadata) := by
    refine ⟨hfree, hfound, ?_, ?_, metaHash_block hh hm⟩
    · intro p l hp hl
      cases hp
      exact apart_of_entry (locate_partialName os dest _) hl
    · rw [List.length_append, hh, hm]
  have hgone : Underway os existing (fun d => some (partialName dest d)) (metadata.drop 16)
      (header ++ metadata)
      ⟨(os.discardOld (ofBE ((metadata.drop 8).take 8)) existing).2, fl, header ++ metadata⟩ := by
    refine ⟨?_, List.prefix_refl _⟩
    cases existing with
    | none => exact .refl _ os
    | some path =>
      show Os.Guarded _ os (Prod.snd (if ofBE ((metadata.drop 8).take 8) = 0 then _ else _))
      split
      · exact (Os.Guarded.refl _ os).unlink fun l hl => .inl ⟨path, rfl, hl⟩
      · exact .refl _ os
  apply receiveDownload_wp
  cases hrun : (os.discardOld (ofBE ((metadata.drop 8).take 8)) existing).1 with
  | error e => exact hf.stopped not_false hgone
  | ok u =>
    refine Proc.wp_mono (fetchBody_underway rfl _ _ hgone) ?_ ?_
    · exact fun _ m hm => verifyDownload_safe hf rfl hm
    · exact fun _ m hm => hf.stopped not_false hm

theorem PySafe.unchanged (got : Bytes) : PySafe os dest existing False ⟨os, fl, got⟩ :=
  DownloadSafe.unchanged not_false got

theorem receiveGetReply_safe (hfree : os.at? dest = none)
    (hfound : ∀ p, existing = some p → os.at? p ≠ none) :
    (receiveGetReply dest existing).wp Net.hostile.env
      (fun _ m => PySafe os dest existing True m) (fun _ m => PySafe os dest existing False m)
      ⟨os, fl, []⟩ := by
  unfold receiveGetReply readFrameHeader
  refine Proc.wp_bind.mpr (Proc.wp_bind.mpr (readExactBytes_hostile ?_ ?_))
  · intro header hh
    cases parseHeader header with
    | error e => exact .unchanged _
    | ok r =>
      obtain ⟨t, payloadLen⟩ := r
      show Proc.wp _ (if t = T_ERROR then _ else _) _ _ _
      split
      · apply Proc.wp_bind.mpr
        unfold readErrorPayload
        split
        · exact .unchanged _
        · refine Proc.wp_bind.mpr (readExactBytes_hostile ?_ ?_)
          · intro payload _
            cases unpackError payload with
            | ok r => exact .unchanged _
            | error e => exact .unchanged _
          · exact fun _ _ => .unchanged _
      · refine Proc.wp_bind.mpr (readExactBytes_hostile ?_ ?_)
        · intro metadata hm
          exact receiveDownload_safe hfree hfound hh hm
        · exact fun _ _ => .unchanged _
  · exact fun _ _ => .unchanged _

/-- Everything the Python client does after it has looked for a partial. -/
theorem doGet_request_safe {filename : Bytes} (hfree : os.at? dest = none) :
    Proc.wp Net.hostile.env (do
      let (offset, token) ← offerOf existing
      writeFrame T_GET (← Proc.ofExcept (packGet offset token filename))
      receiveGetReply dest existing)
    (fun _ m => PySafe os dest existing True m) (fun _ m => PySafe os dest existing False m)
    ⟨os, fl, []⟩ := by
  have hsend : ∀ (offset : Nat) (token : Bytes), (∀ p, existing = some p → os.at? p ≠ none) →
      Proc.wp Net.hostile.env (do
        writeFrame T_GET (← Proc.ofExcept (packGet offset token filename))
        receiveGetReply dest existing)
      (fun _ m => PySafe os dest existing True m) (fun _ m => PySafe os dest existing False m)
      ⟨os, fl, []⟩ := by
    intro offset token hfound
    apply Proc.wp_bind.mpr
    cases packGet offset token filename with
    | error e => exact .unchanged _
    | ok payload =>
      apply Proc.wp_bind.mpr
      unfold writeFrame
      apply Proc.wp_bind.mpr
      cases frameHeader T_GET payload.length with
      | error e => exact .unchanged _
      | ok header =>
        refine Py.wpm_sendall.mpr ⟨trivial, ?_⟩
        rintro a x rfl
        cases a with
        | ok u => exact receiveGetReply_safe hfree hfound
        | error e => exact .unchanged _
  apply Proc.wp_bind.mpr
  cases existing with
  | none => exact hsend 0 noToken fun p hp => by cases hp
  | some path =>
    apply Proc.wp_bind.mpr
    unfold Py.getsize
    refine Proc.wp_bind.mpr (Py.wpm_stat.mpr ?_)
    cases hst : os.statAt path with
    | none => exact .unchanged _
    | some st =>
      refine hsend _ _ fun p hp => ?_
      cases hp
      exact Os.statAt_isSome.mp (by rw [hst]; rfl)

/-- A run of the Python client is safe. -/
theorem doGet_safe {filename : Bytes} {output : Option Bytes} {found : Option Bytes}
    (hfind : (findPartial (getDest filename output)).eval os.ask = .ok found) :
    (doGet filename output).wp Net.hostile.env
      (fun _ m => PySafe os (getDest filename output) found True m)
      (fun _ m => PySafe os (getDest filename output) found False m) ⟨os, fl, []⟩ := by
  unfold doGet
  refine Proc.wp_bind.mpr (Py.wpm_pathExists.mpr ?_)
  split
  · exact .unchanged _
  · next hno =>
    have hfree : os.at? (getDest filename output) = none := by
      by_contra hne
      exact hno (Os.statAt_isSome.mpr hne)
    have hlook : Yields Net.hostile.env (findPartial (getDest filename output)) ⟨os, fl, []⟩
        (.ok found) ⟨os, fl, []⟩ :=
      hfind ▸ Net.yields_eval (X := fun _ => True) (findPartial_uses (getDest filename output))
    refine Proc.wp_bind.mpr (hlook.wp ?_ ?_)
    · intro existing he
      cases he
      exact doGet_request_safe hfree
    · intro e he
      cases he

end Python

/-! ## C -/

section Steps

variable {os₀ : Os} {dest : Bytes} {existing : Option Bytes} {partialAt : Bytes → Option Bytes}
  {digest pre : Bytes}

theorem C.wpm_freadLoop {N : Type} {net : Net N} {m : Machine N} {E : Empty → Machine N → Prop}
    {f fuel : Nat} {chunks : List Bytes} {Q : Option (List Bytes) → Machine N → Prop}
    (hacc : chunks.flatten <+: m.os.store.data f)
    (hfuel : (m.os.store.data f).length < chunks.flatten.length + fuel)
    (hQ : ∀ chunks, chunks.flatten = m.os.store.data f → Q (some chunks) m) :
    (C.freadLoop f fuel chunks).wp net.env Q E m := by
  induction fuel generalizing chunks with
  | zero => exact absurd hacc.length_le (by omega)
  | succ fuel ih =>
    obtain ⟨rest, hrest⟩ := hacc
    unfold C.freadLoop
    refine Proc.wp_bind.mpr (Proc.wp_perform.mpr ((Net.call_looks (.read _ _ _)).mpr ?_))
    show Proc.wp _ (if List.take 65536 (List.drop chunks.flatten.length (m.os.store.data f)) = []
      then _ else _) _ _ _
    rw [← hrest, List.drop_left]
    by_cases hnil : rest.take 65536 = []
    · rw [if_pos hnil]
      have hempty : rest = [] := by
        rcases List.take_eq_nil_iff.mp hnil with h | h
        · cases h
        · exact h
      apply hQ chunks
      rw [← hrest, hempty, List.append_nil]
    · rw [if_neg hnil]
      have hpos : 0 < (rest.take 65536).length := List.length_pos_iff.mpr hnil
      have hflat : (chunks ++ [rest.take 65536]).flatten = chunks.flatten ++ rest.take 65536 := by simp
      refine ih ?_ ?_
      · rw [hflat, ← hrest]
        exact (List.prefix_append_right_inj _).mpr (List.take_prefix _ _)
      · rw [hflat, List.length_append]
        omega

/-- `sha256_file` of the C client is SHA-256 of the file at the path. -/
theorem C.wpm_sha256File_at {N : Type} {net : Net N} {m : Machine N} {E : Empty → Machine N → Prop}
    {p : Bytes} {i : Nat} (hat : m.os.at? p = some (.file i)) {Q : Option Bytes → Machine N → Prop}
    (hQ : Q (some (sha256 (m.os.store.data i))) m) : (C.sha256File p).wp net.env Q E m := by
  unfold C.sha256File
  refine Proc.wp_bind.mpr (Proc.wp_perform.mpr ((Net.call_looks (.openRb p)).mpr ?_))
  simp only [Os.run, hat]
  refine Proc.wp_bind.mpr (C.wpm_freadLoop ⟨m.os.store.data i, rfl⟩ ?_ ?_)
  · simpa using m.os.small i
  · intro chunks hchunks
    have heq := CSha.sha256Chunks_eq (Vector.replicate 64 0) chunks
    rw [hchunks] at heq
    unfold sha256 at hQ
    rw [← heq] at hQ
    exact hQ

/-- Without a file there it fails. -/
theorem C.wpm_sha256File {N : Type} {net : Net N} {m : Machine N} {E : Empty → Machine N → Prop}
    {p : Bytes} {Q : Option Bytes → Machine N → Prop}
    (hfile : ∀ i, m.os.at? p = some (.file i) → Q (some (sha256 (m.os.store.data i))) m)
    (hnone : Q none m) : (C.sha256File p).wp net.env Q E m := by
  by_cases hat : ∃ i, m.os.at? p = some (.file i)
  · obtain ⟨i, hi⟩ := hat
    exact C.wpm_sha256File_at hi (hfile i hi)
  · rw [not_exists] at hat
    unfold C.sha256File
    refine Proc.wp_bind.mpr (Proc.wp_perform.mpr ((Net.call_looks (.openRb p)).mpr ?_))
    rw [Os.run_openRb_missing hat]
    exact hnone

theorem C.saveBody_underway {f : Nat} {m : Machine Bytes} {E : Empty → Machine Bytes → Prop}
    (fuel : Nat) (remaining : UInt64) (hm : Underway os₀ existing partialAt digest pre m)
    (hf : Os.Held (Spots os₀ existing partialAt digest) m.os f) :
    (C.saveBody f fuel remaining).wp Net.hostile.env
      (fun _ m => Underway os₀ existing partialAt digest pre m) E m := by
  induction fuel generalizing remaining m with
  | zero => exact hm
  | succ fuel ih =>
    unfold C.saveBody
    split
    · refine Proc.wp_bind.mpr (C.readExact_hostile ?_ ?_)
      · intro buf _
        have hm' : Underway os₀ existing partialAt digest pre { m with net := m.net ++ buf } :=
          ⟨hm.1, hm.2.trans (List.prefix_append _ _)⟩
        refine Proc.wp_bind.mpr (Proc.wp_perform.mpr (Net.call_fs.mpr ?_))
        obtain ⟨hg, hheld⟩ := hm.1.write hf buf
        cases (m.os.run (.write f buf)).1 with
        | ok u => exact ih _ ⟨hg, hm'.2⟩ hheld
        | error e => exact ⟨hg, hm'.2⟩
      · intro rest
        exact ⟨hm.1, hm.2.trans (List.prefix_append _ _)⟩
    · exact hm

theorem C.verifyDownload_safe (h : Fetching os₀ dest existing partialAt digest pre)
    {m : Machine Bytes} {E : Empty → Machine Bytes → Prop} {p : Bytes}
    (hp : partialAt digest = some p) (hm : Underway os₀ existing partialAt digest pre m) :
    (C.verifyDownload dest p digest).wp Net.hostile.env
      (fun ok m => DownloadSafe os₀ dest existing partialAt (ok = true) m.net m.os) E m := by
  have hspot : ∀ l, os₀.locate p = some l → Spots os₀ existing partialAt digest l :=
    fun l hl => .inr ⟨p, hp, hl⟩
  unfold C.verifyDownload
  refine Proc.wp_bind.mpr (C.wpm_sha256File ?_ (h.stopped (by simp) hm))
  intro i hi
  by_cases hhash : sha256 (m.os.store.data i) = digest
  · simp only
    rw [if_neg (not_not.mpr hhash)]
    refine Proc.wp_bind.mpr (Proc.wp_perform.mpr (Net.call_fs.mpr ?_))
    rcases h.renamed hp hm hi hhash with ⟨hok, hsafe⟩ | ⟨e, herr⟩
    · rw [hok]
      exact hsafe rfl
    · rw [herr]
      exact h.stopped (by simp) hm
  · simp only
    rw [if_pos hhash]
    refine Proc.wp_bind.mpr (Proc.wp_perform.mpr (Net.call_fs.mpr ?_))
    exact h.stopped (m := { m with os := (m.os.run (.remove p)).2 }) (by simp)
      ⟨hm.1.remove hspot, hm.2⟩

end Steps

namespace C

/-- The path of the partial that was found. -/
def Found.path? : Found → Option Bytes
  | .found p _ _ => some p
  | _ => none

/-- What the C client has found is there. -/
theorem findPartial_there {os : Os} {dest p : Bytes} {r : Found}
    (h : (findPartial dest).eval os.ask = .ok r) (hp : r.path? = some p) : os.at? p ≠ none := by
  have hwp : (findPartial dest).wp Net.hostile.env
      (fun r m => ∀ p, r.path? = some p → m.os.at? p ≠ none) (fun _ _ => True) ⟨os, ∅, []⟩ := by
    unfold findPartial
    split
    · exact fun p hp => by cases hp
    · refine Proc.wp_bind.mpr (Proc.wp_perform.mpr ((Net.call_looks (.listdir _)).mpr ?_))
      split
      · exact fun p hp => by cases hp
      · split
        · refine Proc.wp_bind.mpr (Proc.wp_perform.mpr ((Net.call_looks (.stat _)).mpr ?_))
          split
          · exact fun p hp => by cases hp
          · next st hst =>
            split
            · exact fun p hp => by cases hp
            · intro p hp
              cases hp
              exact Os.statAt_isSome.mp (by
                show (os.run (.stat _)).1.isSome = true
                rw [show (os.run (.stat _)).1 = some st from hst]
                rfl)
        · exact fun p hp => by cases hp
  have heval := (Proc.wp_eval Net.asks_answer (findPartial_uses dest)).mp hwp
  rw [show (findPartial dest).eval (Machine.os ⟨os, ∅, []⟩).ask = .ok r from h] at heval
  exact heval p hp

section

variable {os : Os} {fl : Finset Bytes} {dest : Bytes} {existing : Found}
  {E : Empty → Machine Bytes → Prop}

/-- The disk at the end of a run of the C client. -/
def Safe (os : Os) (dest : Bytes) (existing : Found) (ok : Bool) (m : Machine Bytes) : Prop :=
  DownloadSafe os dest existing.path? (partialName dest) (ok = true) m.net m.os

theorem Safe.unchanged (got : Bytes) : Safe os dest existing false ⟨os, fl, got⟩ :=
  DownloadSafe.unchanged (by simp) got

theorem receiveDownload_safe (hfree : os.at? dest = none)
    (hfound : ∀ p, existing.path? = some p → os.at? p ≠ none) {header metadata : Bytes}
    (hh : header.length = HEADER_SIZE) (hm : metadata.length = GET_META) :
    (receiveDownload dest existing metadata).wp Net.hostile.env
      (fun ok m => Safe os dest existing ok m) E ⟨os, fl, header ++ metadata⟩ := by
  have hdigest : (metadata.drop 16).length = HASH_SIZE := by
    rw [List.length_drop, hm]
    rfl
  have hf : Fetching os dest existing.path? (partialName dest) (metadata.drop 16)
      (header ++ metadata) := by
    refine ⟨hfree, hfound, ?_, ?_, metaHash_block hh hm⟩
    · intro p l hp hl
      exact apart_of_entry (locate_partialName hdigest hp) hl
    · rw [List.length_append, hh, hm]
  refine receiveDownload_wp (fun _ => .unchanged _) fun p hp => ?_
  have hstart : Underway os existing.path? (partialName dest) (metadata.drop 16) (header ++ metadata)
      ⟨discardOld os (getU64 (metadata.drop 8)).toNat existing, fl, header ++ metadata⟩ := by
    refine ⟨?_, List.prefix_refl _⟩
    cases existing with
    | failed => exact .refl _ os
    | absent => exact .refl _ os
    | found path n token =>
      show Os.Guarded _ os (if (getU64 (metadata.drop 8)).toNat = 0 then _ else _)
      split
      · exact (Os.Guarded.refl _ os).remove fun l hl => .inl ⟨path, rfl, hl⟩
      · exact .refl _ os
  obtain ⟨hopened, hheld⟩ := hstart.openPartial hp (getU64 (metadata.drop 8)).toNat
  refine Proc.wp_bind.mpr (fopenPartial_wp ?_)
  cases hr : (Os.openPartial _ (getU64 (metadata.drop 8)).toNat p).1 with
  | error e => exact hf.stopped (by simp) hopened
  | ok f =>
    refine Proc.wp_bind.mpr (Proc.wp_mono (saveBody_underway (E := E) _ _ hopened (hheld f hr)) ?_
      fun _ _ h => h)
    intro ok m hm
    split
    · exact hf.stopped (by simp) hm
    · exact verifyDownload_safe hf hp hm

theorem receiveGetReply_safe (hfree : os.at? dest = none)
    (hfound : ∀ p, existing.path? = some p → os.at? p ≠ none) :
    (receiveGetReply dest existing).wp Net.hostile.env
      (fun ok m => Safe os dest existing ok m) E ⟨os, fl, []⟩ := by
  unfold receiveGetReply readFrameHeader
  refine Proc.wp_bind.mpr (Proc.wp_bind.mpr (readExact_hostile ?_ fun _ => .unchanged _))
  intro header hh
  simp only
  split
  · exact .unchanged _
  split
  · exact .unchanged _
  · show Proc.wp _ (if header.getD 5 0 = T_ERROR then _ else _) _ _ _
    split
    · split
      · exact .unchanged _
      · exact Proc.wp_bind.mpr (readExact_hostile (fun _ _ => .unchanged _) fun _ => .unchanged _)
    split
    · exact .unchanged _
    · refine Proc.wp_bind.mpr (readExact_hostile ?_ fun _ => .unchanged _)
      intro metadata hm
      exact receiveDownload_safe hfree hfound hh hm

theorem writeAll_hostile {m : Machine Bytes} {b : Bytes} {Q : Bool → Machine Bytes → Prop}
    (hQ : ∀ ok, Q ok m) : (writeAll b).wp Net.hostile.env Q E m := by
  refine Proc.wp_bind.mpr (Proc.wp_perform.mpr (Net.call_send.mpr ⟨trivial, ?_⟩))
  rintro a x rfl
  cases a with
  | ok u => exact hQ true
  | error e => exact hQ false

/-- Sending a frame works or does not. -/
theorem writeFrame_hostile {m : Machine Bytes} {t : UInt8} {payload : Bytes}
    {Q : Bool → Machine Bytes → Prop} (hQ : ∀ ok, Q ok m) :
    (writeFrame t payload).wp Net.hostile.env Q E m := by
  refine Proc.wp_bind.mpr (writeAll_hostile fun ok => ?_)
  split
  · exact hQ false
  split
  · exact writeAll_hostile hQ
  · exact hQ true

/-- A run of the C client is safe. -/
theorem doGet_safe {remoteName : Bytes} {found : Found}
    (hfind : (findPartial dest).eval os.ask = .ok found) :
    (doGet remoteName dest).wp Net.hostile.env (fun ok m => Safe os dest found ok m) E
      ⟨os, fl, []⟩ := by
  have hlook : Yields Net.hostile.env (findPartial dest) ⟨os, fl, []⟩ (.ok found) ⟨os, fl, []⟩ :=
    hfind ▸ Net.yields_eval (findPartial_uses dest)
  unfold doGet fileExists
  refine Proc.wp_bind.mpr (Proc.wp_bind.mpr (Proc.wp_perform.mpr ((Net.call_looks (.stat _)).mpr ?_)))
  show Proc.wp _ (if (os.statAt dest).isSome = true then _ else _) _ _ _
  split
  · exact .unchanged _
  · next hno =>
    have hfree : os.at? dest = none := by
      by_contra hne
      exact hno (Os.statAt_isSome.mpr hne)
    refine Proc.wp_bind.mpr (hlook.wp ?_ fun e => e.elim)
    intro existing he
    cases he
    split
    · exact .unchanged _
    · refine Proc.wp_bind.mpr (writeFrame_hostile fun ok => ?_)
      split
      · exact .unchanged _
      · exact receiveGetReply_safe hfree fun p hp => findPartial_there hfind hp

end

end C

/-- What Python finds, as a function of the disk. -/
theorem findPartial_eval (os : Os) (dest : Bytes) :
    ∃ found, (findPartial dest).eval os.ask = .ok found := by
  cases h : (findPartial dest).eval os.ask with
  | ok found => exact ⟨found, rfl⟩
  | error e => exact (Proc.eval_uses (X := fun _ => False) (findPartial_uses dest) h).elim

theorem C.findPartial_eval (os : Os) (dest : Bytes) :
    ∃ found, (C.findPartial dest).eval os.ask = .ok found := by
  cases h : (C.findPartial dest).eval os.ask with
  | ok found => exact ⟨found, rfl⟩
  | error e => exact e.elim

/-- **Download integrity against any server.** Whatever is on the disk and whatever the server sends,
cut off or not: a run of either client leaves a disk with the destination taken as it was; otherwise
the destination appears only in a run that reports success, and then its content has the hash of the
metadata block that was received; a run that fails leaves it absent; and the only places that may
have changed are the destination, the partial that `find_partial` returns on this disk, and the
partial of the received hash. -/
theorem download_integrity (os : Os) (fl : Finset Bytes) :
    (∀ filename output r m', Proc.Runs Net.hostile.env (doGet filename output) ⟨os, fl, []⟩ r m' →
      ∃ found, (findPartial (getDest filename output)).eval os.ask = .ok found ∧
        DownloadSafe os (getDest filename output) found
          (fun digest => some (partialName (getDest filename output) digest)) (r = .ok ()) m'.net
          m'.os) ∧
    ∀ remoteName dest r m', Proc.Runs Net.hostile.env (C.doGet remoteName dest) ⟨os, fl, []⟩ r m' →
      ∃ found, (C.findPartial dest).eval os.ask = .ok found ∧
        DownloadSafe os dest found.path? (C.partialName dest) (r = .ok true) m'.net m'.os := by
  refine ⟨?_, ?_⟩
  · intro filename output r m' hrun
    obtain ⟨found, hfind⟩ := findPartial_eval os (getDest filename output)
    refine ⟨found, hfind, ?_⟩
    rcases Proc.wp_runs (doGet_safe hfind) hrun with ⟨a, rfl, hsafe⟩ | ⟨e, rfl, hsafe⟩
    · simpa [PySafe] using hsafe
    · simpa [PySafe] using hsafe
  · intro remoteName dest r m' hrun
    obtain ⟨found, hfind⟩ := C.findPartial_eval os dest
    refine ⟨found, hfind, ?_⟩
    rcases Proc.wp_runs (C.doGet_safe (E := fun _ _ => False) hfind) hrun with ⟨a, rfl, hsafe⟩ | ⟨e, -⟩
    · simpa [C.Safe] using hsafe
    · exact e.elim

/-- The first byte of the file `[1, 2]`, in its partial for `f`. -/
def heldByte : Os := lone (partialName (ascii "f") (sha256 [1, 2])) [1]

/-- A reply from the second byte on, with the hash of that file. -/
def secondByte (b : UInt8) : Bytes :=
  MAGIC ++ [VERSION, T_OK] ++ toBE 8 (GET_META + 1) ++ toBE 8 2 ++ toBE 8 1 ++ sha256 [1, 2] ++ [b]

/-- What comes of a client that receives the byte `b`. -/
def resumedWith {ε α : Type} (p : Proc Sys Sys.Ans ε α) (b : UInt8) : Except ε α × Machine Wire :=
  Machine.greedy ⟨heldByte, ∅, ⟨secondByte b, []⟩⟩ p

theorem resumedWith_runs {ε α : Type} (p : Proc Sys Sys.Ans ε α) (b : UInt8) :
    ∃ got, Proc.Runs Net.hostile.env p ⟨heldByte, ∅, []⟩ (resumedWith p b).1
      ⟨(resumedWith p b).2.os, (resumedWith p b).2.inFlight, got⟩ :=
  (Machine.greedy_runs p ⟨heldByte, ∅, ⟨secondByte b, []⟩⟩).hostile []

/-- Both clients resume the partial: with the byte of the file they succeed, with another they do not. -/
theorem download_integrity_resumed :
    (∃ r m', Proc.Runs Net.hostile.env (doGet (ascii "f") none) ⟨heldByte, ∅, []⟩ r m' ∧
      (r = .ok () ∧ m'.os.content (ascii "f") = some [1, 2]) ∧
      ∃ found, DownloadSafe heldByte (getDest (ascii "f") none) found
        (fun digest => some (partialName (getDest (ascii "f") none) digest)) (r = .ok ()) m'.net m'.os) ∧
    (∃ r m', Proc.Runs Net.hostile.env (doGet (ascii "f") none) ⟨heldByte, ∅, []⟩ r m' ∧
      (r ≠ .ok () ∧ m'.os.at? (ascii "f") = none) ∧
      ∃ found, DownloadSafe heldByte (getDest (ascii "f") none) found
        (fun digest => some (partialName (getDest (ascii "f") none) digest)) (r = .ok ()) m'.net m'.os) ∧
    (∃ r m', Proc.Runs Net.hostile.env (C.doGet (ascii "f") (ascii "f")) ⟨heldByte, ∅, []⟩ r m' ∧
      (r = .ok true ∧ m'.os.content (ascii "f") = some [1, 2]) ∧
      ∃ found, DownloadSafe heldByte (ascii "f") found (C.partialName (ascii "f")) (r = .ok true)
        m'.net m'.os) ∧
    ∃ r m', Proc.Runs Net.hostile.env (C.doGet (ascii "f") (ascii "f")) ⟨heldByte, ∅, []⟩ r m' ∧
      (r ≠ .ok true ∧ m'.os.at? (ascii "f") = none) ∧
      ∃ found, DownloadSafe heldByte (ascii "f") found (C.partialName (ascii "f")) (r = .ok true)
        m'.net m'.os := by
  obtain ⟨hpy, hc⟩ := download_integrity heldByte ∅
  have hlooks : (((resumedWith (doGet (ascii "f") none) 2).1 = .ok () ∧
        (resumedWith (doGet (ascii "f") none) 2).2.os.content (ascii "f") = some [1, 2]) ∧
      (resumedWith (doGet (ascii "f") none) 3).1 ≠ .ok () ∧
        (resumedWith (doGet (ascii "f") none) 3).2.os.at? (ascii "f") = none) ∧
      ((resumedWith (C.doGet (ascii "f") (ascii "f")) 2).1 = .ok true ∧
        (resumedWith (C.doGet (ascii "f") (ascii "f")) 2).2.os.content (ascii "f") = some [1, 2]) ∧
      (resumedWith (C.doGet (ascii "f") (ascii "f")) 3).1 ≠ .ok true ∧
        (resumedWith (C.doGet (ascii "f") (ascii "f")) 3).2.os.at? (ascii "f") = none := by
    decide +kernel
  obtain ⟨⟨hgood, hbad⟩, hgoodC, hbadC⟩ := hlooks
  refine ⟨?_, ?_, ?_, ?_⟩
  · have hruns := resumedWith_runs (doGet (ascii "f") none) 2
    generalize resumedWith (doGet (ascii "f") none) 2 = out at hgood hruns
    obtain ⟨got, hrun⟩ := hruns
    obtain ⟨found, -, hsafe⟩ := hpy _ _ _ _ hrun
    exact ⟨out.1, _, hrun, hgood, found, hsafe⟩
  · have hruns := resumedWith_runs (doGet (ascii "f") none) 3
    generalize resumedWith (doGet (ascii "f") none) 3 = out at hbad hruns
    obtain ⟨got, hrun⟩ := hruns
    obtain ⟨found, -, hsafe⟩ := hpy _ _ _ _ hrun
    exact ⟨out.1, _, hrun, hbad, found, hsafe⟩
  · have hruns := resumedWith_runs (C.doGet (ascii "f") (ascii "f")) 2
    generalize resumedWith (C.doGet (ascii "f") (ascii "f")) 2 = out at hgoodC hruns
    obtain ⟨got, hrun⟩ := hruns
    obtain ⟨found, -, hsafe⟩ := hc _ _ _ _ hrun
    exact ⟨out.1, _, hrun, hgoodC, _, hsafe⟩
  · have hruns := resumedWith_runs (C.doGet (ascii "f") (ascii "f")) 3
    generalize resumedWith (C.doGet (ascii "f") (ascii "f")) 3 = out at hbadC hruns
    obtain ⟨got, hrun⟩ := hruns
    obtain ⟨found, -, hsafe⟩ := hc _ _ _ _ hrun
    exact ⟨out.1, _, hrun, hbadC, _, hsafe⟩

end Retriever
