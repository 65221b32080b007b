/-
# Retriever.Server.Shelf — the directory as its clients see it

A name of the form of a partial name belongs to the server; any other plain name is ordinary. To the
clients the directory is a shelf: the ordinary names with what stands under them. Whatever any
number of sessions do to the directory, a step leaves the shelf as it is or puts one new file on it,
with the hash that was announced for it (`ShelfInv.effect`). So nothing on the shelf ever changes or
goes away.

The server may start on a directory in which a partial is a second name of the published file that
it was the partial of. That is what a server leaves behind that is stopped between `os.link` and
`os.remove`.
-/
import Retriever.Server.Uploads

namespace Retriever

/-! ## The shelf -/

/-- A name that the server does not use for partials. -/
structure Ordinary (n : Bytes) : Prop where
  plain : Plain n
  notPartial : ¬ IsPartialName n

/-- What stands under a name. -/
inductive Item where
  | file (c : Bytes)
  | folder
  deriving DecidableEq, Repr

def Os.item (os : Os) (n : Bytes) : Option Item :=
  match os.entry n with
  | some (.file i) => some (.file (os.store.data i))
  | some .subdir => some .folder
  | none => none

/-- What stands under the ordinary names. -/
abbrev Shelf := {n : Bytes // Ordinary n} → Option Item

def Os.shelf (os : Os) : Shelf := fun n => os.item n.1

/-- The shelf with the file that an upload announced, under a name that was free. -/
def Shelf.Adds (σ : Shelf) (u : PutRequest) (c : Bytes) (σ' : Shelf) : Prop :=
  ∃ h : Ordinary u.path, σ ⟨u.path, h⟩ = none ∧ sha256 c = u.digest ∧
    σ' = Function.update σ ⟨u.path, h⟩ (some (.file c))

section Items

variable {os os' : Os} {n : Bytes}

theorem Os.item_eq_none : os.item n = none ↔ os.entry n = none := by
  unfold Os.item
  split <;> simp_all

theorem Os.item_eq_file {c : Bytes} :
    os.item n = some (.file c) ↔ ∃ i, os.entry n = some (.file i) ∧ os.store.data i = c := by
  unfold Os.item
  split <;> simp_all

/-- A name that keeps its binding and the bytes of its file looks the same. -/
theorem Os.item_congr (he : os'.entry n = os.entry n)
    (hd : ∀ i, os.entry n = some (.file i) → os'.store.data i = os.store.data i) :
    os'.item n = os.item n := by
  unfold Os.item
  rw [he]
  split
  · next i hi => rw [hd i hi]
  · rfl
  · rfl

theorem Os.item_content (h : Ordinary n) {c : Bytes} :
    os.item n = some (.file c) ↔ os.content n = some c := by
  rw [Os.item_eq_file, Os.content_eq_some h.plain]

theorem Ordinary.ne_partialPath {f : Frame} {u : PutRequest} (h : Ordinary n) (hu : u.OfFrame f) :
    n ≠ u.partialPath := by
  rintro rfl
  exact h.notPartial hu.isPartialName

end Items

/-- A partial shares its file with no other partial, and with an ordinary name only when it is a
partial of that name. -/
structure Shelved (os : Os) : Prop where
  apart : PartialsApart os
  kin : ∀ k n i, IsPartialName k → Ordinary n → os.entry k = some (.file i) →
    os.entry n = some (.file i) → ∃ d, d.length = HASH_SIZE ∧ k = partialName n d

/-! ## The invariant -/

variable {T : Type}

/-- `os₀` is the directory the server started on. -/
structure ShelfInv (os₀ : Os) (w : World T) (phs : T → Local) : Prop where
  base : Inv IsPartialName w phs
  aside : ∀ k n i, IsPartialName k → Ordinary n → w.os.entry k = some (.file i) →
    w.os.entry n = some (.file i) →
      Retiring phs k ∨ os₀.entry n ≠ none ∧ ∃ d, d.length = HASH_SIZE ∧ k = partialName n d
  clear : ∀ t r u ph, phs t = .put r u ph → ph.past = true → Ordinary u.path →
    os₀.entry u.path = none
  kept : ∀ n, Ordinary n → os₀.entry n ≠ none → w.os.entry n ≠ none

section

variable {os₀ : Os} {w w' : World T} {phs : T → Local} {t : T} {r : Request} {u : PutRequest}
  {ph ph' : Phase} {os' : Os}

/-- The file an upload works on is not on the shelf. -/
theorem ShelfInv.alone (h : ShelfInv os₀ w phs) (ht : phs t = .put r u ph) (hh : ph.holds = true)
    (hl : ph ≠ .linked) {n : Bytes} (hn : Ordinary n) {i : Nat}
    (he : w.os.entry u.partialPath = some (.file i)) : w.os.entry n ≠ some (.file i) := by
  intro hen
  have hok := h.base.ok t
  rw [ht] at hok
  rcases h.aside _ n i hok.1.isPartialName hn he hen with hret | ⟨hbound, d, hd, hname⟩
  · exact h.base.not_retiring ht hh hl hret
  · -- a leftover of an earlier server: its name was taken from the start
    obtain ⟨rfl, -⟩ := partialName_inj hok.1.accepted.encode_no_slash hn.plain.no_slash
      (parsePut_digest_length hok.1.parsed) hd hname
    exact hbound (h.clear t r u ph ht (Phase.past_of_holds hh) hn)

/-- **What a step of an upload does to the shelf.** -/
theorem Change.shelf (h : ShelfInv os₀ w phs) (ht : phs t = .put r u ph)
    (hc : Change u w.os ph ph' os') :
    os'.shelf = w.os.shelf ∨ ph = .verified ∧ ph' = .linked ∧ ∃ c, w.os.shelf.Adds u c os'.shelf := by
  have hok := h.base.ok t
  rw [ht] at hok
  cases hc with
  | same ph ph' _ => exact .inl rfl
  | create r he =>
    refine .inl (funext fun n => Os.item_congr ?_ fun i hi => ?_)
    · rw [Os.createAt_entry, if_neg (n.2.ne_partialPath hok.1)]
    · rw [Os.createAt_data, if_neg (Os.entry_lt_next hi).ne]
  | @append r j m c hlt hent =>
    refine .inl (funext fun n => Os.item_congr rfl fun i hi => ?_)
    rw [Os.appendTo_data, if_neg]
    rintro rfl
    exact h.alone ht rfl (by simp) n.2 hent hi
  | @unlink ph ph' j hent hh =>
    refine .inl (funext fun n => Os.item_congr ?_ fun i hi => rfl)
    rw [Os.removeAt_entry, if_neg (n.2.ne_partialPath hok.1)]
  | @link j hent hs hnone =>
    have hother : ∀ n, n ≠ u.path → (w.os.linkAt u.partialPath u.path).item n = w.os.item n := by
      intro n hne
      refine Os.item_congr ?_ fun i hi => by rw [Os.linkAt_data]
      rw [Os.linkAt_entry hent, if_neg hne]
    by_cases hn : Ordinary u.path
    · refine .inr ⟨rfl, rfl, w.os.store.data j, hn, Os.item_eq_none.mpr hnone, hs, ?_⟩
      funext n
      by_cases hne : n = ⟨u.path, hn⟩
      · subst hne
        rw [Function.update_self]
        refine Os.item_eq_file.mpr ⟨j, ?_, by rw [Os.linkAt_data]⟩
        rw [Os.linkAt_entry hent, if_pos rfl]
      · rw [Function.update_of_ne hne]
        exact hother n.1 fun he => hne (Subtype.ext he)
    · refine .inl (funext fun n => hother n.1 ?_)
      intro he
      exact hn (he ▸ n.2)

/-- A file on the shelf keeps its name and its bytes. -/
theorem Change.steady (h : ShelfInv os₀ w phs) (ht : phs t = .put r u ph)
    (hc : Change u w.os ph ph' os') {n : Bytes} (hn : Ordinary n) {i : Nat}
    (he : w.os.entry n = some (.file i)) :
    os'.entry n = some (.file i) ∧ os'.store.data i = w.os.store.data i := by
  have hok := h.base.ok t
  rw [ht] at hok
  cases hc with
  | same ph ph' _ => exact ⟨he, rfl⟩
  | create r _ =>
    rw [Os.createAt_entry, if_neg (hn.ne_partialPath hok.1), Os.createAt_data,
      if_neg (Os.entry_lt_next he).ne]
    exact ⟨he, rfl⟩
  | append hlt hent =>
    refine ⟨he, ?_⟩
    rw [Os.appendTo_data, if_neg]
    rintro rfl
    exact h.alone ht rfl (by simp) hn hent he
  | unlink _ _ =>
    rw [Os.removeAt_entry, if_neg (hn.ne_partialPath hok.1)]
    exact ⟨he, rfl⟩
  | link hent hs hnone =>
    rw [Os.linkAt_entry hent, if_neg, Os.linkAt_data]
    · exact ⟨he, rfl⟩
    · rintro rfl
      rw [he] at hnone
      cases hnone

/-- A name on the shelf keeps its entry. -/
theorem Change.entry_ne_none (hu : u.OfFrame r.2) (hc : Change u w.os ph ph' os') {n : Bytes}
    (hn : Ordinary n) (he : w.os.entry n ≠ none) : os'.entry n ≠ none := by
  cases hc with
  | same ph ph' _ => exact he
  | create r _ => rwa [Os.createAt_entry, if_neg (hn.ne_partialPath hu)]
  | append hlt _ => exact he
  | unlink _ _ => rwa [Os.removeAt_entry, if_neg (hn.ne_partialPath hu)]
  | link hent _ _ =>
    rw [Os.linkAt_entry hent]
    split
    · exact nofun
    · exact he

/-- An upload that goes on has found its name free. -/
theorem Phase.Move.clear {o : Sys} {a : o.Ans} {fl : Finset Bytes} (h : ShelfInv os₀ w phs)
    (ht : phs t = .put r u ph) (hx : w.Answers o a os' fl) (hm : ph.Move u o a ph')
    (hp : ph'.past = true) (hn : Ordinary u.path) : os₀.entry u.path = none := by
  have hold : ph.past = true → os₀.entry u.path = none := fun hpast =>
    h.clear t r u ph ht hpast hn
  cases hm with
  | free =>
    by_contra hne
    exact h.kept u.path hn hne (entry_of_stat_none hn.plain hx.1)
  | taken st => cases hp
  | abort htry hf => exact hold (Phase.past_of_holds htry.holds)
  | turnAway | tellBusy | release | giveUp => cases hp
  | _ => exact hold rfl

theorem ShelfInv.start (h : Shelved os₀) :
    ShelfInv os₀ (Server.start T os₀).world fun _ => Local.plain 0 none where
  base := Inv.start h.apart
  aside := by
    intro k n i hk hn he hen
    refine .inr ⟨?_, h.kin k n i hk hn he hen⟩
    rw [show os₀.entry n = some (.file i) from hen]
    exact nofun
  clear := by rintro t r u ph ⟨⟩
  kept := fun _ _ hne => hne

variable [DecidableEq T]

/-- Partials stay aside. -/
theorem Change.aside (h : ShelfInv os₀ w phs) (ht : phs t = .put r u ph)
    (hc : Change u w.os ph ph' os') {l : Local} (hl : ph' = .linked → l = .put r u .linked)
    {k n : Bytes} {i : Nat} (hk : IsPartialName k) (hn : Ordinary n)
    (he : os'.entry k = some (.file i)) (hen : os'.entry n = some (.file i)) :
    Retiring (Function.update phs t l) k ∨
      os₀.entry n ≠ none ∧ ∃ d, d.length = HASH_SIZE ∧ k = partialName n d := by
  have hok := h.base.ok t
  rw [ht] at hok
  have hkeep : ph ≠ .linked → Retiring phs k → Retiring (Function.update phs t l) k := by
    intro hne hret
    apply hret.update
    intro r' u' ht'
    rw [ht] at ht'
    cases ht'
    exact absurd rfl hne
  cases hc with
  | same ph ph' hp => exact (h.aside k n i hk hn he hen).imp_left (hkeep hp)
  | create r hent =>
    rw [Os.createAt_entry, if_neg (hn.ne_partialPath hok.1)] at hen
    rw [Os.createAt_entry] at he
    split at he
    · cases he
      exact absurd (Os.entry_lt_next hen) (Nat.lt_irrefl _)
    · exact (h.aside k n i hk hn he hen).imp_left (hkeep (by simp))
  | append hlt hent => exact (h.aside k n i hk hn he hen).imp_left (hkeep (by simp))
  | @unlink ph ph' j hent hh =>
    rw [Os.removeAt_entry, if_neg (hn.ne_partialPath hok.1)] at hen
    rw [Os.removeAt_entry] at he
    split at he
    · cases he
    · next hkp =>
      refine (h.aside k n i hk hn he hen).imp_left fun hret => hret.update fun r' u' ht' => ?_
      rw [ht] at ht'
      cases ht'
      exact fun heq => hkp heq.symm
  | @link j hent hs hnone =>
    rw [Os.linkAt_entry hent] at he hen
    split at hen
    · next hnu =>
      subst hnu
      cases hen
      rw [if_neg (by rintro rfl; exact hn.notPartial hk)] at he
      -- the new name shares its file with the partial that is now to go
      rcases h.base.other_name (fun _ hp => hp) ht rfl (by simp) hent hk he with rfl | hret
      · exact .inl ⟨t, r, u, by rw [Function.update_self, hl rfl], rfl⟩
      · exact .inl (hkeep (by simp) hret)
    · split at he
      · cases he
        exact absurd hen (h.alone ht rfl (by simp) hn hent)
      · exact (h.aside k n i hk hn he hen).imp_left (hkeep (by simp))

/-- **Every step of every session keeps the invariant.** -/
theorem ShelfInv.step {s : Session} {o : Sys} {a : o.Ans} {l : Local} (h : ShelfInv os₀ w phs)
    (hrel : Local.Rel s (phs t)) (hx : World.Exec t s w o a w') (hm : (phs t).Move o a l) :
    ShelfInv os₀ w' (Function.update phs t l) := by
  have hbase := Inv.step (fun _ hp => hp) w phs t s o a w' l h.base hrel hx hm
  rcases hm.effect hx.1 with ⟨hos, -, -, ⟨b, q, hl⟩, hl'⟩ | ⟨r, u, ph, ph', hl, hmove, hl'⟩
  · refine ⟨hbase, fun k n i hk hn he hen => ?_, fun t' r' u' ph₁ ht' hp hn => ?_, ?_⟩
    · rw [hos] at he hen
      exact (h.aside k n i hk hn he hen).imp_left (·.update (by simp [hl]))
    · by_cases ht : t' = t
      · subst ht
        rw [Function.update_self] at ht'
        rcases hl' with ⟨b', q', rfl⟩ | ⟨b', f, u, -, rfl, -⟩
        · cases ht'
        · cases ht'
          cases hp
      · rw [Function.update_of_ne ht] at ht'
        exact h.clear t' r' u' ph₁ ht' hp hn
    · rw [hos]
      exact h.kept
  · have hok := h.base.ok t
    rw [hl] at hok
    have hc := hmove.change hok hx.1
    refine ⟨hbase, fun k n i hk hn he hen => ?_, fun t' r' u' ph₁ ht' hp hn => ?_, ?_⟩
    · refine hc.aside h hl ?_ hk hn he hen
      rcases hl' with rfl | ⟨rfl, -⟩
      · rintro rfl
        rfl
      · rintro ⟨⟩
    · by_cases ht : t' = t
      · subst ht
        rw [Function.update_self] at ht'
        rcases hl' with rfl | ⟨rfl, b', q', rfl⟩
        · cases ht'
          exact hmove.clear h hl hx.1 hp hn
        · cases ht'
      · rw [Function.update_of_ne ht] at ht'
        exact h.clear t' r' u' ph₁ ht' hp hn
    · intro n hn hbound
      exact hc.entry_ne_none hok.1 hn (h.kept n hn hbound)

theorem Server.Run.shelfInv (h : Shelved os₀) {s : Server T} (hr : Server.Run (Server.start T os₀) s) :
    Pool.Keeps Local.Rel (ShelfInv os₀) s :=
  Pool.inv_run Local.tracks (fun _ _ _ _ _ _ _ _ hi hrel hx hm => hi.step hrel hx hm) hr
    ⟨_, Local.shows_start os₀, ShelfInv.start h⟩

end

end Retriever
