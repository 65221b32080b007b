/-
# Retriever.Retry — a download is tried again

A download of some version of a file was interrupted and left a partial. The next download offers
the length of the partial and the token of that version. The server looks at the length first: when
the partial is longer than the file is now, it refuses, before the token could tell it that the
partial belongs to another version. And a client that finds several entries to choose from offers
nothing, and takes none of them away. So a retry works exactly when what is offered lies within the
file and no other partial of the destination is there.
-/
import Retriever.Completions

namespace Retriever

open Os (SLASH DOT)
open Proc (Yields Runs)

/-! ## What a retry needs -/

/-- Apart from the partial of `F`, and from what lies at `old`, the destination has no partial. -/
def NoOther (os : Os) (L : Loc) (dest F : Bytes) (old : Option Loc) : Prop :=
  ∀ d, d.length = HASH_SIZE → os.slot (partialAt L dest d) ≠ none →
    partialAt L dest d = partialAt L dest (sha256 F) ∨ old = some (partialAt L dest d)

/-- A client that has found `found` and offers `k` bytes under `token` ends with `F` and without a
partial. Where the offer serves for `F`, the partial of `F` is the front of `F` of that length, and the
only one. Where it does not, what was found can be taken away, the partial of `F` can be opened, and
there is no other. -/
def Os.Mends (os : Os) (L : Loc) (dest F : Bytes) (found : Option Bytes) (k : Nat) (token : Bytes) :
    Prop :=
  k ≤ F.length ∧
  if k ≠ 0 ∧ token = (sha256 F).take TOKEN_SIZE then
    (∃ i, os.slot (partialAt L dest (sha256 F)) = some (.file i) ∧ os.store.data i = F.take k) ∧
    NoOther os L dest F none
  else
    (∀ q, found = some q → ∃ i, os.at? q = some (.file i)) ∧
    os.slot (partialAt L dest (sha256 F)) ≠ some .subdir ∧
    NoOther os L dest F (found.bind os.locate)

section Mends

variable {os os' : Os} {dest F G g token : Bytes} {L : Loc} {found : Option Bytes} {k f start : Nat}

theorem Site.openable (hsite : Site os dest F L)
    (h : os.slot (partialAt L dest (sha256 F)) ≠ some .subdir) :
    os.Openable (partialAt L dest (sha256 F)) := by
  cases hs : os.slot (partialAt L dest (sha256 F)) with
  | none => exact .inl ⟨hs, hsite.creatable_partial⟩
  | some sl =>
    cases sl with
    | file i => exact .inr ⟨i, hs⟩
    | subdir => exact absurd hs h

/-- What is found can be taken away when the server starts over. -/
theorem Os.Mends.removable (h : os.Mends L dest F found k token)
    (hs : startOffset k token (sha256 F) = 0) : ∀ q, found = some q → ∃ i, os.at? q = some (.file i) := by
  obtain ⟨-, h⟩ := h
  unfold startOffset at hs
  split at h
  · next hserves =>
    rw [if_pos hserves] at hs
    exact absurd hs hserves.1
  · exact h.1

theorem Os.Mends.finishes (hsite : Site os dest F L) (h : os.Mends L dest F found k token) :
    os.Finishes (found.bind os.locate) dest F (startOffset k token (sha256 F))
      (partialAt L dest (sha256 F)) (destAt L dest) := by
  have hold : startOffset k token (sha256 F) = 0 → os.Old (found.bind os.locate) :=
    fun hs => Os.old_of_found (h.removable hs)
  obtain ⟨-, h⟩ := h
  refine ⟨hold, ?_, ?_, hsite.locate_dest, hsite.free, destAt_ne _ _ _, hsite.creatable_dest⟩
  · refine Os.Openable.clearedFor hold (hsite.openable ?_) hsite.creatable_partial
    split at h
    · obtain ⟨⟨i, hi, -⟩, -⟩ := h
      rw [hi]
      simp
    · exact h.2.1
  · unfold Os.keptAt
    by_cases hserves : k ≠ 0 ∧ token = (sha256 F).take TOKEN_SIZE
    · have hs : startOffset k token (sha256 F) = k := if_pos hserves
      rw [if_pos hserves] at h
      obtain ⟨⟨i, hi, hdata⟩, -⟩ := h
      rw [hs, if_neg hserves.1, Os.clearedFor, if_neg hserves.1, hi]
      exact hdata
    · have hs : startOffset k token (sha256 F) = 0 := if_neg hserves
      rw [hs, if_pos rfl, List.take_zero]

/-- Nothing is left of the partials. -/
theorem Os.Mends.none_left (h : os.Mends L dest F found k token)
    (hplaced : os.Placed os' (found.bind os.locate) dest F (startOffset k token (sha256 F))
      (partialAt L dest (sha256 F)) (destAt L dest)) :
    ∀ d, d.length = HASH_SIZE → os'.slot (partialAt L dest d) = none := by
  intro d hd
  have hold : startOffset k token (sha256 F) = 0 → os.Old (found.bind os.locate) :=
    fun hs => Os.old_of_found (h.removable hs)
  rw [hplaced.slot _ (destAt_ne _ _ _).symm]
  by_cases hlp : partialAt L dest d = partialAt L dest (sha256 F)
  · rw [if_pos hlp]
  · rw [if_neg hlp, Os.clearedFor_slot hold]
    by_contra hslot
    obtain ⟨-, h⟩ := h
    by_cases hserves : k ≠ 0 ∧ token = (sha256 F).take TOKEN_SIZE
    · have hs : startOffset k token (sha256 F) = k := if_pos hserves
      rw [if_pos hserves] at h
      rw [hs, if_neg (fun h => hserves.1 h.1)] at hslot
      rcases h.2 d hd hslot with he | he
      · exact hlp he
      · cases he
    · have hs : startOffset k token (sha256 F) = 0 := if_neg hserves
      rw [if_neg hserves] at h
      rw [hs] at hslot
      by_cases hat : found.bind os.locate = some (partialAt L dest d)
      · exact hslot (if_pos ⟨rfl, hat⟩)
      · rw [if_neg (fun h => hat h.2)] at hslot
        exact (h.2.2 d hd hslot).elim hlp hat

/-- What can be opened once the way is clear was no directory before. -/
theorem Os.Openable.not_subdir {l : Loc} {old : Option Loc} (hold : start = 0 → os.Old old)
    (h : (os.clearedFor start old).Openable l) : os.slot l ≠ some .subdir := by
  intro hdir
  rcases h with ⟨hnew, -⟩ | ⟨i, hi⟩
  · rw [Os.clearedFor_slot hold] at hnew
    split at hnew
    · next hat =>
      obtain ⟨i, hi⟩ := hold hat.1 _ hat.2
      rw [hi] at hdir
      cases hdir
    · rw [hdir] at hnew
      cases hnew
  · rw [Os.clearedFor_slot hold] at hi
    split at hi
    · cases hi
    · rw [hi] at hdir
      cases hdir

/-- What was kept and the rest make up the file, so what was kept is the front of it. -/
theorem Os.Openable.front {l : Loc} (h : os.Openable l) (hk : start ≠ 0) (hle : start ≤ F.length)
    (heq : os.keptAt start l ++ F.drop start = F) :
    ∃ i, os.slot l = some (.file i) ∧ os.store.data i = F.take start := by
  rw [Os.keptAt, if_neg hk] at heq
  have hfront := congrArg (List.take start) heq
  have hlen := congrArg List.length heq
  rw [List.length_append, List.length_drop] at hlen
  rw [List.take_left' (by omega)] at hfront
  rcases h with ⟨hnew, -⟩ | ⟨i, hi⟩
  · -- a partial that is not there holds nothing
    rw [hnew] at hlen
    simp only [Os.bytesOf, Option.getD_none, List.length_nil] at hlen
    omega
  · rw [hi] at hfront
    exact ⟨i, hi, hfront⟩

/-- The converse: what a disk was like, on which a download has put the file in place and left nothing. -/
theorem Os.Placed.mends (hle : k ≤ F.length) (hstart : start = startOffset k token (sha256 F))
    (hfound : start = 0 → ∀ q, found = some q → ∃ i, os.at? q = some (.file i))
    (hopen : (os.clearedFor start (found.bind os.locate)).Openable (partialAt L dest (sha256 F)))
    (hplaced : os.Placed os' (found.bind os.locate) dest
      ((os.clearedFor start (found.bind os.locate)).keptAt start (partialAt L dest (sha256 F)) ++
        F.drop start) start (partialAt L dest (sha256 F)) (destAt L dest))
    (hcontent : os'.content dest = some F)
    (hnone : ∀ d, d.length = HASH_SIZE → os'.slot (partialAt L dest d) = none) :
    os.Mends L dest F found k token := by
  have hold : start = 0 → os.Old (found.bind os.locate) := fun hs => Os.old_of_found (hfound hs)
  have hgone : ∀ d, d.length = HASH_SIZE → partialAt L dest d ≠ partialAt L dest (sha256 F) →
      os.slot (partialAt L dest d) ≠ none → start = 0 ∧ found.bind os.locate = some (partialAt L dest d) := by
    intro d hd hlp hslot
    have hnow := hnone d hd
    rw [hplaced.slot _ (destAt_ne _ _ _).symm, if_neg hlp, Os.clearedFor_slot hold] at hnow
    by_contra hno
    rw [if_neg hno] at hnow
    exact hslot hnow
  refine ⟨hle, ?_⟩
  by_cases hserves : k ≠ 0 ∧ token = (sha256 F).take TOKEN_SIZE
  · obtain rfl : start = k := hstart.trans (if_pos hserves)
    have hk := hserves.1
    rw [if_pos hserves]
    refine ⟨?_, fun d hd hslot => .inl ?_⟩
    · have heq := Option.some.inj (hplaced.content.symm.trans hcontent)
      rw [Os.clearedFor, if_neg hk] at heq hopen
      exact hopen.front hk hle heq
    · by_contra hlp
      exact hk (hgone d hd hlp hslot).1
  · obtain rfl : start = 0 := hstart.trans (if_neg hserves)
    rw [if_neg hserves]
    refine ⟨hfound rfl, hopen.not_subdir hold, fun d hd hslot => ?_⟩
    by_cases hlp : partialAt L dest d = partialAt L dest (sha256 F)
    · exact .inl hlp
    · exact .inr (hgone d hd hlp hslot).2

end Mends

/-! ## What a download leaves -/

/-- What was found and is no file cannot be taken away. -/
theorem Os.discardOld_error {os : Os} {start : Nat} {existing : Option Bytes}
    (h : ¬ (start = 0 → ∀ q, existing = some q → ∃ i, os.at? q = some (.file i))) :
    ∃ e, (os.discardOld start existing).1 = .error e := by
  push Not at h
  obtain ⟨hs, q, rfl, hno⟩ := h
  unfold Os.discardOld
  simp only [if_pos hs, Os.run]
  split
  · exact ⟨_, rfl⟩
  · next l hl =>
    split
    · next i hi => exact absurd (Os.at?_eq_some.mpr ⟨l, hl, hi⟩) (hno i)
    · exact ⟨_, rfl⟩

section Leaves

variable {m : Machine Wire} {dest p c : Bytes} {start : Nat} {lp ld : Loc}

/-- Python, after the body: the hash was right and the partial could be renamed, or it fails. -/
theorem verifyDownload_leaves {digest : Bytes} {f : Nat} (h : m.os.Ready p dest lp ld f) :
    (verifyDownload dest p digest).wp Net.wire.env (fun _ m' => m'.os = m.os.renamed lp ld)
      (fun _ _ => True) m := by
  refine Proc.wp_bind.mpr (wpm_sha256File h.at_partial ?_)
  split
  · refine Proc.wp_bind.mpr ((yields_remove h.locate h.slot).wp (fun _ _ => trivial) fun _ _ => trivial)
  · apply Py.wpm_replace.mpr
    cases hc : m.os.creatable ld with
    | true =>
      rw [h.run_rename hc]
      rfl
    | false =>
      rw [h.run_rename_refused hc]
      trivial

/-- Python, from the opening of the partial on. -/
theorem fetchBody_leaves {digest : Bytes} {total : Nat} (hp : m.os.locate p = some lp)
    (hd : m.os.locate dest = some ld) (hfree : m.os.slot ld = none) (hne : ld ≠ lp) :
    (fetchBody p total start).wp Net.wire.env
      (fun _ => (verifyDownload dest p digest).wp Net.wire.env
        (fun _ m' => m.os.Openable lp ∧ ∃ f os₁, m.os.OpenedAs os₁ lp f (m.os.keptAt start lp) ∧
          os₁.Ready p dest lp ld f ∧
          (os₁.extend f (m.net.input.take (total - start))).store.data f =
            m.os.keptAt start lp ++ m.net.input.take (total - start) ∧
          m'.os = (os₁.extend f (m.net.input.take (total - start))).renamed lp ld)
        (fun _ _ => True))
      (fun _ _ => True) m := by
  apply fetchBody_wp
  rcases hopen : m.os.openPartial start p with ⟨r, os₁⟩
  cases r with
  | error e => trivial
  | ok f =>
    obtain ⟨lp', hlp', hop⟩ := Os.openable_of_openPartial hopen
    obtain rfl := Option.some.inj (hp.symm.trans hlp')
    obtain ⟨os₂, f₂, hopen', hopened⟩ := Os.openPartial_opened hp hop start
    cases hopen.symm.trans hopen'
    have hready := hopened.ready hp hd hfree hne
    by_cases hroom : total - start ≤ m.net.input.length ∧
        (os₁.store.data f).length + (total - start) < OFF_MAX
    · have hlen : (m.net.input.take (total - start)).length = total - start := by
        rw [List.length_take, Nat.min_eq_left hroom.1]
      have hfit : (os₁.store.data f).length + (m.net.input.take (total - start)).length < OFF_MAX := by
        rw [hlen]
        exact hroom.2
      have hsave := @saveBody_yields ⟨os₁, m.inFlight, m.net⟩ f (total - start)
        (m.net.input.take (total - start)) (m.net.input.drop (total - start)) (by omega)
        (List.take_append_drop _ _).symm hfit
      rw [hlen] at hsave
      refine hsave.wp (fun _ _ => ?_) fun e he => by cases he
      refine Proc.wp_mono (verifyDownload_leaves (hready.extend _)) (fun _ m' hm => ?_) fun _ _ h => h
      refine ⟨hop, f, os₁, hopened, hready, ?_, hm⟩
      rw [Os.extend_data hfit, hopened.data]
    · exact Proc.wp_mono (@saveBody_room ⟨os₁, m.inFlight, m.net⟩ f (total - start) (total - start) le_rfl)
        (fun _ _ h => absurd h hroom) fun _ _ _ => trivial

/-- **What Python leaves when it succeeds**: what was found could be taken away if it had to go, the
partial could be opened, and what it held and the rest of the file are in place. -/
theorem receiveGetReply_leaves {existing : Option Bytes} (hle : start ≤ c.length)
    (hsmall : c.length < OFF_MAX) (hin : m.net.input = getReply c start)
    (hp : m.os.locate (partialName dest (sha256 c)) = some lp) (hd : m.os.locate dest = some ld)
    (hfree : m.os.slot ld = none) (hne : ld ≠ lp) :
    (receiveGetReply dest existing).wp Net.wire.env
      (fun _ m' =>
        (start = 0 → ∀ q, existing = some q → ∃ i, m.os.at? q = some (.file i)) ∧
        (m.os.clearedFor start (existing.bind m.os.locate)).Openable lp ∧
        m.os.Placed m'.os (existing.bind m.os.locate) dest
          ((m.os.clearedFor start (existing.bind m.os.locate)).keptAt start lp ++ c.drop start)
          start lp ld)
      (fun _ _ => True) m := by
  have hmax : OFF_MAX + GET_META < 256 ^ 8 := by decide
  generalize hmd : getMeta c start = metadata
  have hfields := @getMeta_fields c start (by omega) (by omega)
  rw [hmd] at hfields
  have hlen : metadata.length = GET_META := by rw [← hmd, getMeta_length]
  have hreply : m.net.input = okHeader (GET_META + (c.length - start)) ++ metadata ++ c.drop start := by
    rw [hin, getReply_eq, ← hmd]
    rfl
  apply receiveGetReply_front hlen (by omega) hreply
  apply receiveDownload_wp
  rw [hfields.1, hfields.2.1, hfields.2.2]
  show Outcome _ _ (m.os.discardOld start existing).1
    (⟨(m.os.discardOld start existing).2, m.inFlight, ⟨c.drop start, m.net.output⟩⟩ : Machine Wire)
  by_cases hfound : start = 0 → ∀ q, existing = some q → ∃ i, m.os.at? q = some (.file i)
  · have hold : start = 0 → m.os.Old (existing.bind m.os.locate) := fun hs => Os.old_of_found (hfound hs)
    rw [Os.discardOld_eq hfound]
    refine Proc.wp_mono (@fetchBody_leaves ⟨m.os.clearedFor start (existing.bind m.os.locate), m.inFlight,
      ⟨c.drop start, m.net.output⟩⟩ dest (partialName dest (sha256 c)) start lp ld (sha256 c) c.length
      ?_ ?_ ?_ hne) (fun _ m₁ h => ?_) fun _ _ h => h
    · rw [Os.locate_clearedFor hold, hp]
    · rw [Os.locate_clearedFor hold, hd]
    · rw [Os.clearedFor_slot hold, hfree, ite_self]
    · refine Proc.wp_mono h ?_ fun _ _ h => h
      rintro _ m' ⟨hop, f, os₁, hopened, hready, hdata, hm⟩
      have hall : (c.drop start).take (c.length - start) = c.drop start :=
        List.take_of_length_le (List.length_drop).le
      simp only [hall] at hdata hm
      rw [hm]
      exact ⟨hfound, hop, hopened.placed hold hready hne hdata⟩
  · obtain ⟨e, he⟩ := Os.discardOld_error hfound
    rw [he]
    trivial

end Leaves

/-! ## Python -/

/-- The Python download runs to its end, and every run of it ends with `F` in the destination and no
partial of the destination. -/
def Recovers (S os : Os) (filename : Bytes) (output : Option Bytes) (F : Bytes) : Prop :=
  Proc.Ensures (Net.served (serverReply S)).env (doGet filename output) ⟨os, ∅, ⟨[], 0⟩⟩ fun r m =>
    r = .ok () ∧ m.os.content (getDest filename output) = some F ∧
      ∀ d, d.length = HASH_SIZE → m.os.at? (partialName (getDest filename output) d) = none

section Python

variable {S os : Os} {dest F token : Bytes} {L : Loc} {t : Text} {output found : Option Bytes} {k : Nat}

/-- What was found can be looked at, or it is not there. -/
theorem offerOf_cases (os : Os) (found : Option Bytes) :
    (∃ k token, (offerOf found).eval os.ask = .ok (k, token) ∧ k < OFF_MAX ∧
      token.length = TOKEN_SIZE) ∨ ∃ q, found = some q ∧ os.at? q = none := by
  cases found with
  | none => exact .inl ⟨0, noToken, rfl, by decide, rfl⟩
  | some q =>
    cases hst : os.statAt q with
    | none => exact .inr ⟨q, rfl, Os.statAt_eq_none.mp hst⟩
    | some st =>
      refine .inl ⟨st.size, (partialToken q).getD noToken, ?_, Os.statAt_size hst, ?_⟩
      · apply Os.eval_eq (X := fun _ => True) (offerOf_uses (fun _ => trivial) _)
        exact Yields.bind ((Py.wpm_getsize hst).mpr ⟨rfl, rfl⟩) (Proc.yields_done _ _)
      · cases ht : partialToken q with
        | none => rfl
        | some token => exact partialToken_length ht

/-- What is sent starts within the file. -/
theorem startOffset_le (h : k ≤ F.length) : startOffset k token (sha256 F) ≤ F.length := by
  unfold startOffset
  split
  · exact h
  · exact Nat.zero_le _

/-- Where the retry has what it needs, it works. -/
theorem doGet_mends (hserves : HasFile S t F) (hsite : Site os dest F L)
    (hdest : getDest (encode t) output = dest) (hfind : (findPartial dest).eval os.ask = .ok found)
    (hoffer : (offerOf found).eval os.ask = .ok (k, token)) (htoken : token.length = TOKEN_SIZE)
    (h : os.Mends L dest F found k token) : Recovers S os (encode t) output F := by
  have hrun := doGet_file hserves hsite.absent hdest hfind hoffer htoken h.1
    (@receiveGetReply_finishes ⟨os, ∅, ⟨_, getBytes k token (encode t)⟩⟩ dest F _ _ _ found
      (startOffset_le h.1) hserves.small
      rfl (Os.locate_partialAt hsite.dir _) h.removable (h.finishes hsite))
  unfold Recovers
  rw [hdest]
  refine Proc.ensures_of_wp (Net.served_live _)
    (Proc.wp_mono hrun (fun _ m hplaced => ?_) fun _ _ h => h.elim)
  refine ⟨rfl, hplaced.content, fun d hd => Os.at?_eq_none.mpr fun l hl => ?_⟩
  have hloc := ((hplaced.locate (partialName dest d)).symm.trans hl).symm.trans
    (Os.locate_partialAt hsite.dir d)
  cases hloc
  exact h.none_left hplaced d hd

/-- What was found is gone: the program fails when it looks at it. -/
theorem doGet_gone {q : Bytes} (hfree : os.at? dest = none) (hdest : getDest (encode t) output = dest)
    (hfind : (findPartial dest).eval os.ask = .ok (some q)) (hgone : os.at? q = none) :
    (doGet (encode t) output).wp (Net.served (serverReply S)).env (fun _ _ => False) (fun _ _ => True)
      ⟨os, ∅, ⟨[], 0⟩⟩ := by
  have hlook : Yields (Net.served (serverReply S)).env (findPartial dest) ⟨os, ∅, ⟨[], 0⟩⟩ (.ok (some q))
      ⟨os, ∅, ⟨[], 0⟩⟩ := hfind ▸ Net.yields_eval (X := fun _ => True) (findPartial_uses dest)
  unfold doGet
  rw [hdest]
  refine Proc.wp_bind.mpr (Py.wpm_pathExists.mpr ?_)
  rw [show os.statAt dest = none from Os.statAt_none hfree, if_neg (by decide)]
  refine Proc.wp_bind.mpr (hlook.wp (fun x hx => ?_) fun e he => by cases he)
  cases hx
  refine Proc.wp_bind.mpr (Proc.wp_bind.mpr (Proc.wp_bind.mpr (Py.wpm_stat.mpr ?_)))
  rw [show os.statAt q = none from Os.statAt_none hgone]
  trivial

/-- **A retry of Python works exactly when it has what it needs.** -/
theorem recovers_iff_mends (hserves : HasFile S t F) (hsite : Site os dest F L)
    (hdest : getDest (encode t) output = dest) :
    Recovers S os (encode t) output F ↔ ∃ found k token, (findPartial dest).eval os.ask = .ok found ∧
      (offerOf found).eval os.ask = .ok (k, token) ∧ os.Mends L dest F found k token := by
  obtain ⟨found, hfind⟩ := findPartial_eval os dest
  rcases offerOf_cases os found with ⟨k, token, hoffer, hk, htoken⟩ | ⟨q, rfl, hgone⟩
  · constructor
    · rintro ⟨⟨r, m', hrun⟩, hall⟩
      obtain ⟨rfl, hcontent, hnone⟩ := hall r m' hrun
      rw [hdest] at hcontent hnone
      refine ⟨found, k, token, hfind, hoffer, ?_⟩
      by_cases hle : k ≤ F.length
      · have hwp := doGet_file hserves hsite.absent hdest hfind hoffer htoken hle
          (@receiveGetReply_leaves ⟨os, ∅, ⟨_, getBytes k token (encode t)⟩⟩ dest F _ _ _ found
            (startOffset_le hle) hserves.small rfl (Os.locate_partialAt hsite.dir _) hsite.locate_dest
            hsite.free (destAt_ne _ _ _))
        rcases Proc.wp_runs hwp hrun with ⟨_, -, hfound, hopen, hplaced⟩ | ⟨_, he, -⟩
        · refine hplaced.mends hle rfl hfound hopen hcontent fun d hd => ?_
          exact Os.at?_eq_none.mp (hnone d hd) _
            ((hplaced.locate _).trans (Os.locate_partialAt hsite.dir d))
        · cases he
      · rcases Proc.wp_runs (doGet_refused hserves hsite.absent hdest hfind hoffer hk htoken
          (Nat.not_le.mp hle)) hrun with ⟨_, -, h⟩ | ⟨_, he, -⟩
        · exact h.elim
        · cases he
    · rintro ⟨found', k', token', hfind', hoffer', h⟩
      cases hfind.symm.trans hfind'
      cases hoffer.symm.trans hoffer'
      exact doGet_mends hserves hsite hdest hfind hoffer htoken h
  · constructor
    · rintro ⟨⟨r, m', hrun⟩, hall⟩
      obtain ⟨rfl, -⟩ := hall r m' hrun
      rcases Proc.wp_runs (doGet_gone hsite.absent hdest hfind hgone) hrun with ⟨_, -, h⟩ | ⟨_, he, -⟩
      · exact h.elim
      · cases he
    · rintro ⟨found', k', token', hfind', hoffer', -⟩
      cases hfind.symm.trans hfind'
      have herr : (offerOf (some q)).eval os.ask = .error (.sys .osError) := by
        apply Os.eval_eq (X := fun _ => True) (offerOf_uses (fun _ => trivial) _)
        exact offerOf_gone hgone ⟨rfl, rfl⟩
      cases herr.symm.trans hoffer'

end Python

/-! ## The C client -/

/-- The same for the C client. -/
def C.Recovers (S os : Os) (remoteName dest F : Bytes) : Prop :=
  Proc.Ensures (Net.served (serverReply S)).env (C.doGet remoteName dest) ⟨os, ∅, ⟨[], 0⟩⟩ fun r m =>
    r = .ok true ∧ m.os.content dest = some F ∧
      ∀ d p, d.length = HASH_SIZE → C.partialName dest d = some p → m.os.at? p = none

section C

variable {S os os' : Os} {dest F p got : Bytes} {L : Loc} {t : Text} {existing : C.Found}

theorem C.doGet_mends {token : Bytes} {offset : Nat} (hserves : HasFile S t F) (hsite : Site os dest F L)
    (hname : C.partialName dest (sha256 F) = some p)
    (hfind : (C.findPartial dest).eval os.ask = .ok existing)
    (hoffset : existing.offer.1.toNat = offset) (htok : existing.offer.2 = token)
    (htoken : token.length = TOKEN_SIZE)
    (hfound : ∀ q, existing.path? = some q → ∃ i, os.at? q = some (.file i))
    (h : os.Mends L dest F existing.path? offset token) : C.Recovers S os (encode t) dest F := by
  have hrun := C.doGet_file hserves hsite.absent hfind hoffset htok htoken h.1
    (@C.receiveGetReply_finishes ⟨os, ∅, ⟨_, getBytes offset token (encode t)⟩⟩ dest p F _ _ _ existing
      (startOffset_le h.1) hserves.small rfl hname (C.locate_partialAt hsite.dir (sha256_length F) hname)
      hfound (h.finishes hsite))
  refine Proc.ensures_of_wp (Net.served_live _) (Proc.wp_mono hrun ?_ fun _ _ h => h.elim)
  rintro ok m ⟨rfl, hplaced⟩
  refine ⟨rfl, hplaced.content, fun d p' hd hp' => Os.at?_eq_none.mpr fun l hl => ?_⟩
  have hloc := ((hplaced.locate p').symm.trans hl).symm.trans (C.locate_partialAt hsite.dir hd hp')
  cases hloc
  exact h.none_left hplaced d hd

/-- A download succeeds only where the name of a partial fits. -/
theorem C.doGet_named (hserves : HasFile S t F) (hfree : os.at? dest = none) :
    (C.doGet (encode t) dest).wp (Net.served (serverReply S)).env
      (fun ok _ => ok = true → ∃ d p, C.partialName dest d = some p) (fun _ _ => False)
      ⟨os, ∅, ⟨[], 0⟩⟩ := by
  obtain ⟨existing, hfind⟩ := C.findPartial_eval os dest
  have hacc := accepted_of_checkFilename hserves.name
  refine C.doGet_served (Q := fun ok _ => ok = true → ∃ d p, C.partialName dest d = some p) hfree hfind
    hacc.encode_length (Proc.wp_mono (C.receiveGetReply_completes dest existing) ?_ fun _ _ h => h)
  intro ok _ hok h
  obtain ⟨-, p, hp, -⟩ := hok.mp h
  exact ⟨_, p, hp⟩

theorem dir_after (hsite : Site os dest F L) (hc : os'.cwd = os.cwd)
    (hcontent : os'.content dest = some F) : os'.destDir dest = some L := by
  apply Os.destDir_unique hc hsite.dir (Os.plain_of_absent hsite.ne_nil hsite.dir hsite.absent).ne_nil
  obtain ⟨i, hi, -⟩ := Os.content_at hcontent
  rw [hi]
  simp

/-- A download that found nothing takes no partial away but the one of the file. -/
theorem C.doGet_spares (hsite : Site os dest F L) (hname : (C.partialName dest (sha256 F)).isSome)
    (hfind : (C.findPartial dest).eval os.ask = .ok existing) (hpath : existing.path? = none) :
    (C.doGet (encode t) dest).wp (Net.served (serverReply S)).env
      (fun ok m => ok = true → m.os.content dest = some F →
        (∀ d p, d.length = HASH_SIZE → C.partialName dest d = some p → m.os.at? p = none) →
        NoOther os L dest F none)
      (fun _ _ => True) ⟨os, ∅, ⟨[], 0⟩⟩ := by
  have hsafe := @C.doGet_safe os ∅ dest (fun _ _ => True) (encode t) existing hfind
  refine Proc.wp_mono (@served_of_hostile (serverReply S) Empty Bool _ _ _ ⟨os, ∅, ⟨[], 0⟩⟩ [] hsafe) ?_
    fun _ _ _ => trivial
  rintro ok m ⟨got, hgot⟩ rfl hcontent hnone d hd hslot
  have hgot : DownloadSafe os dest none (C.partialName dest) (true = true) got m.os := hpath ▸ hgot
  have hdir := dir_after hsite hgot.confined.cwd hcontent
  obtain ⟨p, hp⟩ := Option.isSome_iff_exists.mp hname
  obtain ⟨p', hp'⟩ := @C.partialName_congr dest (sha256 F) p d hp
  obtain ⟨-, c, hc, hhash⟩ := hgot.success rfl
  obtain rfl := Option.some.inj (hcontent.symm.trans hc)
  refine .inl ?_
  by_contra hne
  have hsame := hgot.confined.slot (partialAt L dest d) ?_
  · rw [Os.at?_eq_none.mp (hnone d p' hd hp') _ (C.locate_partialAt hdir hd hp')] at hsame
    exact hslot hsame.symm
  · rintro (h | ⟨q, hq, -⟩ | ⟨-, q, hq, hl⟩)
    · rw [hsite.locate_dest] at h
      exact destAt_ne _ _ _ (Option.some.inj h)
    · cases hq
    · rw [← hhash] at hq
      rw [C.locate_partialAt hsite.dir (sha256_length F) hq] at hl
      exact hne (Option.some.inj hl).symm

end C

/-! ## After an interrupted download -/

/-- Of the entries `ns` that a client takes for partials of the destination, the partial `g` of `G` is
the only one, and it is no longer than the file. Or `ns` is not just that one, so that the client finds
nothing, and the destination has no partial but the one of `F`. -/
def Retriable (os : Os) (ns : List Bytes) (L : Loc) (dest F G g : Bytes) : Prop :=
  ns = [partialBase (Path.tail dest) (sha256 G)] ∧ g.length ≤ F.length ∨
  ns ≠ [partialBase (Path.tail dest) (sha256 G)] ∧ NoOther os L dest F none

section Retry

variable {S os : Os} {dest F G g q token : Bytes} {L : Loc} {t : Text} {output : Option Bytes} {f : Nat}
  {P : Bytes → Bool}

/-- The leftover alone, when it is found. -/
theorem Leftover.mends (hsite : Site os dest F L) (hleft : Leftover os L dest G g f)
    (hdist : (sha256 G).take TOKEN_SIZE = (sha256 F).take TOKEN_SIZE → G = F)
    (hP : ∀ d, d.length = HASH_SIZE → P (partialBase (Path.tail dest) d) = true)
    (hof : (os.entries L).filter P = [partialBase (Path.tail dest) (sha256 G)])
    (hq : os.locate q = some (partialAt L dest (sha256 G))) (hle : g.length ≤ F.length) :
    os.Mends L dest F (some q) g.length ((sha256 G).take TOKEN_SIZE) := by
  have honly : ∀ d, d.length = HASH_SIZE → os.slot (partialAt L dest d) ≠ none →
      partialAt L dest d = partialAt L dest (sha256 G) := by
    intro d hd hslot
    unfold partialAt at hslot ⊢
    rw [hsite.slot_eq (suffix_partialBase _ _)] at hslot
    have hmem := List.mem_filter.mpr ⟨os.mem_entries_at.mpr hslot, hP d hd⟩
    rw [hof, List.mem_singleton] at hmem
    rw [hmem]
  refine ⟨hle, ?_⟩
  by_cases hserves : g.length ≠ 0 ∧ (sha256 G).take TOKEN_SIZE = (sha256 F).take TOKEN_SIZE
  · rw [if_pos hserves]
    obtain rfl := hdist hserves.2
    refine ⟨⟨f, hleft.slot, ?_⟩, fun d hd hslot => .inl (honly d hd hslot)⟩
    rw [hleft.data]
    exact List.prefix_iff_eq_take.mp hleft.front
  · rw [if_neg hserves]
    refine ⟨?_, ?_, fun d hd hslot => .inr ?_⟩
    · rintro q' ⟨⟩
      exact ⟨f, Os.at?_eq_some.mpr ⟨_, hq, hleft.slot⟩⟩
    · by_cases hne : partialAt L dest (sha256 F) = partialAt L dest (sha256 G)
      · rw [hne, hleft.slot]
        simp
      · rw [Leftover.free hsite (hP _ (sha256_length F)) hof hne]
        simp
    · rw [honly d hd hslot]
      exact hq

/-- Nothing is found, and the leftover is the partial of the file. -/
theorem Leftover.mends_none (hleft : Leftover os L dest G g f) (honly : NoOther os L dest F none) :
    os.Mends L dest F none 0 token := by
  refine ⟨Nat.zero_le _, ?_⟩
  rw [if_neg (fun h => h.1 rfl)]
  refine ⟨fun q hq => (by cases hq), ?_, honly⟩
  rcases honly (sha256 G) (sha256_length G) (by rw [hleft.slot]; simp) with he | he
  · rw [← he, hleft.slot]
    simp
  · cases he

/-- What a retry needs that finds nothing. -/
theorem Os.Mends.noOther (h : os.Mends L dest F none 0 token) : NoOther os L dest F none := by
  obtain ⟨-, h⟩ := h
  rw [if_neg (fun h => h.1 rfl)] at h
  exact h.2.2

/-- **A retry of Python** in a directory that is searched as it is. -/
theorem recovers_iff_retriable (hserves : HasFile S t F) (hsite : Site os dest F L)
    (hleft : Leftover os L dest G g f)
    (hdist : (sha256 G).take TOKEN_SIZE = (sha256 F).take TOKEN_SIZE → G = F)
    (hdest : getDest (encode t) output = dest) (hmagic : Glob.hasMagic (Path.split dest).1 = false) :
    Recovers S os (encode t) output F ↔ Retriable os (os.partialsOf dest) L dest F G g := by
  rw [recovers_iff_mends hserves hsite hdest]
  have hps := partialsOf_eq hsite.dir
  have hmem : partialBase (Path.tail dest) (sha256 G) ∈ os.partialsOf dest := by
    rw [hps]
    exact List.mem_filter.mpr ⟨hleft.mem, fnmatch_partialBase _ _⟩
  by_cases hof : os.partialsOf dest = [partialBase (Path.tail dest) (sha256 G)]
  · have hfind := findPartial_leftover hmagic hof
    have hoffer := offerOf_leftover hsite.dir (sha256_length G) hleft.slot hleft.data
    constructor
    · rintro ⟨found, k, token, hfind', hoffer', h⟩
      cases hfind.symm.trans hfind'
      cases hoffer.symm.trans hoffer'
      exact .inl ⟨hof, h.1⟩
    · rintro (⟨-, hle⟩ | ⟨hno, -⟩)
      · exact ⟨_, _, _, hfind, hoffer, hleft.mends hsite hdist (fun d _ => fnmatch_partialBase _ d)
          (hps ▸ hof) (Os.locate_partialAt hsite.dir _) hle⟩
      · exact absurd hof hno
  · have hfind : (findPartial dest).eval os.ask = .ok none := by
      refine findPartial_many hmagic fun n hn => hof ?_
      rw [hn, List.mem_singleton] at hmem
      rw [hn, hmem]
    constructor
    · rintro ⟨found, k, token, hfind', hoffer', h⟩
      cases hfind.symm.trans hfind'
      cases hoffer'
      exact .inr ⟨hof, h.noOther⟩
    · rintro (⟨hyes, -⟩ | ⟨-, honly⟩)
      · exact absurd hyes hof
      · exact ⟨none, 0, noToken, hfind, rfl, hleft.mends_none honly⟩

/-- The C client with the leftover alone. -/
theorem C.recovers_lone {p : Bytes} (hserves : HasFile S t F) (hsite : Site os dest F L)
    (hleft : Leftover os L dest G g f)
    (hdist : (sha256 G).take TOKEN_SIZE = (sha256 F).take TOKEN_SIZE → G = F)
    (hp : C.partialName dest (sha256 F) = some p)
    (hof : C.partialsOf os dest = [partialBase (Path.tail dest) (sha256 G)]) :
    C.Recovers S os (encode t) dest F ↔ g.length ≤ F.length := by
  obtain ⟨p', hp'⟩ := @C.partialName_congr dest (sha256 F) p (sha256 G) hp
  obtain ⟨q, hfind, hq⟩ := C.findPartial_leftover hsite.dir (sha256_length G) hp' hof hleft.slot hleft.data
  have hnat : (UInt64.ofNat g.length).toNat = g.length := by
    rw [UInt64.toNat_ofNat']
    have := hleft.length_lt
    have : OFF_MAX = 2 ^ 63 := rfl
    omega
  have htoken : ((sha256 G).take TOKEN_SIZE).length = TOKEN_SIZE := by
    rw [List.length_take, sha256_length]
    rfl
  constructor
  · rintro ⟨⟨r, m', hrun⟩, hall⟩
    obtain ⟨rfl, -⟩ := hall r m' hrun
    by_contra hlt
    rcases Proc.wp_runs (C.doGet_refused hserves hsite.absent hfind hnat rfl htoken
      (Nat.not_le.mp hlt)) hrun with ⟨_, ha, h⟩ | ⟨e, -⟩
    · cases ha
      cases h
    · exact e.elim
  · intro hle
    refine C.doGet_mends hserves hsite hp hfind hnat rfl htoken ?_
      (hleft.mends hsite hdist (fun d hd => C.isPartialOf_partialBase _ hd) (C.partialsOf_eq hsite.dir ▸ hof)
        hq hle)
    rintro q' ⟨⟩
    exact ⟨f, Os.at?_eq_some.mpr ⟨_, hq, hleft.slot⟩⟩

/-- The C client with more to choose from. -/
theorem C.recovers_many {p : Bytes} (hserves : HasFile S t F) (hsite : Site os dest F L)
    (hleft : Leftover os L dest G g f) (hp : C.partialName dest (sha256 F) = some p)
    (hof : C.partialsOf os dest ≠ [partialBase (Path.tail dest) (sha256 G)]) :
    C.Recovers S os (encode t) dest F ↔ NoOther os L dest F none := by
  have hmem : partialBase (Path.tail dest) (sha256 G) ∈ C.partialsOf os dest := by
    rw [C.partialsOf_eq hsite.dir]
    exact List.mem_filter.mpr ⟨hleft.mem, C.isPartialOf_partialBase _ (sha256_length G)⟩
  obtain ⟨existing, hfind, hpath, hoffer⟩ := @C.findPartial_many os dest fun n hn => hof (by
    rw [hn, List.mem_singleton] at hmem
    rw [hn, hmem])
  constructor
  · rintro ⟨⟨r, m', hrun⟩, hall⟩
    obtain ⟨rfl, hcontent, hnone⟩ := hall r m' hrun
    rcases Proc.wp_runs (C.doGet_spares (S := S) (t := t) hsite (by rw [hp]; rfl) hfind hpath) hrun with
      ⟨ok, ha, h⟩ | ⟨e, -⟩
    · cases ha
      exact h rfl hcontent hnone
    · exact e.elim
  · intro honly
    refine C.doGet_mends hserves hsite hp hfind rfl rfl (by rw [hoffer]; rfl) ?_ ?_
    · intro q hq
      rw [hpath] at hq
      cases hq
    · rw [hpath, hoffer]
      exact hleft.mends_none honly

/-- **A retry of the C client.** -/
theorem C.recovers_iff_retriable (hserves : HasFile S t F) (hsite : Site os dest F L)
    (hleft : Leftover os L dest G g f)
    (hdist : (sha256 G).take TOKEN_SIZE = (sha256 F).take TOKEN_SIZE → G = F) :
    C.Recovers S os (encode t) dest F ↔
      (C.partialName dest (sha256 F)).isSome ∧ Retriable os (C.partialsOf os dest) L dest F G g := by
  cases hname : C.partialName dest (sha256 F) with
  | some p =>
    rw [Option.isSome_some, Retriable]
    by_cases hof : C.partialsOf os dest = [partialBase (Path.tail dest) (sha256 G)]
    · rw [C.recovers_lone hserves hsite hleft hdist hname hof]
      simp only [hof, ne_eq, not_true_eq_false, true_and, false_and, or_false]
    · rw [C.recovers_many hserves hsite hleft hname hof]
      simp only [hof, ne_eq, not_false_eq_true, true_and, false_and, false_or]
  | none =>
    refine iff_of_false ?_ fun h => by cases h.1
    rintro ⟨⟨r, m', hrun⟩, hall⟩
    obtain ⟨rfl, -⟩ := hall r m' hrun
    rcases Proc.wp_runs (C.doGet_named hserves hsite.absent) hrun with ⟨ok, ha, h⟩ | ⟨e, -⟩
    · cases ha
      obtain ⟨d, p, hp⟩ := h rfl
      obtain ⟨p', hp'⟩ := @C.partialName_congr dest d p (sha256 F) hp
      rw [hname] at hp'
      cases hp'
    · exact e.elim

/-- **A retry works exactly when it has what it needs.** For Python, `Mends` says what that is, of the
entry that `find_partial` chooses. Where the directory part of the destination has no magic character,
and for the C client in any directory: the leftover is no longer than the file and the only entry that
matches, or there are more and the leftover is the one partial of the destination, of the version that
the server has. -/
theorem retry_recovers_iff (hserves : HasFile S t F) (hsite : Site os dest F L)
    (hleft : Leftover os L dest G g f)
    (hdist : (sha256 G).take TOKEN_SIZE = (sha256 F).take TOKEN_SIZE → G = F) :
    (∀ output, getDest (encode t) output = dest →
      (Recovers S os (encode t) output F ↔ ∃ found k token,
        (findPartial dest).eval os.ask = .ok found ∧ (offerOf found).eval os.ask = .ok (k, token) ∧
          os.Mends L dest F found k token) ∧
      (Glob.hasMagic (Path.split dest).1 = false →
        (Recovers S os (encode t) output F ↔ Retriable os (os.partialsOf dest) L dest F G g))) ∧
    (C.Recovers S os (encode t) dest F ↔
      (C.partialName dest (sha256 F)).isSome ∧ Retriable os (C.partialsOf os dest) L dest F G g) :=
  ⟨fun _ hdest => ⟨recovers_iff_mends hserves hsite hdest,
    fun hmagic => recovers_iff_retriable hserves hsite hleft hdist hdest hmagic⟩,
    C.recovers_iff_retriable hserves hsite hleft hdist⟩

end Retry

/-! ### Two directories -/

/-- What a look at the directory of an interrupted download shows, with a file `F` on the server. -/
def interruptedLooks (G g F : Bytes) : Prop :=
  ((interrupted G g).destDir (ascii "a") = some [] ∧ (interrupted G g).at? (ascii "a") = none) ∧
  ((interrupted G g).slot (partialAt [] (ascii "a") (sha256 G)) = some (.file 0) ∧
    (interrupted G g).store.data 0 = g ∧ g <+: G) ∧
  (sha256 G).take TOKEN_SIZE ≠ (sha256 F).take TOKEN_SIZE ∧
  (C.partialName (ascii "a") (sha256 F)).isSome ∧
  (interrupted G g).partialsOf (ascii "a") = [partialBase (Path.tail (ascii "a")) (sha256 G)] ∧
  C.partialsOf (interrupted G g) (ascii "a") = [partialBase (Path.tail (ascii "a")) (sha256 G)]

instance (G g F : Bytes) : Decidable (interruptedLooks G g F) := by
  unfold interruptedLooks
  infer_instance

/-- One byte of an older version does not stand in the way of a file of one byte. -/
theorem retry_recovers_older :
    Recovers (lone (ascii "a") [9]) (interrupted [1, 2] [1]) (ascii "a") none [9] ∧
    C.Recovers (lone (ascii "a") [9]) (interrupted [1, 2] [1]) (ascii "a") (ascii "a") [9] := by
  have hlooks : interruptedLooks [1, 2] [1] [9] := by decide +kernel
  obtain ⟨hdir, ⟨hslot, hdata, hfront⟩, htokens, hname, hof, hofC⟩ := hlooks
  have hiff := retry_recovers_iff lone_hasFile (interrupted_site hdir) ⟨hslot, hdata, hfront⟩
    fun h => absurd h htokens
  exact ⟨((hiff.1 none rfl).2 (by decide)).mpr (.inl ⟨hof, by decide⟩),
    hiff.2.mpr ⟨hname, .inl ⟨hofC, by decide⟩⟩⟩

/-- Two bytes of an older version do. -/
theorem retry_stuck :
    HasFile (lone (ascii "a") [9]) ['a'] [9] ∧
    Site (interrupted [1, 2, 3] [1, 2]) (ascii "a") [9] [] ∧
    Leftover (interrupted [1, 2, 3] [1, 2]) [] (ascii "a") [1, 2, 3] [1, 2] 0 ∧
    (sha256 [1, 2, 3]).take TOKEN_SIZE ≠ (sha256 [9]).take TOKEN_SIZE ∧
    ¬ Recovers (lone (ascii "a") [9]) (interrupted [1, 2, 3] [1, 2]) (ascii "a") none [9] ∧
    ¬ C.Recovers (lone (ascii "a") [9]) (interrupted [1, 2, 3] [1, 2]) (ascii "a") (ascii "a") [9] := by
  have hlooks : interruptedLooks [1, 2, 3] [1, 2] [9] := by decide +kernel
  obtain ⟨hdir, ⟨hslot, hdata, hfront⟩, htokens, hname, hof, hofC⟩ := hlooks
  have hsite : Site (interrupted [1, 2, 3] [1, 2]) (ascii "a") [9] [] := interrupted_site hdir
  have hleft : Leftover (interrupted [1, 2, 3] [1, 2]) [] (ascii "a") [1, 2, 3] [1, 2] 0 :=
    ⟨hslot, hdata, hfront⟩
  have hdist : (sha256 [1, 2, 3]).take TOKEN_SIZE = (sha256 [9]).take TOKEN_SIZE →
      ([1, 2, 3] : Bytes) = [9] := fun h => absurd h htokens
  refine ⟨lone_hasFile, hsite, hleft, htokens, fun h => ?_, fun h => ?_⟩
  · rcases (recovers_iff_retriable lone_hasFile hsite hleft hdist rfl (by decide)).mp h with h | h
    · exact absurd h.2 (by decide)
    · exact h.1 hof
  · rcases ((C.recovers_iff_retriable lone_hasFile hsite hleft hdist).mp h).2 with h | h
    · exact absurd h.2 (by decide)
    · exact h.1 hofC

end Retriever
