/-
# Retriever.Reply — what a reply to a GET makes a client do

The reply is a header, a metadata block with two lengths and a hash, and the body. Between the
metadata and the body a client opens the partial: what was found before goes first when the server
starts over, and the bytes that are kept stay otherwise. With the whole body of an honest reply the
partial becomes the file.
-/
import Retriever.Delivered

namespace Retriever

open Os (SLASH DOT)
open Proc (Yields Runs)

/-! ## The partial is opened -/

/-- The disk when the partial is opened: what was found before is gone when the server starts over. -/
def Os.clearedFor (os : Os) (start : Nat) (old : Option Loc) : Os :=
  if start = 0 then os.cleared old else os

/-- What of the partial stays. -/
def Os.keptAt (os : Os) (start : Nat) (lp : Loc) : Bytes :=
  if start = 0 then [] else (os.bytesOf (os.slot lp)).getD []

/-- A partial can be opened at this place. -/
def Os.Openable (os : Os) (lp : Loc) : Prop :=
  os.slot lp = none ∧ os.creatable lp = true ∨ ∃ i, os.slot lp = some (.file i)

/-- The partial is open as the file `f`, which holds `g`, and the rest of the disk is as it was. -/
structure Os.OpenedAs (os os₁ : Os) (lp : Loc) (f : Nat) (g : Bytes) : Prop where
  locate : ∀ p, os₁.locate p = os.locate p
  slot : os₁.slot lp = some (.file f)
  others : ∀ l, l ≠ lp → os₁.slot l = os.slot l
  creatable : ∀ l, os₁.creatable l = os.creatable l
  data : os₁.store.data f = g

namespace Os

variable {os os₁ : Os} {old : Option Loc} {p dest g : Bytes} {lp ld : Loc} {f : Nat}

theorem truncate_opened (h : os.slot lp = some (.file f)) : os.OpenedAs (os.truncate f) lp f [] where
  locate := locate_congr rfl fun l => isDir_congr (truncate_slot os f l)
  slot := by rw [truncate_slot, h]
  others l _ := truncate_slot os f l
  creatable _ := rfl
  data := by rw [truncate_data, if_pos rfl]

theorem createAt_opened (h : os.slot lp = none) :
    os.OpenedAs (os.createAt lp) lp os.store.next [] where
  locate := locate_createAt h
  slot := by rw [createAt_slot h, if_pos rfl]
  others l hl := by rw [createAt_slot h, if_neg hl]
  creatable _ := rfl
  data := by rw [createAt_data, if_pos rfl]

theorem openAb_opened (h : os.slot lp = some (.file f)) : os.OpenedAs os lp f (os.store.data f) where
  locate _ := rfl
  slot := h
  others _ _ := rfl
  creatable _ := rfl
  data := rfl

theorem openPartial_opened (hp : os.locate p = some lp) (h : os.Openable lp) (start : Nat) :
    ∃ os₁ f, os.openPartial start p = (.ok f, os₁) ∧ os.OpenedAs os₁ lp f (os.keptAt start lp) := by
  unfold openPartial keptAt
  by_cases hs : start = 0
  · rw [if_pos hs, if_pos hs]
    rcases h with ⟨hnone, hc⟩ | ⟨i, hi⟩
    · exact ⟨_, _, run_openWb_new hp hnone hc, createAt_opened hnone⟩
    · refine ⟨os.truncate i, i, ?_, truncate_opened hi⟩
      simp [run, openNew, hp, hi]
  · rw [if_neg hs, if_neg hs]
    rcases h with ⟨hnone, hc⟩ | ⟨i, hi⟩
    · refine ⟨os.createAt lp, os.store.next, ?_, ?_⟩
      · simp [run, openNew, hp, hnone, hc]
      · rw [hnone]
        exact createAt_opened hnone
    · refine ⟨os, i, run_openAb_file (at?_eq_some.mpr ⟨lp, hp, hi⟩), ?_⟩
      rw [hi]
      exact openAb_opened hi

theorem OpenedAs.ready (h : os.OpenedAs os₁ lp f g) (hp : os.locate p = some lp)
    (hd : os.locate dest = some ld) (hfree : os.slot ld = none) (hne : ld ≠ lp) :
    os₁.Ready p dest lp ld f where
  locate := by rw [h.locate, hp]
  slot := h.slot
  dest := by rw [h.locate, hd]
  free := by rw [h.others ld hne, hfree]

theorem clearedFor_slot {start : Nat} (hold : start = 0 → os.Old old) (l : Loc) :
    (os.clearedFor start old).slot l = if start = 0 ∧ old = some l then none else os.slot l := by
  unfold clearedFor
  by_cases hs : start = 0
  · rw [if_pos hs, cleared_slot (hold hs)]
    simp only [hs, true_and]
  · rw [if_neg hs, if_neg (fun h => hs h.1)]

theorem locate_clearedFor {start : Nat} (hold : start = 0 → os.Old old) (p : Bytes) :
    (os.clearedFor start old).locate p = os.locate p := by
  unfold clearedFor
  split
  · next hs => exact locate_cleared (hold hs) p
  · rfl

theorem creatable_clearedFor (os : Os) (start : Nat) (old : Option Loc) (l : Loc) :
    (os.clearedFor start old).creatable l = os.creatable l := by
  unfold clearedFor
  split
  · exact creatable_cleared os old l
  · rfl

theorem OpenedAs.ready_cleared {start : Nat} (h : (os.clearedFor start old).OpenedAs os₁ lp f g)
    (hold : start = 0 → os.Old old) (hp : os.locate p = some lp) (hd : os.locate dest = some ld)
    (hfree : os.slot ld = none) (hne : ld ≠ lp) :
    os₁.Ready p dest lp ld f ∧ os₁.creatable ld = os.creatable ld := by
  refine ⟨h.ready ?_ ?_ ?_ hne, ?_⟩
  · rw [locate_clearedFor hold, hp]
  · rw [locate_clearedFor hold, hd]
  · rw [clearedFor_slot hold, hfree, ite_self]
  · rw [h.creatable, creatable_clearedFor]

/-- What can be opened before, can be opened after. -/
theorem Openable.clearedFor {start : Nat} (hold : start = 0 → os.Old old) (h : os.Openable lp)
    (hc : os.creatable lp = true) : (os.clearedFor start old).Openable lp := by
  unfold Openable
  rw [clearedFor_slot hold, creatable_clearedFor]
  split
  · exact .inl ⟨rfl, hc⟩
  · exact h

end Os

theorem Os.clearedFor_none (os : Os) (start : Nat) : os.clearedFor start none = os := by
  unfold Os.clearedFor
  split <;> rfl

/-- What was found and is a file can be taken away. -/
theorem Os.discardOld_eq {os : Os} {start : Nat} {existing : Option Bytes}
    (hfound : start = 0 → ∀ q, existing = some q → ∃ i, os.at? q = some (.file i)) :
    os.discardOld start existing = (.ok (), os.clearedFor start (existing.bind os.locate)) := by
  cases existing with
  | none => exact congrArg (Prod.mk _) (os.clearedFor_none start).symm
  | some q =>
    unfold Os.discardOld Os.clearedFor
    by_cases hs : start = 0
    · obtain ⟨i, hi⟩ := hfound hs q rfl
      obtain ⟨l, hl, hslot⟩ := Os.at?_eq_some.mp hi
      simp only [if_pos hs, Os.run_unlink_at hl hslot, Option.bind_some, hl]
      rfl
    · simp only [if_neg hs]

theorem C.discardOld_eq {os : Os} {start : Nat} {existing : C.Found}
    (hfound : ∀ q, existing.path? = some q → ∃ i, os.at? q = some (.file i)) :
    C.discardOld os start existing = os.clearedFor start (existing.path?.bind os.locate) := by
  cases existing with
  | absent => exact (os.clearedFor_none start).symm
  | failed => exact (os.clearedFor_none start).symm
  | found q size token =>
    obtain ⟨i, hi⟩ := hfound q rfl
    obtain ⟨l, hl, hs⟩ := Os.at?_eq_some.mp hi
    rw [show (C.Found.found q size token).path?.bind os.locate = some l from hl]
    unfold C.discardOld Os.clearedFor
    simp only [Os.run_remove_at hl hs]
    rfl

section Receive

variable {m : Machine Wire} {dest p metadata digest : Bytes} {f : Nat} {os₁ : Os}

/-- Python, from the metadata to the open partial. -/
theorem receiveDownload_opened {existing : Option Bytes} {total start : Nat}
    (hsize : ofBE (metadata.take 8) = total) (hstart : ofBE ((metadata.drop 8).take 8) = start)
    (hdigest : metadata.drop 16 = digest) (hp : partialName dest digest = p)
    (hfound : start = 0 → ∀ q, existing = some q → ∃ i, m.os.at? q = some (.file i))
    (hopen : (m.os.clearedFor start (existing.bind m.os.locate)).openPartial start p = (.ok f, os₁))
    {Q : Unit → Machine Wire → Prop} {E : Exn → Machine Wire → Prop}
    (h : (saveBody f (total - start) (total - start)).wp Net.wire.env
      (fun _ => (verifyDownload dest p digest).wp Net.wire.env Q E)
      (fun _ => E (.exit EXIT_CONN "download interrupted (partial kept for resume)".toList))
      ⟨os₁, m.inFlight, m.net⟩) :
    (receiveDownload dest existing metadata).wp Net.wire.env Q E m := by
  apply receiveDownload_wp
  rw [hsize, hstart, hdigest, hp, Os.discardOld_eq hfound]
  apply fetchBody_wp
  rw [hopen]
  exact h

/-- The C client, from the metadata to the open partial. -/
theorem C.receiveDownload_opened {existing : C.Found} {total start : UInt64}
    (hsize : C.getU64 metadata = total) (hstart : C.getU64 (metadata.drop 8) = start)
    (hdigest : metadata.drop 16 = digest) (hp : C.partialName dest digest = some p)
    (hfound : ∀ q, existing.path? = some q → ∃ i, m.os.at? q = some (.file i))
    (hopen : (m.os.clearedFor start.toNat (existing.path?.bind m.os.locate)).openPartial start.toNat p =
      (.ok f, os₁))
    {Q : Bool → Machine Wire → Prop} {E : Empty → Machine Wire → Prop}
    (h : (C.saveBody f (total - start).toNat (total - start)).wp Net.wire.env
      (fun saved m' => if saved = false then Q false m' else
        (C.verifyDownload dest p digest).wp Net.wire.env Q E m') E ⟨os₁, m.inFlight, m.net⟩) :
    (C.receiveDownload dest existing metadata).wp Net.wire.env Q E m := by
  refine C.receiveDownload_wp ?_ ?_
  · intro hnone
    rw [hdigest, hp] at hnone
    cases hnone
  · intro p' hp'
    rw [hdigest] at hp' ⊢
    obtain rfl : p = p' := Option.some.inj (hp.symm.trans hp')
    rw [hsize, hstart, C.discardOld_eq hfound]
    refine Proc.wp_bind.mpr (C.fopenPartial_wp ?_)
    rw [hopen]
    refine Proc.wp_bind.mpr (Proc.wp_mono h ?_ fun _ _ he => he)
    intro saved m' h
    split at h
    · next hfalse =>
      rw [if_pos hfalse]
      exact h
    · next htrue =>
      rw [if_neg htrue]
      exact h

end Receive

/-! ## The whole body arrives -/

section Whole

variable {m : Machine Wire} {dest p c : Bytes} {start : Nat} {lp ld : Loc}

/-- The file that a finished download has become. -/
theorem Os.Ready.content_renamed {os : Os} {f : Nat} (h : os.Ready p dest lp ld f) (hne : ld ≠ lp) :
    (os.renamed lp ld).content dest = some (os.store.data f) := by
  have hat : (os.renamed lp ld).at? dest = some (.file f) := by
    refine Os.at?_eq_some.mpr ⟨ld, ?_, ?_⟩
    · rw [Os.locate_renamed h.slot h.free, h.dest]
    · rw [Os.renamed_slot h.slot h.free, if_neg hne, if_pos rfl]
  unfold Os.content
  rw [hat]
  show some ((os.renamed lp ld).store.data f) = _
  rw [Os.renamed_data]

/-- The file `c` is in place, its partial is gone, and so is what was found before when the server has
started over. -/
structure Os.Placed (os os' : Os) (old : Option Loc) (dest c : Bytes) (start : Nat) (lp ld : Loc) :
    Prop where
  content : os'.content dest = some c
  locate : ∀ p, os'.locate p = os.locate p
  slot : ∀ l, l ≠ ld → os'.slot l = if l = lp then none else (os.clearedFor start old).slot l

theorem Os.OpenedAs.placed {os os₁ : Os} {old : Option Loc} {g w : Bytes} {f : Nat}
    (h : (os.clearedFor start old).OpenedAs os₁ lp f g) (hold : start = 0 → os.Old old)
    (hready : os₁.Ready p dest lp ld f) (hne : ld ≠ lp)
    (hdata : (os₁.extend f w).store.data f = c) :
    os.Placed ((os₁.extend f w).renamed lp ld) old dest c start lp ld where
  content := by rw [(hready.extend w).content_renamed hne, hdata]
  locate q := by
    have hext := hready.extend w
    rw [Os.locate_renamed hext.slot hext.free, Os.locate_extend, h.locate, Os.locate_clearedFor hold]
  slot l hl := by
    have hext := hready.extend w
    rw [Os.renamed_slot hext.slot hext.free]
    by_cases hlp : l = lp
    · rw [if_pos hlp, if_pos hlp]
    · rw [if_neg hlp, if_neg hlp, if_neg hl, Os.extend_slot, h.others l hlp]

/-- What a client needs on its disk to finish a file from `start` on. -/
structure Os.Finishes (os : Os) (old : Option Loc) (dest c : Bytes) (start : Nat) (lp ld : Loc) :
    Prop where
  found : start = 0 → os.Old old
  openable : (os.clearedFor start old).Openable lp
  kept : (os.clearedFor start old).keptAt start lp = c.take start
  dest : os.locate dest = some ld
  free : os.slot ld = none
  ne : ld ≠ lp
  creatable : os.creatable ld = true

theorem Os.Finishes.ready {os os₁ : Os} {old : Option Loc} {f : Nat}
    (h : os.Finishes old dest c start lp ld) (hp : os.locate p = some lp)
    (hopen : (os.clearedFor start old).OpenedAs os₁ lp f (c.take start)) :
    os₁.Ready p dest lp ld f ∧ os₁.creatable ld = true := by
  obtain ⟨hready, hc⟩ := hopen.ready_cleared h.found hp h.dest h.free h.ne
  exact ⟨hready, by rw [hc, h.creatable]⟩

/-- **Python finishes the file.** -/
theorem receiveGetReply_finishes {existing : Option Bytes} (hle : start ≤ c.length)
    (hsmall : c.length < OFF_MAX) (hin : m.net.input = getReply c start)
    (hp : m.os.locate (partialName dest (sha256 c)) = some lp)
    (hfound : start = 0 → ∀ q, existing = some q → ∃ i, m.os.at? q = some (.file i))
    (h : m.os.Finishes (existing.bind m.os.locate) dest c start lp ld) :
    (receiveGetReply dest existing).wp Net.wire.env
      (fun _ m' => m.os.Placed m'.os (existing.bind m.os.locate) dest c start lp ld)
      (fun _ _ => False) m := by
  have hmax : OFF_MAX + GET_META < 256 ^ 8 := by decide
  generalize hmd : getMeta c start = metadata
  have hfields := @getMeta_fields c start (by omega) (by omega)
  rw [hmd] at hfields
  have hlen : metadata.length = GET_META := by rw [← hmd, getMeta_length]
  have hreply : m.net.input = okHeader (GET_META + (c.length - start)) ++ metadata ++ c.drop start := by
    rw [hin, getReply_eq, ← hmd]
    rfl
  obtain ⟨os₁, f, hopen, hopened⟩ := Os.openPartial_opened
    (by rw [Os.locate_clearedFor h.found, hp]) h.openable start
  rw [h.kept] at hopened
  obtain ⟨hready, hc⟩ := h.ready hp hopened
  apply receiveGetReply_front hlen (by omega) hreply
  refine receiveDownload_opened (m := m.wired (c.drop start) m.net.output) hfields.1 hfields.2.1
    hfields.2.2 rfl hfound hopen ?_
  have hdata : os₁.store.data f ++ c.drop start = c := by
    rw [hopened.data, List.take_append_drop]
  have hroom : (os₁.store.data f).length + (c.drop start).length < OFF_MAX := by
    rw [← List.length_append, hdata]
    exact hsmall
  have hsave := @saveBody_yields ⟨os₁, m.inFlight, ⟨c.drop start, m.net.output⟩⟩ f _ (c.drop start) []
    le_rfl (List.append_nil _).symm hroom
  rw [List.length_drop] at hsave
  refine hsave.wp (fun _ _ => ?_) fun e he => by cases he
  have hfull : (os₁.extend f (c.drop start)).store.data f = c := by rw [Os.extend_data hroom, hdata]
  have hverify := @verifyDownload_yields ⟨os₁.extend f (c.drop start), m.inFlight, ⟨[], m.net.output⟩⟩
    _ dest lp ld f (hready.extend _) (by rw [Os.Ready.creatable_extend, hc])
  rw [hfull] at hverify
  exact hverify.wp (fun _ _ => hopened.placed h.found hready h.ne hfull) fun e he => by cases he

/-- **The C client finishes the file.** -/
theorem C.receiveGetReply_finishes {existing : C.Found} (hle : start ≤ c.length)
    (hsmall : c.length < OFF_MAX) (hin : m.net.input = getReply c start)
    (hname : C.partialName dest (sha256 c) = some p) (hp : m.os.locate p = some lp)
    (hfound : ∀ q, existing.path? = some q → ∃ i, m.os.at? q = some (.file i))
    (h : m.os.Finishes (existing.path?.bind m.os.locate) dest c start lp ld) :
    (C.receiveGetReply dest existing).wp Net.wire.env
      (fun ok m' => ok = true ∧ m.os.Placed m'.os (existing.path?.bind m.os.locate) dest c start lp ld)
      (fun _ _ => False) m := by
  have hmax : OFF_MAX < 2 ^ 64 := by decide
  generalize hmd : getMeta c start = metadata
  have hfields := @C.getMeta_fields c start (by omega) (by omega)
  rw [hmd] at hfields
  obtain ⟨hsize, hstart, hdigest⟩ := hfields
  have hlen : metadata.length = GET_META := by rw [← hmd, getMeta_length]
  have hreply : m.net.input = okHeader (GET_META + (c.length - start)) ++ metadata ++ c.drop start := by
    rw [hin, getReply_eq, ← hmd]
    rfl
  obtain ⟨os₁, f, hopen, hopened⟩ := Os.openPartial_opened
    (by rw [Os.locate_clearedFor h.found, hp]) h.openable start
  rw [h.kept] at hopened
  obtain ⟨hready, hc⟩ := h.ready hp hopened
  generalize htotal : C.getU64 metadata = total at *
  generalize hoff : C.getU64 (metadata.drop 8) = from' at *
  have hrem : (total - from').toNat = (c.drop start).length := by
    rw [UInt64.toNat_sub_of_le _ _ (UInt64.le_iff_toNat_le.mpr (by omega)), hsize, hstart,
      List.length_drop]
  have hdata : os₁.store.data f ++ c.drop start = c := by
    rw [hopened.data, List.take_append_drop]
  apply C.receiveGetReply_front hlen hreply
  refine C.receiveDownload_opened (m := m.wired (c.drop start) m.net.output) htotal hoff hdigest hname
    hfound (by rw [hstart]; exact hopen) ?_
  have hroom : (os₁.store.data f).length + (c.drop start).length < OFF_MAX := by
    rw [← List.length_append, hdata]
    exact hsmall
  obtain ⟨saved, w, rest, hsave, hw, htrue, hall⟩ := @C.saveBody_saves
    ⟨os₁, m.inFlight, ⟨c.drop start, m.net.output⟩⟩ f _ (total - from') le_rfl (by rw [hrem]; exact hroom)
  obtain rfl := htrue (by rw [hrem])
  obtain rfl : w = c.drop start := (hall rfl).2.trans (by rw [hrem]; exact List.take_length)
  refine hsave.wp (fun ok hok => ?_) fun e => e.elim
  cases hok
  rw [if_neg (by decide)]
  have hfull : (os₁.extend f (c.drop start)).store.data f = c := by rw [Os.extend_data hroom, hdata]
  have hverify := @C.verifyDownload_yields ⟨os₁.extend f (c.drop start), m.inFlight,
    ⟨rest, m.net.output⟩⟩ p dest lp ld f (hready.extend _)
  rw [hfull] at hverify
  refine hverify.wp (fun ok hok => ?_) fun e => e.elim
  cases hok
  have hcreate : (os₁.extend f (c.drop start)).creatable ld = true := by
    rw [Os.Ready.creatable_extend, hc]
  rw [hcreate, if_pos rfl]
  exact ⟨rfl, hopened.placed h.found hready h.ne hfull⟩

/-- A client's disk with the first `k` bytes of `c` in the partial of `c` for a destination. -/
structure Holds (os : Os) (dest c : Bytes) (k : Nat) (L : Loc) (i : Nat) : Prop where
  ne_nil : dest ≠ []
  dir : os.destDir dest = some L
  absent : os.at? dest = none
  slot : os.slot (partialAt L dest (sha256 c)) = some (.file i)
  data : os.store.data i = c.take k
  accepts_dest : os.accepts (Path.tail dest) = true
  accepts_partial : os.accepts (partialBase (Path.tail dest) (sha256 c)) = true

/-- What was found is that partial. -/
theorem Holds.found {os : Os} {k i : Nat} {L : Loc} {existing : Option Bytes} (h : Holds os dest c k L i)
    (hexist : ∀ q, existing = some q → os.locate q = some (partialAt L dest (sha256 c))) :
    (∀ q, existing = some q → ∃ i, os.at? q = some (.file i)) ∧
    ∀ l, existing.bind os.locate = some l → l = partialAt L dest (sha256 c) := by
  refine ⟨fun q hq => ⟨i, Os.at?_eq_some.mpr ⟨_, hexist q hq, h.slot⟩⟩, fun l hl => ?_⟩
  obtain ⟨q, hq, hlq⟩ := Option.bind_eq_some_iff.mp hl
  rw [hexist q hq] at hlq
  exact (Option.some.inj hlq).symm

/-- With no other partial, the file can be finished from its beginning and from where it stops. -/
theorem Holds.finishes {os : Os} {k i : Nat} {L : Loc} {old : Option Loc} (h : Holds os dest c k L i)
    (hold : ∀ l, old = some l → l = partialAt L dest (sha256 c)) (hs : start = k ∨ start = 0) :
    os.Finishes old dest c start (partialAt L dest (sha256 c)) (destAt L dest) := by
  have hfound : start = 0 → os.Old old := fun _ l hl => ⟨i, by rw [hold l hl, h.slot]⟩
  have hloc := Os.locate_destAt h.ne_nil h.dir h.absent
  refine ⟨hfound, ?_, ?_, hloc, Os.at?_eq_none.mp h.absent _ hloc, destAt_ne _ _ _, ?_⟩
  · apply Os.Openable.clearedFor hfound (.inr ⟨i, h.slot⟩)
    exact (os.creatable_concat _ _).trans h.accepts_partial
  · unfold Os.keptAt
    by_cases h0 : start = 0
    · rw [if_pos h0, h0, List.take_zero]
    · rw [if_neg h0, Os.clearedFor_slot hfound, if_neg (fun h => h0 h.1), h.slot]
      show (os.clearedFor start old).store.data i = _
      rw [Os.clearedFor, if_neg h0, h.data, hs.resolve_right h0]
  · exact (os.creatable_concat _ _).trans h.accepts_dest

end Whole

/-- **The reply to a GET for a file that nobody changes**, and what it makes of a client that holds the
front of the file up to the offset. -/
theorem get_reply {S : Os} {t : Text} {c token : Bytes} {offset : Nat}
    (hname : checkFilename t = true) (hc : S.content (encode t) = some c) (ho : offset < 2 ^ 64)
    (htoken : token.length = TOKEN_SIZE) :
    (c.length < offset →
      IsErrorFrame E_MALFORMED (serverReply S (getBytes offset token (encode t)))) ∧
    (offset ≤ c.length →
      ∀ start, start = (if 0 < offset ∧ token = (sha256 c).take TOKEN_SIZE then offset else 0) →
      serverReply S (getBytes offset token (encode t)) = okHeader (GET_META + (c.length - start)) ++
        (toBE 8 c.length ++ toBE 8 start ++ sha256 c) ++ c.drop start ∧
      ∀ os fl sent dest L i, Holds os dest c offset L i →
        (∀ existing : Option Bytes,
          (∀ q, existing = some q → os.locate q = some (partialAt L dest (sha256 c))) →
          Proc.Ensures Net.wire.env (receiveGetReply dest existing)
            ⟨os, fl, ⟨serverReply S (getBytes offset token (encode t)), sent⟩⟩
            fun r m' => r = .ok () ∧ m'.os.content dest = some c) ∧
        (∀ existing : C.Found, (C.partialName dest (sha256 c)).isSome →
          (∀ q, existing.path? = some q → os.locate q = some (partialAt L dest (sha256 c))) →
          Proc.Ensures Net.wire.env (C.receiveGetReply dest existing)
            ⟨os, fl, ⟨serverReply S (getBytes offset token (encode t)), sent⟩⟩
            fun r m' => r = .ok true ∧ m'.os.content dest = some c)) := by
  refine ⟨fun hlt => serverReply_pastEnd ho htoken hname hc hlt, fun hle start hstart => ?_⟩
  have hsmall : c.length < OFF_MAX := (HasFile.mk hname hc).small
  have hreply := @serverReply_file S offset token t c ho htoken hname hc
  have hsame : startOffset offset token (sha256 c) = start := by
    rw [hstart, startOffset]
    simp only [Nat.pos_iff_ne_zero]
  have hcases : start = offset ∨ start = 0 := by
    rw [hstart]
    split
    · exact .inl rfl
    · exact .inr rfl
  rw [if_pos hle, hsame] at hreply
  refine ⟨by rw [hreply, getReply_eq]; rfl, fun os fl sent dest L i hholds => ⟨?_, ?_⟩⟩
  · intro existing hexist
    obtain ⟨hfound, hold⟩ := hholds.found hexist
    refine Proc.ensures_of_wp Net.wire_live (Proc.wp_mono (receiveGetReply_finishes (by omega) hsmall
      hreply (Os.locate_partialAt hholds.dir _) (fun _ => hfound) (hholds.finishes hold hcases)) ?_
      fun _ _ h => h.elim)
    exact fun _ _ h => ⟨rfl, h.content⟩
  · intro existing hname hexist
    obtain ⟨hfound, hold⟩ := hholds.found hexist
    obtain ⟨p, hp⟩ := Option.isSome_iff_exists.mp hname
    refine Proc.ensures_of_wp Net.wire_live (Proc.wp_mono (C.receiveGetReply_finishes (by omega) hsmall
      hreply hp (C.locate_partialAt hholds.dir (sha256_length c) hp) hfound
      (hholds.finishes hold hcases)) ?_ fun _ _ h => h.elim)
    rintro ok m' ⟨rfl, h⟩
    exact ⟨rfl, h.content⟩

/-- A client that has all of a file of one byte is sent no byte, and finishes it. -/
theorem get_reply_whole :
    Proc.Ensures Net.wire.env
      (receiveGetReply (ascii "a") (some (partialName (ascii "a") (sha256 [9]))))
      ⟨interrupted [9] [9], ∅, ⟨serverReply (lone (ascii "a") [9])
        (getBytes 1 ((sha256 [9]).take TOKEN_SIZE) (ascii "a")), []⟩⟩
      fun r m' => r = .ok () ∧ m'.os.content (ascii "a") = some [9] := by
  have hlooks : (interrupted [9] [9]).destDir (ascii "a") = some [] ∧
      (interrupted [9] [9]).at? (ascii "a") = none ∧
      (interrupted [9] [9]).slot (partialAt [] (ascii "a") (sha256 [9])) = some (.file 0) ∧
      (interrupted [9] [9]).store.data 0 = [9] := by decide +kernel
  obtain ⟨hdir, habsent, hslot, hdata⟩ := hlooks
  have hsite : Site (interrupted [9] [9]) (ascii "a") [9] [] := interrupted_site ⟨hdir, habsent⟩
  have hholds : Holds (interrupted [9] [9]) (ascii "a") [9] 1 [] 0 :=
    ⟨by decide, hdir, habsent, hslot, hdata, hsite.accepts_dest, hsite.accepts_partial⟩
  have hreply := (get_reply lone_hasFile.name lone_hasFile.content (show 1 < 2 ^ 64 by decide)
    (show ((sha256 [9]).take TOKEN_SIZE).length = TOKEN_SIZE by
      rw [List.length_take, sha256_length]; rfl)).2 le_rfl _ rfl
  apply (hreply.2 (interrupted [9] [9]) ∅ [] (ascii "a") [] 0 hholds).1 _
  rintro q ⟨⟩
  exact Os.locate_partialAt hdir _

end Retriever
