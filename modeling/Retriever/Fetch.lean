/-
# Retriever.Fetch — a download from the server

What the clients make of the reply of the server, whole or cut off. Both end in the same way: the
body is added to the partial as far as it arrives, and when all of it is there, the partial has the
hash that was announced and becomes the destination.
-/
import Retriever.Download
import Retriever.Served

namespace Retriever

open Os (SLASH DOT)
open Proc (Yields)

/-! ## The body -/

section Body

variable {m : Machine Wire} {f : Nat}

theorem Machine.eq_of_input {rest : Bytes} (h : m.net.input = rest) :
    m = ⟨m.os, m.inFlight, ⟨rest, m.net.output⟩⟩ := by
  rw [← h]

/-- Python writes every piece as it arrives. -/
theorem saveBody_yields {fuel : Nat} {body rest : Bytes} (hfuel : body.length ≤ fuel)
    (hin : m.net.input = body ++ rest)
    (hsmall : (m.os.store.data f).length + body.length < OFF_MAX) :
    Yields Net.wire.env (saveBody f fuel body.length) m (.ok ())
      ⟨m.os.extend f body, m.inFlight, ⟨rest, m.net.output⟩⟩ := by
  induction fuel generalizing m body with
  | zero =>
    obtain rfl : body = [] := List.length_eq_zero_iff.mp (by omega)
    rw [Os.extend_nil, ← Machine.eq_of_input (show m.net.input = rest from hin)]
    exact Proc.yields_done _ _
  | succ fuel ih =>
    unfold saveBody
    split
    · next hpos =>
      refine Proc.wp_bind.mpr (Py.wpm_recv.mpr ⟨trivial, fun a w hw => ?_⟩)
      rcases wire_recv_cases (by omega) hw with ⟨hnil, -, -⟩ | ⟨c, hc, hle, rfl, hin', hout⟩
      · rw [hin] at hnil
        rw [(List.append_eq_nil_iff.mp hnil).1] at hpos
        cases hpos
      · -- the piece is the front of the body
        obtain ⟨b, rfl⟩ : ∃ b, body = c ++ b := by
          rw [hin] at hin'
          have hpre : c <+: body ++ rest := ⟨w.input, hin'.symm⟩
          exact (List.prefix_of_prefix_length_le hpre (List.prefix_append body rest) (by omega)).imp
            fun _ h => h.symm
        rw [List.length_append] at hsmall
        have hw' : w = ⟨b ++ rest, m.net.output⟩ := by
          rw [hin, List.append_assoc] at hin'
          obtain ⟨i, o⟩ := w
          cases hout
          rw [List.append_cancel_left hin']
        subst hw'
        show Proc.wp _ (if c = [] then _ else _) _ _ _
        rw [if_neg hc]
        refine Proc.wp_bind.mpr (Py.wpm_write.mpr ?_)
        have hrun : m.os.run (.write f c) = (.ok (), m.os.extend f c) := Os.run_write (by omega)
        rw [hrun]
        have hdata : (m.os.extend f c).store.data f = m.os.store.data f ++ c :=
          Os.extend_data (by omega)
        have hnext := @ih ⟨m.os.extend f c, m.inFlight, ⟨b ++ rest, m.net.output⟩⟩ b
          (by have := List.length_pos_iff.mpr hc; rw [List.length_append] at hfuel; omega) rfl
          (by show ((m.os.extend f c).store.data f).length + _ < _
              rw [hdata, List.length_append]; omega)
        rw [show (m.os.extend f c).extend f b = m.os.extend f (c ++ b) from
          Os.extend_extend (by rw [List.length_append]; omega)] at hnext
        show Proc.wp _ (saveBody f fuel ((c ++ b).length - c.length)) _ _ _
        rw [List.length_append, Nat.add_sub_cancel_left]
        exact hnext
    · next hzero =>
      obtain rfl : body = [] := List.length_eq_zero_iff.mp (by omega)
      rw [Os.extend_nil, ← Machine.eq_of_input (show m.net.input = rest from hin)]
      exact Proc.yields_done _ _

/-- The size of the blocks that are written to the disk. -/
def C.BLOCK : Nat := 65536

/-- The block that is asked for next. -/
theorem C.want_toNat (remaining : UInt64) :
    (if remaining < 65536 then remaining else 65536).toNat = min C.BLOCK remaining.toNat := by
  have h : (65536 : UInt64).toNat = C.BLOCK := rfl
  split
  · next hlt =>
    have := UInt64.lt_iff_toNat_lt.mp hlt
    omega
  · next hge =>
    rw [UInt64.lt_iff_toNat_lt] at hge
    omega

/-- `p` adds to the file `f` the `n` bytes that come next, or the front of them if there are fewer. -/
def C.Saves (m : Machine Wire) (f n : Nat) (p : CProg Bool) : Prop :=
  ∃ ok w rest, Yields Net.wire.env p m (.ok ok) ⟨m.os.extend f w, m.inFlight, ⟨rest, m.net.output⟩⟩ ∧
    w <+: m.net.input.take n ∧ (n ≤ m.net.input.length → ok = true) ∧
    (ok = true → n ≤ m.net.input.length ∧ w = m.net.input.take n)

theorem C.saves_nothing : C.Saves m f 0 (pure true) := by
  refine ⟨true, [], m.net.input, ?_, List.nil_prefix, fun _ => rfl, fun _ => ⟨Nat.zero_le _, rfl⟩⟩
  rw [Os.extend_nil]
  exact Proc.yields_done _ _

/-- C writes a block when all of it has arrived: the whole body, or the blocks that were complete. -/
theorem C.saveBody_saves {fuel : Nat} {remaining : UInt64} (hfuel : remaining.toNat ≤ fuel)
    (hsmall : (m.os.store.data f).length + remaining.toNat < OFF_MAX) :
    C.Saves m f remaining.toNat (C.saveBody f fuel remaining) := by
  induction fuel generalizing m remaining with
  | zero =>
    rw [show remaining.toNat = 0 by omega]
    exact C.saves_nothing
  | succ fuel ih =>
    unfold C.saveBody
    by_cases hpos : remaining > 0
    · have hpos' : 0 < remaining.toNat := by simpa using UInt64.lt_iff_toNat_lt.mp hpos
      rw [if_pos hpos]
      generalize hwant : (if remaining < 65536 then remaining else 65536) = want
      have hwant' : want.toNat ≤ remaining.toNat ∧ 0 < want.toNat := by
        rw [← hwant, C.want_toNat]
        exact ⟨Nat.min_le_right _ _, by simp only [C.BLOCK]; omega⟩
      have hsub : (remaining - want).toNat = remaining.toNat - want.toNat :=
        UInt64.toNat_sub_of_le _ _ (UInt64.le_iff_toNat_le.mpr hwant'.1)
      have hread := C.readExact_yields (m := m) want.toNat m.net.input m.net.output
      rw [Machine.wired_self] at hread
      by_cases hfull : want.toNat ≤ m.net.input.length
      · rw [if_pos hfull] at hread
        have hlen : (m.net.input.take want.toNat).length = want.toNat := by
          rw [List.length_take, Nat.min_eq_left hfull]
        have hdata : (m.os.extend f (m.net.input.take want.toNat)).store.data f =
            m.os.store.data f ++ m.net.input.take want.toNat := Os.extend_data (by omega)
        have hwrite : Yields Net.wire.env
            (Proc.perform (Sys.fs (.write f (m.net.input.take want.toNat))) : CProg _)
            (m.wired (m.net.input.drop want.toNat) m.net.output) (.ok (.ok ()))
            ⟨m.os.extend f (m.net.input.take want.toNat), m.inFlight,
              ⟨m.net.input.drop want.toNat, m.net.output⟩⟩ := by
          have hrun : m.os.run (.write f (m.net.input.take want.toNat)) =
              (.ok (), m.os.extend f (m.net.input.take want.toNat)) := Os.run_write (by omega)
          refine Proc.wp_perform.mpr (Net.call_fs.mpr ?_)
          show (Except.ok (.ok ()) = Except.ok (m.os.run (.write f (m.net.input.take want.toNat))).1) ∧ _
          rw [show (m.wired (m.net.input.drop want.toNat) m.net.output).os.run
            (.write f (m.net.input.take want.toNat)) = _ from hrun, hrun]
          exact ⟨rfl, rfl⟩
        obtain ⟨ok, w, rest, hy, hw, htrue, hall⟩ := @ih
          ⟨m.os.extend f (m.net.input.take want.toNat), m.inFlight,
            ⟨m.net.input.drop want.toNat, m.net.output⟩⟩ (remaining - want) (by omega) (by
              show ((m.os.extend f (m.net.input.take want.toNat)).store.data f).length + _ < _
              rw [hdata, List.length_append, hlen]
              omega)
        rw [hsub] at hw htrue hall
        have htake : m.net.input.take remaining.toNat = m.net.input.take want.toNat ++
            (m.net.input.drop want.toNat).take (remaining.toNat - want.toNat) := by
          rw [← List.take_add, Nat.add_sub_cancel' hwant'.1]
        have hwlen : w.length ≤ remaining.toNat - want.toNat := by
          have := hw.length_le
          rw [List.length_take] at this
          omega
        refine ⟨ok, m.net.input.take want.toNat ++ w, rest, ?_, ?_, ?_, ?_⟩
        · refine hread.bind (hwrite.bind ?_)
          rw [← Os.extend_extend (by rw [List.length_append, hlen]; omega)]
          exact hy
        · rw [htake]
          exact (List.prefix_append_right_inj _).mpr hw
        · intro h
          exact htrue (by show _ ≤ (m.net.input.drop want.toNat).length; rw [List.length_drop]; omega)
        · intro h
          obtain ⟨hle, hw'⟩ := hall h
          change _ ≤ (m.net.input.drop want.toNat).length at hle
          rw [List.length_drop] at hle
          exact ⟨by omega, by rw [htake, hw']⟩
      · rw [if_neg hfull] at hread
        refine ⟨false, [], m.net.input.drop want.toNat, ?_, List.nil_prefix, fun h => by omega,
          fun h => by cases h⟩
        rw [Os.extend_nil]
        exact hread.bind (Proc.yields_done _ _)
    · rw [gt_iff_lt, UInt64.lt_iff_toNat_lt] at hpos
      rw [if_neg (by rwa [gt_iff_lt, UInt64.lt_iff_toNat_lt]),
        show remaining.toNat = 0 from Nat.eq_zero_of_not_pos hpos]
      exact C.saves_nothing

end Body

/-! ## The end of a download -/

/-- The partial of a download is the file `f` and the destination is free. -/
structure Os.Ready (os : Os) (p dest : Bytes) (lp ld : Loc) (f : Nat) : Prop where
  locate : os.locate p = some lp
  slot : os.slot lp = some (.file f)
  dest : os.locate dest = some ld
  free : os.slot ld = none

namespace Os.Ready

variable {os : Os} {p dest : Bytes} {lp ld : Loc} {f : Nat}

theorem extend (h : os.Ready p dest lp ld f) (w : Bytes) : (os.extend f w).Ready p dest lp ld f where
  locate := by rw [locate_extend, h.locate]
  slot := by rw [extend_slot, h.slot]
  dest := by rw [locate_extend, h.dest]
  free := by rw [extend_slot, h.free]

theorem at_partial (h : os.Ready p dest lp ld f) : os.at? p = some (.file f) :=
  at?_eq_some.mpr ⟨lp, h.locate, h.slot⟩

theorem creatable_extend (os : Os) (f : Nat) (w : Bytes) (l : Loc) :
    (os.extend f w).creatable l = os.creatable l := by
  unfold creatable
  rw [extend_accepts]

theorem run_rename (h : os.Ready p dest lp ld f) (hc : os.creatable ld = true) :
    os.run (.rename p dest) = (.ok (), os.renamed lp ld) :=
  run_rename_at h.locate h.dest h.slot h.free hc

theorem run_rename_refused (h : os.Ready p dest lp ld f) (hc : os.creatable ld = false) :
    os.run (.rename p dest) = (.error .osError, os) := by
  simp [run, h.locate, h.dest, h.slot, h.free, hc]

end Os.Ready

section Finish

variable {m : Machine Wire} {p dest : Bytes} {lp ld : Loc} {f : Nat}

theorem verifyDownload_yields (h : m.os.Ready p dest lp ld f) (hc : m.os.creatable ld = true) :
    Yields Net.wire.env (verifyDownload dest p (sha256 (m.os.store.data f))) m (.ok ())
      { m with os := m.os.renamed lp ld } := by
  apply Yields.bind (wpm_sha256File h.at_partial ⟨rfl, rfl⟩)
  rw [if_neg (not_not.mpr rfl)]
  apply Py.wpm_replace.mpr
  rw [h.run_rename hc]
  exact ⟨rfl, rfl⟩

theorem C.verifyDownload_yields (h : m.os.Ready p dest lp ld f) :
    Yields Net.wire.env (C.verifyDownload dest p (sha256 (m.os.store.data f))) m
      (.ok (m.os.creatable ld))
      { m with os := if m.os.creatable ld then m.os.renamed lp ld else m.os } := by
  apply Yields.bind (C.wpm_sha256File_at h.at_partial ⟨rfl, rfl⟩)
  simp only
  rw [if_neg (not_not.mpr rfl)]
  refine Proc.wp_bind.mpr (Proc.wp_perform.mpr (Net.call_fs.mpr ?_))
  cases hc : m.os.creatable ld with
  | true =>
    rw [h.run_rename hc]
    exact ⟨rfl, rfl⟩
  | false =>
    rw [h.run_rename_refused hc]
    exact ⟨rfl, rfl⟩

/-- How a download into the open file `f` can end: with a front of `F` in the partial, or with all of
it in the destination. -/
inductive Os.Ends (os : Os) (f : Nat) (F : Bytes) (lp ld : Loc) : Bool → Os → Prop
  | kept {w : Bytes} : os.store.data f ++ w <+: F → Os.Ends os f F lp ld false (os.extend f w)
  | delivered {w : Bytes} : os.store.data f ++ w = F →
      Os.Ends os f F lp ld true ((os.extend f w).renamed lp ld)

/-- C, when the body is cut off anywhere. -/
theorem C.finish_yields {F : Bytes} {remaining : UInt64} (h : m.os.Ready p dest lp ld f)
    (hF : m.os.store.data f <+: F) (hsmall : F.length < OFF_MAX)
    (hrem : remaining.toNat = F.length - (m.os.store.data f).length)
    (hin : m.net.input <+: F.drop (m.os.store.data f).length) :
    ∃ ok os' rest, Yields Net.wire.env (do
      if (← C.saveBody f remaining.toNat remaining) = false then return false
      else C.verifyDownload dest p (sha256 F)) m (.ok ok)
        ⟨os', m.inFlight, ⟨rest, m.net.output⟩⟩ ∧ m.os.Ends f F lp ld ok os' ∧
      (remaining.toNat ≤ m.net.input.length → m.os.creatable ld = true → ok = true) := by
  obtain ⟨body, rfl⟩ := hF
  rw [List.length_append] at hrem hsmall
  rw [List.drop_left] at hin
  obtain ⟨saved, w, rest, hy, hw, htrue, hall⟩ :=
    @C.saveBody_saves m f remaining.toNat remaining le_rfl (by omega)
  have hwpre : w <+: body := hw.trans ((List.take_prefix _ _).trans hin)
  have hwlen : (m.os.store.data f).length + w.length < OFF_MAX := by
    have := hwpre.length_le
    omega
  have hdata : (m.os.extend f w).store.data f = m.os.store.data f ++ w := Os.extend_data hwlen
  have hkept : m.os.Ends f (m.os.store.data f ++ body) lp ld false (m.os.extend f w) :=
    .kept ((List.prefix_append_right_inj _).mpr hwpre)
  cases hs : saved with
  | false =>
    rw [hs] at hy
    refine ⟨false, _, rest, hy.bind (Proc.yields_done _ _), hkept, fun hle _ => ?_⟩
    rw [← hs]
    exact htrue hle
  | true =>
    obtain ⟨hle, hwtake⟩ := hall hs
    -- everything has arrived
    have hwbody : w = body := by
      have hlen : body.length ≤ w.length := by
        rw [hwtake, List.length_take]
        omega
      exact hwpre.eq_of_length (Nat.le_antisymm hwpre.length_le hlen)
    subst hwbody
    rw [hs] at hy
    have hverify := @C.verifyDownload_yields ⟨m.os.extend f w, m.inFlight, ⟨rest, m.net.output⟩⟩ p dest
      lp ld f (h.extend w)
    simp only [hdata, Os.Ready.creatable_extend] at hverify
    refine ⟨m.os.creatable ld, _, rest, hy.bind hverify, ?_, fun _ hc => hc⟩
    cases m.os.creatable ld with
    | true => exact .delivered rfl
    | false => exact hkept

end Finish

/-! ## The partial is opened -/

/-- The disk without what was at a place. -/
def Os.cleared (os : Os) (old : Option Loc) : Os := old.elim os os.removeAt

/-- What a partial holds once it has been opened, and as which file. When the server starts from the
beginning, what was found before is taken away and the partial is new. -/
inductive Os.Opened (os : Os) (old : Option Loc) (lp : Loc) : Bytes → Os → Nat → Prop
  | resumed {f : Nat} : os.slot lp = some (.file f) → os.store.data f ≠ [] →
      Os.Opened os old lp (os.store.data f) os f
  | restarted : (os.cleared old).slot lp = none → os.creatable lp = true →
      Os.Opened os old lp [] ((os.cleared old).createAt lp) os.store.next

/-- There is a file at the place, if there is a place. -/
def Os.Old (os : Os) (old : Option Loc) : Prop := ∀ l, old = some l → ∃ i, os.slot l = some (.file i)

namespace Os

variable {os os₁ : Os} {old : Option Loc} {p dest g : Bytes} {lp ld l : Loc} {f : Nat}

theorem old_of_found {existing : Option Bytes}
    (h : ∀ q, existing = some q → ∃ i, os.at? q = some (.file i)) :
    os.Old (existing.bind os.locate) := by
  intro l hl
  obtain ⟨q, hq, hlq⟩ := Option.bind_eq_some_iff.mp hl
  obtain ⟨i, hi⟩ := h q hq
  obtain ⟨l', hl', hs⟩ := at?_eq_some.mp hi
  rw [hlq] at hl'
  cases hl'
  exact ⟨i, hs⟩

theorem cleared_slot (hold : os.Old old) (l : Loc) :
    (os.cleared old).slot l = if old = some l then none else os.slot l := by
  cases old with
  | none => rfl
  | some l₀ =>
    obtain ⟨i, hi⟩ := hold l₀ rfl
    have hp : ¬ l₀ <+: os.cwd := not_prefix_of_slot (by rw [hi]; simp)
    show (os.removeAt l₀).slot l = _
    rw [removeAt_slot hp]
    by_cases h : l = l₀
    · rw [if_pos h, if_pos (by rw [h])]
    · rw [if_neg h, if_neg (by rintro ⟨⟩; exact h rfl)]

theorem locate_cleared (hold : os.Old old) (p : Bytes) : (os.cleared old).locate p = os.locate p := by
  cases old with
  | none => rfl
  | some l =>
    obtain ⟨i, hi⟩ := hold l rfl
    exact locate_removeAt hi p

theorem cleared_store (os : Os) (old : Option Loc) : (os.cleared old).store.data = os.store.data ∧
    (os.cleared old).store.next = os.store.next := by
  cases old <;> exact ⟨rfl, rfl⟩

theorem creatable_cleared (os : Os) (old : Option Loc) (l : Loc) :
    (os.cleared old).creatable l = os.creatable l := by
  cases old <;> rfl

theorem Opened.data (h : os.Opened old lp g os₁ f) : os₁.store.data f = g := by
  cases h with
  | resumed hs hne => rfl
  | restarted hs =>
    rw [createAt_data, if_pos (cleared_store os old).2.symm]

theorem Opened.creatable (h : os.Opened old lp g os₁ f) (l : Loc) :
    os₁.creatable l = os.creatable l := by
  cases h with
  | resumed hs hne => rfl
  | restarted hs =>
    show (os.cleared old).creatable l = _
    exact creatable_cleared os old l

/-- The open partial is where it belongs. -/
theorem Opened.ready (h : os.Opened old lp g os₁ f) (hold : os.Old old) (hp : os.locate p = some lp)
    (hd : os.locate dest = some ld) (hfree : os.slot ld = none) (hne : ld ≠ lp) :
    os₁.Ready p dest lp ld f := by
  cases h with
  | resumed hs hne => exact ⟨hp, hs, hd, hfree⟩
  | restarted hs =>
    refine ⟨?_, ?_, ?_, ?_⟩
    · rw [locate_createAt hs, locate_cleared hold, hp]
    · rw [createAt_slot hs, if_pos rfl, (cleared_store os old).2]
    · rw [locate_createAt hs, locate_cleared hold, hd]
    · rw [createAt_slot hs, if_neg hne, cleared_slot hold, hfree, ite_self]

theorem run_openWb_new (hl : os.locate p = some lp) (hs : os.slot lp = none)
    (hc : os.creatable lp = true) : os.run (.openWb p) = (.ok os.store.next, os.createAt lp) := by
  simp [run, openNew, hl, hs, hc]

theorem run_openWb_refused (hl : os.locate p = some lp) (hs : os.slot lp = none)
    (hc : os.creatable lp = false) : os.run (.openWb p) = (.error .osError, os) := by
  simp [run, openNew, hl, hs, hc]

theorem run_remove_at (hl : os.locate p = some l) (hs : os.slot l = some (.file f)) :
    os.run (.remove p) = (.ok (), os.removeAt l) := by
  simp [run, hl, hs]

end Os

/-- The fields of a metadata block. -/
theorem getMeta_fields {c : Bytes} {start : Nat} (hc : c.length < 256 ^ 8) (hs : start < 256 ^ 8) :
    ofBE ((getMeta c start).take 8) = c.length ∧ ofBE (((getMeta c start).drop 8).take 8) = start ∧
      (getMeta c start).drop 16 = sha256 c := by
  have hfront : (toBE 8 c.length ++ toBE 8 start).length = 16 := by simp
  refine ⟨?_, ?_, ?_⟩
  · rw [getMeta, List.append_assoc, List.take_left' (toBE_length 8 _), ofBE_toBE hc]
  · rw [getMeta, List.append_assoc, List.drop_left' (toBE_length 8 _),
      List.take_left' (toBE_length 8 _), ofBE_toBE hs]
  · rw [getMeta, List.drop_left' hfront]

section Receive

variable {m : Machine Wire} {p dest g F : Bytes} {lp ld : Loc} {f : Nat} {os₁ : Os}

/-- Python, when the whole body arrives. -/
theorem receiveDownload_yields {existing : Option Bytes} {rest metadata : Bytes}
    (hmd : metadata = getMeta F g.length)
    (hfound : ∀ q, existing = some q → ∃ i, m.os.at? q = some (.file i))
    (hopen : m.os.Opened (existing.bind m.os.locate) lp g os₁ f)
    (hp : m.os.locate (partialName dest (sha256 F)) = some lp) (hd : m.os.locate dest = some ld)
    (hfree : m.os.slot ld = none) (hne : ld ≠ lp) (hc : m.os.creatable ld = true) (hg : g <+: F)
    (hsmall : F.length < OFF_MAX) (hin : m.net.input = F.drop g.length ++ rest) :
    Yields Net.wire.env (receiveDownload dest existing metadata) m (.ok ())
      ⟨(os₁.extend f (F.drop g.length)).renamed lp ld, m.inFlight, ⟨rest, m.net.output⟩⟩ := by
  have hold : m.os.Old (existing.bind m.os.locate) := Os.old_of_found hfound
  have hmax : OFF_MAX < 256 ^ 8 := by decide
  have hglen := hg.length_le
  have hfields := @getMeta_fields F g.length (hsmall.trans hmax) (hglen.trans_lt (hsmall.trans hmax))
  rw [← hmd] at hfields
  have hsize := hfields.1
  have hstart := hfields.2.1
  have hdigest := hfields.2.2
  have hready := hopen.ready hold hp hd hfree hne
  have hbody : os₁.store.data f ++ F.drop g.length = F := by
    rw [hopen.data]
    obtain ⟨t, rfl⟩ := hg
    rw [List.drop_left]
  have hroom : (os₁.store.data f).length + (F.drop g.length).length < OFF_MAX := by
    rw [← List.length_append, hbody]
    exact hsmall
  -- the body goes into the open partial
  have hsave : Yields Net.wire.env (saveBody f (F.length - g.length) (F.length - g.length))
      ⟨os₁, m.inFlight, m.net⟩ (.ok ())
      ⟨os₁.extend f (F.drop g.length), m.inFlight, ⟨rest, m.net.output⟩⟩ := by
    rw [← List.length_drop]
    exact @saveBody_yields ⟨os₁, m.inFlight, m.net⟩ f _ _ rest le_rfl hin hroom
  -- and the partial becomes the destination
  have hverify : Yields Net.wire.env (verifyDownload dest (partialName dest (sha256 F)) (sha256 F))
      ⟨os₁.extend f (F.drop g.length), m.inFlight, ⟨rest, m.net.output⟩⟩ (.ok ())
      ⟨(os₁.extend f (F.drop g.length)).renamed lp ld, m.inFlight, ⟨rest, m.net.output⟩⟩ := by
    have hF : (os₁.extend f (F.drop g.length)).store.data f = F := by rw [Os.extend_data hroom, hbody]
    have hcreate : (os₁.extend f (F.drop g.length)).creatable ld = true := by
      rw [Os.Ready.creatable_extend, hopen.creatable, hc]
    have := @verifyDownload_yields ⟨os₁.extend f (F.drop g.length), m.inFlight, ⟨rest, m.net.output⟩⟩
      _ dest lp ld f (hready.extend _) hcreate
    rwa [hF] at this
  unfold receiveDownload
  rw [hsize, hstart, hdigest]
  simp only
  cases hopen with
  | resumed hs hnil =>
    have hpos : (m.os.store.data f).length ≠ 0 := fun h => hnil (List.length_eq_zero_iff.mp h)
    rw [if_neg hpos]
    refine Yields.bind (a := ()) (Yields.tryCatch ?_) hverify
    rw [if_pos hpos]
    exact (yields_openAb (Os.run_openAb_file (Os.at?_eq_some.mpr ⟨lp, hp, hs⟩))).bind hsave
  | restarted hs hcp =>
    have hnew : (m.os.cleared (existing.bind m.os.locate)).run (.openWb (partialName dest (sha256 F))) =
        (.ok m.os.store.next, (m.os.cleared (existing.bind m.os.locate)).createAt lp) := by
      rw [Os.run_openWb_new (by rw [Os.locate_cleared hold, hp]) hs
        (by rw [Os.creatable_cleared, hcp]), (Os.cleared_store _ _).2]
    have hfetch : Yields Net.wire.env (fetchBody (partialName dest (sha256 F)) F.length 0)
        ⟨m.os.cleared (existing.bind m.os.locate), m.inFlight, m.net⟩ (.ok ())
        ⟨((m.os.cleared (existing.bind m.os.locate)).createAt lp).extend m.os.store.next
          (F.drop ([] : Bytes).length), m.inFlight, ⟨rest, m.net.output⟩⟩ := by
      refine Yields.tryCatch (Yields.bind (a := m.os.store.next) ?_ hsave)
      apply Py.wpm_openWb.mpr
      rw [hnew]
      exact ⟨rfl, rfl⟩
    rw [List.length_nil, if_pos rfl]
    cases existing with
    | none => exact hfetch.bind hverify
    | some q =>
      obtain ⟨i, hi⟩ := hfound q rfl
      obtain ⟨l, hl, hs'⟩ := Os.at?_eq_some.mp hi
      rw [Option.bind_some, hl] at hfetch hverify ⊢
      exact (yields_remove hl hs').bind (hfetch.bind hverify)

/-- How a download that had the front `g` of `F` can end, with what was found before at `old`. -/
inductive Os.Transfers (os : Os) (old : Option Loc) (lp ld : Loc) (g F : Bytes) : Bool → Os → Prop
  | refused : (os.cleared old).slot lp = none → os.creatable lp = false →
      Os.Transfers os old lp ld g F false (os.cleared old)
  | ended {os₁ os' : Os} {f : Nat} {ok : Bool} : os.Opened old lp g os₁ f →
      os₁.Ends f F lp ld ok os' → Os.Transfers os old lp ld g F ok os'

theorem C.getMeta_fields {c : Bytes} {start : Nat} (hc : c.length < 256 ^ 8) (hs : start < 256 ^ 8) :
    (C.getU64 (getMeta c start)).toNat = c.length ∧
      (C.getU64 ((getMeta c start).drop 8)).toNat = start ∧ (getMeta c start).drop 16 = sha256 c := by
  obtain ⟨hsize, hstart, hdigest⟩ := Retriever.getMeta_fields hc hs
  have h48 : GET_META = 48 := rfl
  have hlen := getMeta_length c start
  exact ⟨by rw [C.getU64_toNat (by omega), hsize],
    by rw [C.getU64_toNat (by rw [List.length_drop]; omega), hstart], hdigest⟩

/-- C, when the body is cut off anywhere. -/
theorem C.receiveDownload_yields {existing : C.Found} {metadata : Bytes}
    (hmd : metadata = getMeta F g.length)
    (hfound : ∀ q, existing.path? = some q → ∃ i, m.os.at? q = some (.file i))
    (hopen : (∃ f, m.os.slot lp = some (.file f) ∧ m.os.store.data f = g ∧ g ≠ []) ∨
      g = [] ∧ (m.os.cleared (existing.path?.bind m.os.locate)).slot lp = none)
    (hname : C.partialName dest (sha256 F) = some p) (hp : m.os.locate p = some lp)
    (hd : m.os.locate dest = some ld) (hfree : m.os.slot ld = none) (hne : ld ≠ lp) (hg : g <+: F)
    (hsmall : F.length < OFF_MAX) (hin : m.net.input <+: F.drop g.length) :
    ∃ ok os' rest, Yields Net.wire.env (C.receiveDownload dest existing metadata) m (.ok ok)
        ⟨os', m.inFlight, ⟨rest, m.net.output⟩⟩ ∧
      m.os.Transfers (existing.path?.bind m.os.locate) lp ld g F ok os' ∧
      (F.length - g.length ≤ m.net.input.length → m.os.creatable lp = true →
        m.os.creatable ld = true → ok = true) := by
  have hold : m.os.Old (existing.path?.bind m.os.locate) := Os.old_of_found hfound
  have hmax : OFF_MAX < 2 ^ 64 := by decide
  have hglen := hg.length_le
  have hfields := @C.getMeta_fields F g.length (by omega) (by omega)
  rw [← hmd] at hfields
  obtain ⟨hsize, hstart, hdigest⟩ := hfields
  generalize hold' : existing.path?.bind m.os.locate = old at *
  generalize htotal : C.getU64 metadata = total at *
  generalize hoff : C.getU64 (metadata.drop 8) = start at *
  have hrem : (total - start).toNat = F.length - g.length := by
    rw [UInt64.toNat_sub_of_le _ _ (UInt64.le_iff_toNat_le.mpr (by omega)), hsize, hstart]
  -- from the time the partial is open
  have hrest : ∀ os₁ f, m.os.Opened old lp g os₁ f → ∃ ok os' rest,
      Yields Net.wire.env (do
        if (← C.saveBody f (total - start).toNat (total - start)) = false then return false
        else C.verifyDownload dest p (sha256 F)) ⟨os₁, m.inFlight, m.net⟩ (.ok ok)
        ⟨os', m.inFlight, ⟨rest, m.net.output⟩⟩ ∧ m.os.Transfers old lp ld g F ok os' ∧
      (F.length - g.length ≤ m.net.input.length → m.os.creatable lp = true →
        m.os.creatable ld = true → ok = true) := by
    intro os₁ f hop
    obtain ⟨ok, os', rest, hy, hends, hok⟩ := @C.finish_yields ⟨os₁, m.inFlight, m.net⟩ p dest lp ld f F
      (total - start) (hop.ready hold hp hd hfree hne) (by rw [hop.data]; exact hg) hsmall
      (by rw [hop.data, hrem]) (by rw [hop.data]; exact hin)
    rw [hrem] at hok
    exact ⟨ok, os', rest, hy, .ended hop hends, fun h1 _ h3 => hok h1 (by rw [← h3]; exact hop.creatable ld)⟩
  unfold C.receiveDownload
  rw [htotal, hoff, hdigest]
  simp only [hname]
  rcases hopen with ⟨f, hs, rfl, hnil⟩ | ⟨rfl, hs⟩
  · have hpos : start ≠ 0 := by
      rintro rfl
      exact hnil (List.length_eq_zero_iff.mp hstart.symm)
    have hpos' : start > 0 := UInt64.pos_iff_ne_zero.mpr hpos
    obtain ⟨ok, os', rest, hy, htrans, hok⟩ := hrest m.os f (.resumed hs hnil)
    refine ⟨ok, os', rest, ?_, htrans, hok⟩
    rw [if_neg hpos]
    unfold C.fopenPartial
    rw [if_pos hpos']
    have hfile := @yields_fs Empty (.openAb p) m
    rw [Os.run_openAb_file (Os.at?_eq_some.mpr ⟨lp, hp, hs⟩)] at hfile
    exact hfile.bind hy
  · have hzero : start = 0 := UInt64.toNat_inj.mp hstart
    subst hzero
    rw [if_pos rfl]
    have hloc : (m.os.cleared old).locate p = some lp := by rw [Os.locate_cleared hold, hp]
    have hopenWb := @yields_fs Empty (.openWb p) ⟨m.os.cleared old, m.inFlight, m.net⟩
    have htail : ∃ ok os' rest, Yields Net.wire.env (C.fetchBody dest p (sha256 F) 0 (total - 0))
        ⟨m.os.cleared old, m.inFlight, m.net⟩ (.ok ok) ⟨os', m.inFlight, ⟨rest, m.net.output⟩⟩ ∧
      m.os.Transfers old lp ld [] F ok os' ∧
      (F.length - ([] : Bytes).length ≤ m.net.input.length → m.os.creatable lp = true →
        m.os.creatable ld = true → ok = true) := by
      cases hcp : m.os.creatable lp with
      | true =>
        obtain ⟨ok, os', rest, hy, htrans, hok⟩ := hrest _ _ (.restarted hs hcp)
        rw [hcp] at hok
        refine ⟨ok, os', rest, ?_, htrans, hok⟩
        rw [Os.run_openWb_new hloc hs (by rw [Os.creatable_cleared, hcp]), (Os.cleared_store _ _).2]
          at hopenWb
        exact hopenWb.bind hy
      | false =>
        rw [Os.run_openWb_refused hloc hs (by rw [Os.creatable_cleared, hcp])] at hopenWb
        exact ⟨false, m.os.cleared old, m.net.input, hopenWb.bind (Proc.yields_done _ _), .refused hs hcp,
          fun _ h => by cases h⟩
    obtain ⟨ok, os', rest, hy, htrans, hok⟩ := htail
    refine ⟨ok, os', rest, ?_, htrans, hok⟩
    -- what was found goes first
    cases existing with
    | found path size token =>
      obtain ⟨i, hi⟩ := hfound path rfl
      obtain ⟨l, hl, hs'⟩ := Os.at?_eq_some.mp hi
      have hremove := @yields_fs Empty (.remove path) m
      rw [Os.run_remove_at hl hs'] at hremove
      rw [show old = some l by rw [← hold']; exact hl] at hy
      exact hremove.bind hy
    | absent =>
      rw [show old = none from hold'.symm] at hy
      exact hy
    | failed =>
      rw [show old = none from hold'.symm] at hy
      exact hy

end Receive

end Retriever
