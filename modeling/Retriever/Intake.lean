/-
# Retriever.Intake — how much of a reply is read, and what is kept of it

The lengths of a reply are three numbers from the peer. Neither client compares them: Python reads
`total_size - start` bytes when that is positive, the C client as many as the difference has modulo
2^64, whatever the header has announced.

When the stream ends inside the body, Python has written whatever `recv` brought. The C client reads
blocks of 64 KiB and writes a block when it has all of it, so the bytes of the last block are lost.
-/
import Retriever.Reply

namespace Retriever

open Os (SLASH DOT)
open Proc (Yields Runs)

/-! ## How much of the stream is read -/

section Take

variable {m : Machine Wire} {f : Nat}

/-- Calls that do not touch the connection. -/
def Sys.OffWire : Sys → Prop
  | .recv _ => False
  | .send _ => False
  | _ => True

theorem offWire_net {ε α : Type} {X : ε → Prop} {p : Proc Sys Sys.Ans ε α} (hp : p.Uses Sys.OffWire X)
    (m : Machine Wire) :
    p.wp Net.wire.env (fun _ m' => m'.net = m.net) (fun _ m' => m'.net = m.net) m := by
  induction p generalizing m with
  | done a => exact rfl
  | raise e => exact rfl
  | call o k ih =>
    refine ⟨by cases o <;> trivial, fun a m' ha => ?_⟩
    have hnet : m'.net = m.net := by
      cases o with
      | recv n => exact absurd hp.1 not_false
      | send b => exact absurd hp.1 not_false
      | fs o =>
        obtain ⟨rfl, rfl⟩ := ha
        rfl
      | reserve p =>
        obtain ⟨rfl, rfl⟩ := ha
        rfl
      | discard p =>
        cases ha
        rfl
    rw [← hnet]
    exact ih a (hp.2 a) m'

/-- Of `n` bytes that were to be taken from the input some are taken, and `all` only if all of them. -/
def Took (input : Bytes) (n : Nat) (all : Prop) (m' : Machine Wire) : Prop :=
  (all → n ≤ input.length ∧ m'.net.input = input.drop n) ∧ ∃ k ≤ n, m'.net.input = input.drop k

namespace Took

variable {input c rest : Bytes} {n : Nat} {P P' : Prop} {m' m'' : Machine Wire}

theorem nothing (hP : ¬ P) (h : m'.net.input = input) : Took input n P m' :=
  ⟨fun hp => absurd hp hP, 0, Nat.zero_le _, h⟩

theorem zero (h : m'.net.input = input) : Took input 0 P m' :=
  ⟨fun _ => ⟨Nat.zero_le _, h⟩, 0, le_rfl, h⟩

/-- A piece first, and then the others. -/
theorem cons (hin : input = c ++ rest) (hle : c.length ≤ n) (h : Took rest (n - c.length) P m') :
    Took input n P m' := by
  obtain ⟨hall, k, hk, hrest⟩ := h
  subst hin
  refine ⟨fun hp => ?_, c.length + k, by omega, ?_⟩
  · obtain ⟨hlen, hdrop⟩ := hall hp
    refine ⟨by rw [List.length_append]; omega, ?_⟩
    rw [hdrop, List.drop_append, List.drop_of_length_le hle, List.nil_append]
  · rw [hrest, ← List.drop_drop, List.drop_left]

theorem of_net (h : Took input n P m') (hnet : m''.net = m'.net) (hP : P' → P) : Took input n P' m'' := by
  obtain ⟨hall, k, hk, hrest⟩ := h
  rw [← hnet] at hall hrest
  exact ⟨fun hp => hall (hP hp), k, hk, hrest⟩

end Took

/-- Python takes what is announced, or stops earlier. -/
theorem saveBody_takes {fuel remaining : Nat} (hfuel : remaining ≤ fuel) :
    (saveBody f fuel remaining).wp Net.wire.env (fun _ => Took m.net.input remaining True)
      (fun _ => Took m.net.input remaining False) m := by
  induction fuel generalizing m remaining with
  | zero =>
    obtain rfl : remaining = 0 := by omega
    exact Took.zero rfl
  | succ fuel ih =>
    unfold saveBody
    split
    · next hpos =>
      refine Proc.wp_bind.mpr (Py.wpm_recv.mpr ⟨trivial, fun a w hw => ?_⟩)
      rcases wire_recv_cases (by omega) hw with ⟨hnil, rfl, rfl⟩ | ⟨c, hc, hle, rfl, hin, hout⟩
      · exact Took.nothing not_false rfl
      · have hclen : c.length ≤ remaining := hle.trans (Nat.min_le_right _ _)
        have hcpos := List.length_pos_iff.mpr hc
        show Proc.wp _ (if c = [] then _ else _) _ _ _
        rw [if_neg hc]
        refine Proc.wp_bind.mpr (Py.wpm_write.mpr ?_)
        cases hrun : (m.os.run (.write f c)).1 with
        | error e => exact Took.cons hin hclen (Took.nothing not_false rfl)
        | ok u =>
          exact Proc.wp_mono (@ih ⟨(m.os.run (.write f c)).2, m.inFlight, w⟩ (remaining - c.length)
            (by omega)) (fun _ _ h => Took.cons hin hclen h) fun _ _ h => Took.cons hin hclen h
    · next hzero =>
      obtain rfl : remaining = 0 := by omega
      exact Took.zero rfl

/-- Python writes all that arrives when the stream ends early. -/
theorem saveBody_cut {fuel remaining : Nat} (hfuel : remaining ≤ fuel)
    (hlt : m.net.input.length < remaining)
    (hsmall : (m.os.store.data f).length + m.net.input.length < OFF_MAX) :
    Yields Net.wire.env (saveBody f fuel remaining) m (.error (.sys .connectionError))
      ⟨m.os.extend f m.net.input, m.inFlight, ⟨[], m.net.output⟩⟩ := by
  induction fuel generalizing m remaining with
  | zero => omega
  | succ fuel ih =>
    unfold saveBody
    rw [if_pos (by omega)]
    refine Proc.wp_bind.mpr (Py.wpm_recv.mpr ⟨trivial, fun a w hw => ?_⟩)
    rcases wire_recv_cases (by omega) hw with ⟨hnil, rfl, rfl⟩ | ⟨c, hc, hle, rfl, hin, hout⟩
    · refine ⟨rfl, ?_⟩
      rw [hnil, Os.extend_nil]
      exact Machine.eq_of_input hnil
    · have hcpos := List.length_pos_iff.mpr hc
      have hlen : m.net.input.length = c.length + w.input.length := by rw [hin, List.length_append]
      show Proc.wp _ (if c = [] then _ else _) _ _ _
      rw [if_neg hc]
      refine Proc.wp_bind.mpr (Py.wpm_write.mpr ?_)
      have hrun : m.os.run (.write f c) = (.ok (), m.os.extend f c) := Os.run_write (by omega)
      rw [hrun]
      have hdata : (m.os.extend f c).store.data f = m.os.store.data f ++ c :=
        Os.extend_data (by omega)
      have hnext := @ih ⟨m.os.extend f c, m.inFlight, w⟩ (remaining - c.length) (by omega)
        (show w.input.length < _ by omega)
        (by show ((m.os.extend f c).store.data f).length + w.input.length < _
            rw [hdata, List.length_append]; omega)
      rw [show (m.os.extend f c).extend f w.input = m.os.extend f m.net.input by
        rw [hin]; exact Os.extend_extend (by rw [List.length_append]; omega), hout] at hnext
      exact hnext

/-- The C client takes what is announced, or stops earlier. -/
theorem C.saveBody_takes {fuel : Nat} {remaining : UInt64} (hfuel : remaining.toNat ≤ fuel) :
    (C.saveBody f fuel remaining).wp Net.wire.env
      (fun saved => Took m.net.input remaining.toNat (saved = true)) (fun _ _ => False) m := by
  induction fuel generalizing m remaining with
  | zero =>
    have hzero : remaining.toNat = 0 := by omega
    rw [hzero]
    exact Took.zero rfl
  | succ fuel ih =>
    unfold C.saveBody
    by_cases hpos : remaining > 0
    · have hpos' : 0 < remaining.toNat := by simpa using UInt64.lt_iff_toNat_lt.mp hpos
      have hblock : 0 < C.BLOCK := by decide
      rw [if_pos hpos]
      have hwant := C.want_toNat remaining
      generalize (if remaining < 65536 then remaining else 65536) = want at hwant ⊢
      have hsub : (remaining - want).toNat = remaining.toNat - want.toNat :=
        UInt64.toNat_sub_of_le _ _ (UInt64.le_iff_toNat_le.mpr (by omega))
      have hread := C.readExact_yields (m := m) want.toNat m.net.input m.net.output
      rw [Machine.wired_self] at hread
      refine Proc.wp_bind.mpr (hread.wp ?_ fun e => e.elim)
      intro a ha
      by_cases hfull : want.toNat ≤ m.net.input.length
      · rw [if_pos hfull] at ha
        cases ha
        have hlen : (m.net.input.take want.toNat).length = want.toNat := by
          rw [List.length_take, Nat.min_eq_left hfull]
        have hin := (List.take_append_drop want.toNat m.net.input).symm
        refine Proc.wp_bind.mpr (Proc.wp_perform.mpr (Net.call_fs.mpr ?_))
        rw [show (m.wired (m.net.input.drop want.toNat) m.net.output).os = m.os from rfl]
        cases hrun : (m.os.run (.write f (m.net.input.take want.toNat))).1 with
        | error e => exact Took.cons hin (by omega) (Took.nothing (by decide) rfl)
        | ok u =>
          refine Proc.wp_mono (@ih ⟨(m.os.run (.write f (m.net.input.take want.toNat))).2, m.inFlight,
            ⟨m.net.input.drop want.toNat, m.net.output⟩⟩ (remaining - want) (by omega)) ?_
            fun _ _ h => h
          intro saved m' h
          apply Took.cons hin (by omega)
          rw [hlen, ← hsub]
          exact h
      · rw [if_neg hfull] at ha
        cases ha
        exact ⟨fun h => Bool.noConfusion h, want.toNat, by omega, rfl⟩
    · rw [if_neg hpos]
      rw [gt_iff_lt, UInt64.lt_iff_toNat_lt] at hpos
      rw [Nat.eq_zero_of_not_pos hpos]
      exact Took.zero rfl

/-- The C client writes the blocks that arrive in full when the stream ends early. -/
theorem C.saveBody_cut {fuel : Nat} {remaining : UInt64} (hfuel : remaining.toNat ≤ fuel)
    (hlt : m.net.input.length < remaining.toNat)
    (hsmall : (m.os.store.data f).length + m.net.input.length < OFF_MAX) :
    Yields Net.wire.env (C.saveBody f fuel remaining) m (.ok false)
      ⟨m.os.extend f (m.net.input.take (C.BLOCK * (m.net.input.length / C.BLOCK))), m.inFlight,
        ⟨[], m.net.output⟩⟩ := by
  induction fuel generalizing m remaining with
  | zero => omega
  | succ fuel ih =>
    have hblock : C.BLOCK = 65536 := rfl
    unfold C.saveBody
    rw [if_pos (show remaining > 0 by rw [gt_iff_lt, UInt64.lt_iff_toNat_lt]; exact Nat.zero_lt_of_lt hlt)]
    have hwant := C.want_toNat remaining
    generalize (if remaining < 65536 then remaining else 65536) = want at hwant ⊢
    have hread := C.readExact_yields (m := m) want.toNat m.net.input m.net.output
    rw [Machine.wired_self] at hread
    by_cases hfull : want.toNat ≤ m.net.input.length
    · -- a block has come in full
      have hw : want.toNat = C.BLOCK := by omega
      have hsub : (remaining - want).toNat = remaining.toNat - want.toNat :=
        UInt64.toNat_sub_of_le _ _ (UInt64.le_iff_toNat_le.mpr (by omega))
      rw [if_pos hfull, hw] at hread
      rw [hw] at hfull hsub
      simp only
      rw [hw]
      have hlen : (m.net.input.take C.BLOCK).length = C.BLOCK := by
        rw [List.length_take, Nat.min_eq_left hfull]
      have hdrop : (m.net.input.drop C.BLOCK).length = m.net.input.length - C.BLOCK := List.length_drop
      have hdata : (m.os.extend f (m.net.input.take C.BLOCK)).store.data f =
          m.os.store.data f ++ m.net.input.take C.BLOCK := Os.extend_data (by omega)
      have hwrite := @yields_fs Empty (.write f (m.net.input.take C.BLOCK))
        (m.wired (m.net.input.drop C.BLOCK) m.net.output)
      have hroom : (m.os.store.data f).length + (m.net.input.take C.BLOCK).length < OFF_MAX := by omega
      rw [show (m.wired (m.net.input.drop C.BLOCK) m.net.output).os.run
        (.write f (m.net.input.take C.BLOCK)) = (.ok (), m.os.extend f (m.net.input.take C.BLOCK)) from
          Os.run_write hroom] at hwrite
      have hnext := @ih ⟨m.os.extend f (m.net.input.take C.BLOCK), m.inFlight,
        ⟨m.net.input.drop C.BLOCK, m.net.output⟩⟩ (remaining - want) (by omega)
        (show (m.net.input.drop C.BLOCK).length < _ by omega)
        (by show ((m.os.extend f (m.net.input.take C.BLOCK)).store.data f).length +
              (m.net.input.drop C.BLOCK).length < _
            rw [hdata, List.length_append]; omega)
      refine hread.bind (hwrite.bind ?_)
      have htake : m.net.input.take C.BLOCK ++ (m.net.input.drop C.BLOCK).take
          (C.BLOCK * ((m.net.input.drop C.BLOCK).length / C.BLOCK)) =
          m.net.input.take (C.BLOCK * (m.net.input.length / C.BLOCK)) := by
        rw [← List.take_add, hdrop, Nat.div_eq_sub_div (by decide) hfull, Nat.mul_add, Nat.mul_one,
          Nat.add_comm]
      rw [← htake, ← Os.extend_extend (by
        rw [List.length_append, hlen, List.length_take]; omega)]
      exact hnext
    · rw [if_neg hfull] at hread
      have hnone : m.net.input.length / C.BLOCK = 0 := Nat.div_eq_of_lt (by omega)
      rw [hnone, Nat.mul_zero, List.take_zero, Os.extend_nil]
      rw [List.drop_of_length_le (by omega)] at hread
      exact hread.bind (Proc.yields_done _ _)

theorem offWire_fs (o : FsOp) : Sys.OffWire (.fs o) := trivial

/-- Python, with any disk: what is read of the body. -/
theorem receiveDownload_takes {dest : Bytes} {existing : Option Bytes} {metadata : Bytes}
    {total start : Nat} (hsize : ofBE (metadata.take 8) = total)
    (hstart : ofBE ((metadata.drop 8).take 8) = start) :
    (receiveDownload dest existing metadata).wp Net.wire.env
      (fun _ => Took m.net.input (total - start) True)
      (fun _ => Took m.net.input (total - start) False) m := by
  apply receiveDownload_wp
  rw [hsize, hstart]
  cases (m.os.discardOld start existing).1 with
  | error e => exact Took.nothing not_false rfl
  | ok u =>
    apply fetchBody_wp
    cases (Os.openPartial _ start (partialName dest (metadata.drop 16))).1 with
    | error e => exact Took.nothing not_false rfl
    | ok f =>
      refine Proc.wp_mono (saveBody_takes le_rfl) ?_ fun _ _ h => h
      intro _ m' h
      exact Proc.wp_mono (offWire_net (uses_verifyDownload offWire_fs _ _ _) m')
        (fun _ _ hm => h.of_net hm id) fun _ _ hm => h.of_net hm False.elim

/-- The C client, with any disk: what is read of the body. -/
theorem C.receiveDownload_takes {dest : Bytes} {existing : C.Found} {metadata : Bytes} :
    (C.receiveDownload dest existing metadata).wp Net.wire.env
      (fun ok => Took m.net.input (C.getU64 metadata - C.getU64 (metadata.drop 8)).toNat (ok = true))
      (fun _ _ => False) m := by
  refine C.receiveDownload_wp (fun _ => Took.nothing Bool.false_ne_true rfl) fun p _ => ?_
  generalize C.getU64 metadata - C.getU64 (metadata.drop 8) = remaining
  generalize C.getU64 (metadata.drop 8) = start
  refine Proc.wp_bind.mpr (C.fopenPartial_wp ?_)
  cases (Os.openPartial _ start.toNat p).1 with
  | error e => exact Took.nothing Bool.false_ne_true rfl
  | ok f =>
    refine Proc.wp_bind.mpr (Proc.wp_mono (C.saveBody_takes le_rfl) ?_ fun _ _ h => h)
    intro saved m' h
    cases saved with
    | false => exact h
    | true =>
      refine Proc.wp_mono (offWire_net (C.uses_verifyDownload offWire_fs dest p _) m') ?_
        fun e => e.elim
      exact fun _ _ hm => h.of_net hm fun _ => rfl

/-- Python with room for what arrives: the loop ends, and has taken what was announced or all there is. -/
theorem saveBody_whole {remaining : Nat}
    (hsmall : (m.os.store.data f).length + min remaining m.net.input.length < OFF_MAX) :
    ∃ r os', Yields Net.wire.env (saveBody f remaining remaining) m r
      ⟨os', m.inFlight, ⟨m.net.input.drop remaining, m.net.output⟩⟩ := by
  by_cases hle : remaining ≤ m.net.input.length
  · have hlen : (m.net.input.take remaining).length = remaining := by
      rw [List.length_take, Nat.min_eq_left hle]
    have hy := @saveBody_yields m f remaining (m.net.input.take remaining) (m.net.input.drop remaining)
      (by omega) (List.take_append_drop _ _).symm (by omega)
    rw [hlen] at hy
    exact ⟨_, _, hy⟩
  · rw [List.drop_of_length_le (by omega)]
    exact ⟨_, _, saveBody_cut le_rfl (by omega) (by omega)⟩

theorem C.saveBody_whole {remaining : UInt64}
    (hsmall : (m.os.store.data f).length + min remaining.toNat m.net.input.length < OFF_MAX) :
    ∃ saved os', Yields Net.wire.env (C.saveBody f remaining.toNat remaining) m (.ok saved)
      ⟨os', m.inFlight, ⟨m.net.input.drop remaining.toNat, m.net.output⟩⟩ := by
  by_cases hle : remaining.toNat ≤ m.net.input.length
  · obtain ⟨saved, w, rest, hy, -, htrue, -⟩ := @C.saveBody_saves m f remaining.toNat remaining le_rfl
      (by omega)
    obtain rfl := htrue hle
    -- what is left is known from any run
    obtain ⟨r, m', hrun⟩ := Proc.exists_runs Net.wire_live (C.saveBody f remaining.toNat remaining) m
    obtain ⟨rfl, rfl⟩ := hy.unique hrun
    rcases Proc.wp_runs (@C.saveBody_takes m f _ remaining le_rfl) hrun with ⟨_, ha, htook⟩ | ⟨e, -⟩
    · cases ha
      have hrest : rest = m.net.input.drop remaining.toNat := (htook.1 rfl).2
      rw [hrest] at hy
      exact ⟨_, _, hy⟩
    · exact e.elim
  · rw [List.drop_of_length_le (by omega)]
    exact ⟨_, _, C.saveBody_cut le_rfl (by omega) (by omega)⟩

/-- The disk can take in the part of a body of `n` bytes that is in the input. -/
structure Os.TakesIn (os : Os) (existing : Option Bytes) (p : Bytes) (start n : Nat) (input : Bytes)
    (lp : Loc) : Prop where
  found : ∀ q, existing = some q → ∃ i, os.at? q = some (.file i)
  locate : os.locate p = some lp
  openable : (os.clearedFor start (existing.bind os.locate)).Openable lp
  room : ((os.clearedFor start (existing.bind os.locate)).keptAt start lp).length +
    min n input.length < OFF_MAX

theorem Os.TakesIn.opened {os : Os} {existing : Option Bytes} {p input : Bytes} {start n : Nat}
    {lp : Loc} (h : os.TakesIn existing p start n input lp) : ∃ os₁ f,
      (os.clearedFor start (existing.bind os.locate)).openPartial start p = (.ok f, os₁) ∧
      (os.clearedFor start (existing.bind os.locate)).OpenedAs os₁ lp f
        ((os.clearedFor start (existing.bind os.locate)).keptAt start lp) :=
  Os.openPartial_opened
    (by rw [Os.locate_clearedFor fun _ => Os.old_of_found h.found, h.locate]) h.openable start

/-- Python, with such a disk: what is announced is read, as far as it comes. -/
theorem receiveDownload_whole {dest metadata : Bytes} {existing : Option Bytes} {total start : Nat}
    {lp : Loc} (hsize : ofBE (metadata.take 8) = total)
    (hstart : ofBE ((metadata.drop 8).take 8) = start)
    (h : m.os.TakesIn existing (partialName dest (metadata.drop 16)) start (total - start) m.net.input
      lp) :
    (receiveDownload dest existing metadata).wp Net.wire.env
      (fun _ m' => m'.net.input = m.net.input.drop (total - start))
      (fun _ m' => m'.net.input = m.net.input.drop (total - start)) m := by
  obtain ⟨os₁, f, hopen, hopened⟩ := h.opened
  apply receiveDownload_opened hsize hstart rfl rfl (fun _ => h.found) hopen
  obtain ⟨r, os', hy⟩ := @saveBody_whole ⟨os₁, m.inFlight, m.net⟩ f (total - start)
    (by rw [hopened.data]; exact h.room)
  refine hy.wp (fun _ _ => ?_) fun _ _ => rfl
  refine Proc.wp_mono (offWire_net (uses_verifyDownload offWire_fs _ _ _) _) ?_ ?_
  · exact fun _ _ hm => by rw [hm]
  · exact fun _ _ hm => by rw [hm]

theorem C.receiveDownload_whole {dest p metadata : Bytes} {existing : C.Found} {total start : UInt64}
    {lp : Loc} (hsize : C.getU64 metadata = total) (hstart : C.getU64 (metadata.drop 8) = start)
    (hp : C.partialName dest (metadata.drop 16) = some p)
    (h : m.os.TakesIn existing.path? p start.toNat (total - start).toNat m.net.input lp) :
    (C.receiveDownload dest existing metadata).wp Net.wire.env
      (fun _ m' => m'.net.input = m.net.input.drop (total - start).toNat) (fun _ _ => False) m := by
  obtain ⟨os₁, f, hopen, hopened⟩ := h.opened
  apply C.receiveDownload_opened hsize hstart rfl hp h.found hopen
  obtain ⟨saved, os', hy⟩ := @C.saveBody_whole ⟨os₁, m.inFlight, m.net⟩ f (total - start)
    (by rw [hopened.data]; exact h.room)
  refine hy.wp (fun saved hs => ?_) fun e => e.elim
  split
  · rfl
  · refine Proc.wp_mono (offWire_net (C.uses_verifyDownload offWire_fs _ _ _) _) ?_ fun e => e.elim
    exact fun _ _ hm => by rw [hm]

end Take

/-! ## The lengths are not checked -/

/-- The fields of a metadata block. -/
def metaTotal (metadata : Bytes) : Nat := ofBE (metadata.take 8)

def metaStart (metadata : Bytes) : Nat := ofBE ((metadata.drop 8).take 8)

/-- The lengths of a reply fit together. -/
def Fits (payloadLen : Nat) (metadata : Bytes) : Prop :=
  metaStart metadata ≤ metaTotal metadata ∧
    payloadLen = GET_META + (metaTotal metadata - metaStart metadata)

instance (payloadLen : Nat) (metadata : Bytes) : Decidable (Fits payloadLen metadata) :=
  inferInstanceAs (Decidable (_ ∧ _))

/-- **A client checks the lengths**: on a reply whose lengths do not fit it goes no further than the
metadata, and of one whose lengths fit it reads exactly the body, all of it when it succeeds and all
that comes when its disk takes it in. -/
structure Checks {ε α : Type} (p : Proc Sys Sys.Ans ε α) (ok : Except ε α → Prop) (m : Machine Wire)
    (rest : Bytes) (fits : Prop) (bodyLen : Nat) (room : Prop) : Prop where
  stops : ¬ fits → ∀ r m', Runs Net.wire.env p m r m' → ¬ ok r ∧ m' = m.wired rest m.net.output
  reads : fits → ∀ r m', Runs Net.wire.env p m r m' → Took rest bodyLen (ok r) m'
  whole : fits → room → ∀ r m', Runs Net.wire.env p m r m' → m'.net.input = rest.drop bodyLen

/-- Python checks the lengths of replies with this header and metadata. -/
def ChecksReplies (payloadLen : Nat) (metadata : Bytes) : Prop :=
  ∀ (os : Os) (fl : Finset Bytes) (sent rest dest : Bytes) (existing : Option Bytes),
    Checks (receiveGetReply dest existing) (fun r => r = .ok ())
      ⟨os, fl, ⟨okHeader payloadLen ++ metadata ++ rest, sent⟩⟩ rest (Fits payloadLen metadata)
      (payloadLen - GET_META) (∃ lp, os.TakesIn existing (partialName dest (metadata.drop 16))
        (metaStart metadata) (payloadLen - GET_META) rest lp)

/-- The C client does. -/
def C.ChecksReplies (payloadLen : Nat) (metadata : Bytes) : Prop :=
  ∀ (os : Os) (fl : Finset Bytes) (sent rest dest : Bytes) (existing : C.Found),
    Checks (C.receiveGetReply dest existing) (fun r => r = .ok true)
      ⟨os, fl, ⟨okHeader payloadLen ++ metadata ++ rest, sent⟩⟩ rest (Fits payloadLen metadata)
      (payloadLen - GET_META) (∃ p lp, C.partialName dest (metadata.drop 16) = some p ∧
        os.TakesIn existing.path? p (metaStart metadata) (payloadLen - GET_META) rest lp)

section Lengths

variable {m : Machine Wire} {dest p metadata rest : Bytes} {payloadLen : Nat}

theorem receiveGetReply_checks {existing : Option Bytes} (hn : payloadLen < 2 ^ 64)
    (hmeta : metadata.length = GET_META) (hin : m.net.input = okHeader payloadLen ++ metadata ++ rest)
    (hfits : Fits payloadLen metadata) :
    Checks (receiveGetReply dest existing) (fun r => r = .ok ()) m rest (Fits payloadLen metadata)
      (payloadLen - GET_META) (∃ lp, m.os.TakesIn existing (partialName dest (metadata.drop 16))
        (metaStart metadata) (payloadLen - GET_META) rest lp) := by
  have hlen : payloadLen - GET_META = metaTotal metadata - metaStart metadata := by
    have := hfits.2
    omega
  rw [hlen]
  refine ⟨fun h => absurd hfits h, fun _ r m' hrun => ?_, ?_⟩
  · have htakes := @receiveDownload_takes (m.wired rest m.net.output) dest existing metadata _ _ rfl rfl
    rcases Proc.wp_runs (receiveGetReply_front hmeta hn hin htakes) hrun with
      ⟨a, rfl, h⟩ | ⟨e, rfl, h⟩
    · exact h.of_net rfl fun _ => trivial
    · exact h.of_net rfl nofun
  · rintro - ⟨lp, hroom⟩ r m' hrun
    have hwhole := @receiveDownload_whole (m.wired rest m.net.output) dest metadata existing _ _ lp
      rfl rfl hroom
    rcases Proc.wp_runs (receiveGetReply_front hmeta hn hin hwhole) hrun with
      ⟨a, rfl, h⟩ | ⟨e, rfl, h⟩
    · exact h
    · exact h

theorem C.getU64_meta (hmeta : metadata.length = GET_META) :
    (C.getU64 metadata).toNat = metaTotal metadata ∧
      (C.getU64 (metadata.drop 8)).toNat = metaStart metadata := by
  have h48 : GET_META = 48 := rfl
  exact ⟨C.getU64_toNat (by omega), C.getU64_toNat (by rw [List.length_drop]; omega)⟩

theorem C.receiveGetReply_checks {existing : C.Found} (hmeta : metadata.length = GET_META)
    (hin : m.net.input = okHeader payloadLen ++ metadata ++ rest) (hfits : Fits payloadLen metadata) :
    Checks (C.receiveGetReply dest existing) (fun r => r = .ok true) m rest (Fits payloadLen metadata)
      (payloadLen - GET_META) (∃ p lp, C.partialName dest (metadata.drop 16) = some p ∧
        m.os.TakesIn existing.path? p (metaStart metadata) (payloadLen - GET_META) rest lp) := by
  obtain ⟨htotal, hstart⟩ := C.getU64_meta hmeta
  have hlen : payloadLen - GET_META = (C.getU64 metadata - C.getU64 (metadata.drop 8)).toNat := by
    rw [UInt64.toNat_sub_of_le _ _ (UInt64.le_iff_toNat_le.mpr (by rw [htotal, hstart]; exact hfits.1)),
      htotal, hstart]
    have := hfits.2
    omega
  rw [hlen]
  refine ⟨fun h => absurd hfits h, fun _ r m' hrun => ?_, ?_⟩
  · have htakes := @C.receiveDownload_takes (m.wired rest m.net.output) dest existing metadata
    rcases Proc.wp_runs (C.receiveGetReply_front hmeta hin htakes) hrun with ⟨a, rfl, h⟩ | ⟨e, -⟩
    · exact h.of_net rfl fun h => by cases h; rfl
    · exact e.elim
  · rintro - ⟨p, lp, hp, hroom⟩ r m' hrun
    rw [← hstart] at hroom
    have hwhole := @C.receiveDownload_whole (m.wired rest m.net.output) dest p metadata existing _ _ lp
      rfl rfl hp hroom
    rcases Proc.wp_runs (C.receiveGetReply_front hmeta hin hwhole) hrun with ⟨a, rfl, h⟩ | ⟨e, -⟩
    · exact h
    · exact e.elim

theorem Os.Ready.gone {os : Os} {lp ld : Loc} {f : Nat} (h : os.Ready p dest lp ld f) :
    (os.removeAt lp).at? p = none := by
  refine Os.at?_eq_none.mpr fun l hl => ?_
  rw [Os.locate_removeAt h.slot, h.locate] at hl
  cases hl
  rw [Os.removeAt_slot (Os.not_prefix_of_slot (by rw [h.slot]; simp)), if_pos rfl]

theorem Os.Ready.ne {os : Os} {lp ld : Loc} {f : Nat} (h : os.Ready p dest lp ld f) : ld ≠ lp := by
  rintro rfl
  have hfree := h.free
  rw [h.slot] at hfree
  cases hfree

/-- The hash decides: the partial becomes the destination or it goes. -/
theorem verifyDownload_decides {lp ld : Loc} {f : Nat} (digest : Bytes)
    (h : m.os.Ready p dest lp ld f) (hc : m.os.creatable ld = true) :
    (verifyDownload dest p digest).wp Net.wire.env (fun _ _ => True)
      (fun _ m' => m'.os.at? p = none) m := by
  refine Proc.wp_bind.mpr (wpm_sha256File h.at_partial ?_)
  split
  · refine Proc.wp_bind.mpr ((yields_remove h.locate h.slot).wp (fun _ _ => ?_) fun e he => by cases he)
    exact h.gone
  · apply Py.wpm_replace.mpr
    rw [h.run_rename hc]
    trivial

theorem C.verifyDownload_decides {lp ld : Loc} {f : Nat} (digest : Bytes)
    (h : m.os.Ready p dest lp ld f) (hc : m.os.creatable ld = true) :
    (C.verifyDownload dest p digest).wp Net.wire.env (fun ok m' => ok = true ∨ m'.os.at? p = none)
      (fun _ _ => False) m := by
  refine Proc.wp_bind.mpr (C.wpm_sha256File_at h.at_partial ?_)
  simp only
  split
  · refine Proc.wp_bind.mpr (Proc.wp_perform.mpr (Net.call_fs.mpr ?_))
    rw [Os.run_remove_at h.locate h.slot]
    exact .inr h.gone
  · refine Proc.wp_bind.mpr (Proc.wp_perform.mpr (Net.call_fs.mpr ?_))
    rw [h.run_rename hc]
    exact .inl rfl

/-- A partial that is there takes more bytes, whether it was found or not. -/
theorem Os.Ready.takesIn {os : Os} {existing : Option Bytes} {lp ld : Loc} {f : Nat}
    (h : os.Ready p dest lp ld f) (hexist : ∀ q, existing = some q → os.locate q = some lp)
    (hc : os.creatable lp = true) {w : Bytes} (hsmall : (os.store.data f).length + w.length < OFF_MAX)
    (start n : Nat) : os.TakesIn existing p start n w lp := by
  have hfound : ∀ q, existing = some q → ∃ i, os.at? q = some (.file i) := fun q hq =>
    ⟨f, Os.at?_eq_some.mpr ⟨lp, hexist q hq, h.slot⟩⟩
  have hold := Os.old_of_found hfound
  refine ⟨hfound, h.locate, Os.Openable.clearedFor (fun _ => hold) (.inr ⟨f, h.slot⟩) hc, ?_⟩
  have hle : min n w.length ≤ w.length := Nat.min_le_right _ _
  unfold Os.keptAt
  by_cases hs : start = 0
  · rw [if_pos hs]
    exact (Nat.add_le_add (Nat.zero_le _) hle).trans_lt hsmall
  · rw [if_neg hs, Os.clearedFor_slot fun _ => hold, if_neg (fun h => hs h.1), h.slot, Os.clearedFor,
      if_neg hs]
    exact (Nat.add_le_add_left hle _).trans_lt hsmall

/-- **Python goes on after the metadata, whatever the lengths.** -/
theorem receiveGetReply_goes_on {existing : Option Bytes} {lp ld : Loc} {f : Nat} {b : UInt8}
    (hn : payloadLen < 2 ^ 64) (hmeta : metadata.length = GET_META)
    (hin : m.net.input = okHeader payloadLen ++ metadata ++ [b])
    (hp : partialName dest (metadata.drop 16) = p) (h : m.os.Ready p dest lp ld f)
    (hexist : ∀ q, existing = some q → m.os.locate q = some lp) (hcp : m.os.creatable lp = true)
    (hcd : m.os.creatable ld = true) (hsmall : (m.os.store.data f).length + 1 < OFF_MAX) :
    (receiveGetReply dest existing).wp Net.wire.env (fun _ _ => True)
      (fun _ m' => m'.net.input = [] ∨ m'.os.at? p = none) m := by
  apply receiveGetReply_front hmeta hn hin
  have hroom := h.takesIn hexist hcp (w := [b]) hsmall (metaStart metadata)
    (metaTotal metadata - metaStart metadata)
  by_cases hzero : metaTotal metadata - metaStart metadata = 0
  · -- nothing to read: the hash is next
    obtain ⟨os₁, f₁, hopen, hopened⟩ := hroom.opened
    refine @receiveDownload_opened (m.wired [b] m.net.output) dest p metadata _ f₁ os₁ existing _ _ rfl
      rfl rfl hp (fun _ => hroom.found) hopen _ _ ?_
    rw [show ofBE (metadata.take 8) - ofBE ((metadata.drop 8).take 8) = 0 from hzero]
    obtain ⟨hready, hc⟩ := hopened.ready_cleared (fun _ => Os.old_of_found hroom.found) h.locate h.dest
      h.free h.ne
    have hverify := @verifyDownload_decides ⟨os₁, m.inFlight, ⟨[b], m.net.output⟩⟩ dest p lp ld f₁
      (metadata.drop 16) hready (hc.trans hcd)
    show (verifyDownload dest p (metadata.drop 16)).wp Net.wire.env _ _ _
    exact Proc.wp_mono hverify (fun _ _ _ => trivial) fun _ _ h => .inr h
  · have hwhole := @receiveDownload_whole (m.wired [b] m.net.output) dest metadata existing _ _ lp rfl rfl
      (by rw [hp]; exact hroom)
    refine Proc.wp_mono hwhole (fun _ _ _ => trivial) fun _ m' h => .inl ?_
    rw [h]
    exact List.drop_of_length_le (Nat.one_le_iff_ne_zero.mpr hzero)

/-- **The C client goes on after the metadata, whatever the lengths.** -/
theorem C.receiveGetReply_goes_on {existing : C.Found} {lp ld : Loc} {f : Nat} {b : UInt8}
    (hmeta : metadata.length = GET_META) (hin : m.net.input = okHeader payloadLen ++ metadata ++ [b])
    (hp : C.partialName dest (metadata.drop 16) = some p) (h : m.os.Ready p dest lp ld f)
    (hexist : ∀ q, existing.path? = some q → m.os.locate q = some lp) (hcp : m.os.creatable lp = true)
    (hcd : m.os.creatable ld = true) (hsmall : (m.os.store.data f).length + 1 < OFF_MAX) :
    (C.receiveGetReply dest existing).wp Net.wire.env
      (fun ok m' => ok = true ∨ m'.net.input = [] ∨ m'.os.at? p = none) (fun _ _ => False) m := by
  apply C.receiveGetReply_front hmeta hin
  generalize htotal : C.getU64 metadata = total
  generalize hstart : C.getU64 (metadata.drop 8) = start
  have hroom := h.takesIn hexist hcp (w := [b]) hsmall start.toNat (total - start).toNat
  by_cases hzero : total - start = 0
  · obtain ⟨os₁, f₁, hopen, hopened⟩ := hroom.opened
    refine @C.receiveDownload_opened (m.wired [b] m.net.output) dest p metadata _ f₁ os₁ existing _ _
      htotal hstart rfl hp hroom.found hopen _ _ ?_
    rw [hzero]
    obtain ⟨hready, hc⟩ := hopened.ready_cleared (fun _ => Os.old_of_found hroom.found) h.locate h.dest
      h.free h.ne
    have hverify := @C.verifyDownload_decides ⟨os₁, m.inFlight, ⟨[b], m.net.output⟩⟩ dest p lp ld f₁
      (metadata.drop 16) hready (hc.trans hcd)
    show (C.verifyDownload dest p (metadata.drop 16)).wp Net.wire.env _ _ _
    exact Proc.wp_mono hverify (fun _ _ h => h.imp_right .inr) fun _ _ h => h
  · have hwhole := @C.receiveDownload_whole (m.wired [b] m.net.output) dest p metadata existing _ _ lp
      htotal hstart hp hroom
    refine Proc.wp_mono hwhole (fun _ m' h => .inr (.inl ?_)) fun _ _ h => h
    rw [h]
    refine List.drop_of_length_le (Nat.one_le_iff_ne_zero.mpr fun h0 => hzero ?_)
    exact UInt64.toNat_inj.mp h0

/-! ### A disk with one partial -/

/-- The partial of a digest for `a`, with one byte. -/
def oneByte (digest : Bytes) : Os := lone (partialBase (ascii "a") digest) [7]

theorem partialName_one (digest : Bytes) :
    partialName (ascii "a") digest = partialBase (ascii "a") digest :=
  partialName_plain (by decide) _

theorem C.partialName_one {digest : Bytes} (hd : digest.length = HASH_SIZE) :
    C.partialName (ascii "a") digest = some (partialBase (ascii "a") digest) := by
  have hsplit : C.splitPath (ascii "a") C.DIR_MAX (C.MAX_NAME + 1) = some ([DOT], ascii "a") := by decide
  have hslash : SLASH ∉ ascii "a" := by decide
  unfold C.partialName
  rw [hsplit]
  simp only
  rw [if_pos hslash, C.sha256Hex_token hd]
  apply if_neg
  show ¬ (partialBase (ascii "a") digest).length ≥ C.PATH_MAX
  rw [partialBase_length _ hd]
  decide

theorem oneByte_ready (digest : Bytes) : (oneByte digest).Ready (partialBase (ascii "a") digest)
    (ascii "a") [partialBase (ascii "a") digest] [ascii "a"] 0 := by
  have hplain : Plain (partialBase (ascii "a") digest) := partialBase_plain (by decide)
  have ha : Plain (ascii "a") := ⟨by decide, by decide, by decide, by decide⟩
  have hcwd : (oneByte digest).cwd = [] := Os.extend_cwd _ _ _
  have hfree : Os.empty.slot [partialBase (ascii "a") digest] = none := by
    rw [Os.slot_of_apart _ (by simp [Os.empty])]
    rfl
  have hslot : ∀ l, (oneByte digest).slot l = if l = [partialBase (ascii "a") digest] then
      some (.file 0) else Os.empty.slot l := by
    intro l
    unfold oneByte lone
    rw [Os.extend_slot, Os.createAt_slot hfree]
    rfl
  refine ⟨?_, ?_, ?_, ?_⟩
  · rw [Os.locate_plain _ hplain, hcwd]
    rfl
  · rw [hslot, if_pos rfl]
  · rw [Os.locate_plain _ ha, hcwd]
    rfl
  · rw [hslot, if_neg]
    · rw [Os.slot_of_apart _ (by simp [Os.empty])]
      rfl
    · intro h
      exact partialBase_ne _ _ (List.cons.inj h).1.symm

theorem oneByte_data (digest : Bytes) : (oneByte digest).store.data 0 = [7] := by
  unfold oneByte lone
  have hnew : (Os.empty.createAt [partialBase (ascii "a") digest]).store.data 0 = [] := by
    rw [Os.createAt_data]
    exact if_pos rfl
  rw [Os.extend_data (by rw [hnew]; decide), hnew]
  rfl

theorem oneByte_creatable (digest n : Bytes) (h : n.length ≤ 255) :
    (oneByte digest).creatable [n] = true := by
  unfold oneByte lone
  rw [Os.Ready.creatable_extend]
  exact decide_eq_true h

theorem oneByte_room (digest : Bytes) : ((oneByte digest).store.data 0).length + 1 < OFF_MAX := by
  rw [oneByte_data]
  decide

theorem meta_hash_length (hmeta : metadata.length = GET_META) :
    (metadata.drop 16).length = HASH_SIZE := by
  rw [List.length_drop, hmeta]
  rfl

/-- With that disk Python goes on from every reply. -/
theorem not_checksReplies (hn : payloadLen < 2 ^ 64) (hmeta : metadata.length = GET_META)
    (hnot : ¬ Fits payloadLen metadata) : ¬ ChecksReplies payloadLen metadata := by
  intro h
  have hd := meta_hash_length hmeta
  generalize hdigest : metadata.drop 16 = digest at hd
  have hready := oneByte_ready digest
  have hcp := oneByte_creatable digest (partialBase (ascii "a") digest)
    (by rw [partialBase_length _ hd]; decide)
  have hcd := oneByte_creatable digest (ascii "a") (by decide)
  have hchecks := h (oneByte digest) ∅ [] [0] (ascii "a") (some (partialBase (ascii "a") digest))
  obtain ⟨r, m', hrun⟩ := Proc.exists_runs Net.wire_live (receiveGetReply (ascii "a")
    (some (partialBase (ascii "a") digest)))
    ⟨oneByte digest, ∅, ⟨okHeader payloadLen ++ metadata ++ [0], []⟩⟩
  obtain ⟨hfail, rfl⟩ := hchecks.stops hnot r m' hrun
  rcases Proc.wp_runs (receiveGetReply_goes_on hn hmeta rfl (by rw [hdigest, partialName_one]) hready
    (fun q hq => by cases hq; exact hready.locate) hcp hcd (oneByte_room digest)) hrun with
    ⟨a, rfl, -⟩ | ⟨e, rfl, hin | hgone⟩
  · exact hfail rfl
  · cases hin
  · cases hready.at_partial.symm.trans hgone

/-- And so does the C client. -/
theorem C.not_checksReplies (hmeta : metadata.length = GET_META) (hnot : ¬ Fits payloadLen metadata) :
    ¬ C.ChecksReplies payloadLen metadata := by
  intro h
  have hd := meta_hash_length hmeta
  generalize hdigest : metadata.drop 16 = digest at hd
  have hready := oneByte_ready digest
  have hcp := oneByte_creatable digest (partialBase (ascii "a") digest)
    (by rw [partialBase_length _ hd]; decide)
  have hcd := oneByte_creatable digest (ascii "a") (by decide)
  have hchecks := h (oneByte digest) ∅ [] [0] (ascii "a")
    (.found (partialBase (ascii "a") digest) 1 (digest.take TOKEN_SIZE))
  obtain ⟨r, m', hrun⟩ := Proc.exists_runs Net.wire_live (C.receiveGetReply (ascii "a")
    (.found (partialBase (ascii "a") digest) 1 (digest.take TOKEN_SIZE)))
    ⟨oneByte digest, ∅, ⟨okHeader payloadLen ++ metadata ++ [0], []⟩⟩
  obtain ⟨hfail, rfl⟩ := hchecks.stops hnot r m' hrun
  rcases Proc.wp_runs (C.receiveGetReply_goes_on hmeta rfl (by rw [hdigest, C.partialName_one hd]) hready
    (fun q hq => by cases hq; exact hready.locate) hcp hcd (oneByte_room digest)) hrun with
    ⟨a, rfl, rfl | hin | hgone⟩ | ⟨e, -⟩
  · exact hfail rfl
  · cases hin
  · cases hready.at_partial.symm.trans hgone
  · exact e.elim

/-- **The lengths of a reply are checked exactly when they fit**, that is, they are not checked: from
any reply whose lengths do not fit, both clients go on to the body. -/
theorem get_lengths_checked_iff (hn : payloadLen < 2 ^ 64) (hmeta : metadata.length = GET_META) :
    (ChecksReplies payloadLen metadata ↔ Fits payloadLen metadata) ∧
    (C.ChecksReplies payloadLen metadata ↔ Fits payloadLen metadata) := by
  refine ⟨⟨fun h => ?_, fun hfits os fl sent rest dest existing => ?_⟩,
    ⟨fun h => ?_, fun hfits os fl sent rest dest existing => ?_⟩⟩
  · by_contra hnot
    exact not_checksReplies hn hmeta hnot h
  · exact receiveGetReply_checks hn hmeta rfl hfits
  · by_contra hnot
    exact C.not_checksReplies hmeta hnot h
  · exact C.receiveGetReply_checks hmeta rfl hfits

/-- The metadata of a file of three bytes that is sent from its second byte on. -/
def twoBytesMore : Bytes := toBE 8 3 ++ toBE 8 1 ++ List.replicate HASH_SIZE 0

/-- With it, a reply that announces two bytes is checked. -/
theorem get_lengths_checked_twoBytesMore :
    ChecksReplies (GET_META + 2) twoBytesMore ∧ C.ChecksReplies (GET_META + 2) twoBytesMore := by
  have hfits : Fits (GET_META + 2) twoBytesMore := by decide
  have h := @get_lengths_checked_iff twoBytesMore (GET_META + 2) (by decide) (by decide)
  exact ⟨h.1.mpr hfits, h.2.mpr hfits⟩

/-- The server says that it goes on after the first byte of an empty file. In C the difference of the
two lengths is 2^64 - 1. -/
def beyondTheEnd : Bytes := toBE 8 0 ++ toBE 8 1 ++ List.replicate HASH_SIZE 0

theorem get_lengths_unchecked :
    beyondTheEnd.length = GET_META ∧ ¬ Fits GET_META beyondTheEnd ∧
    ¬ ChecksReplies GET_META beyondTheEnd ∧ ¬ C.ChecksReplies GET_META beyondTheEnd ∧
    (C.getU64 beyondTheEnd - C.getU64 (beyondTheEnd.drop 8)).toNat = 2 ^ 64 - 1 := by
  have hlen : beyondTheEnd.length = GET_META := by decide
  have hnot : ¬ Fits GET_META beyondTheEnd := by decide
  exact ⟨hlen, hnot, not_checksReplies (by decide) hlen hnot, C.not_checksReplies hlen hnot,
    by decide +kernel⟩

end Lengths

/-! ## The stream ends inside the body -/

section Cut

variable {m : Machine Wire} {dest p metadata w : Bytes} {payloadLen : Nat} {lp : Loc}

theorem Os.keptAt_clearedFor (os : Os) (start : Nat) (old : Option Loc) (lp : Loc) :
    (os.clearedFor start old).keptAt start lp = os.keptAt start lp := by
  unfold Os.keptAt Os.clearedFor
  split <;> rfl

/-- What an observer reads under the name of the open partial. -/
theorem Os.OpenedAs.content_extend {os os₁ : Os} {f : Nat} {g : Bytes} (h : os.OpenedAs os₁ lp f g)
    (hp : os.locate p = some lp) (hsmall : g.length + w.length < OFF_MAX) :
    (os₁.extend f w).content p = some (g ++ w) := by
  have hat : (os₁.extend f w).at? p = some (.file f) := by
    refine Os.at?_eq_some.mpr ⟨lp, ?_, ?_⟩
    · rw [Os.locate_extend, h.locate, hp]
    · rw [Os.extend_slot, h.slot]
  unfold Os.content
  rw [hat]
  show some ((os₁.extend f w).store.data f) = _
  rw [Os.extend_data (by rw [h.data]; exact hsmall), h.data]

/-- Python keeps the bytes that came. -/
theorem receiveDownload_cut {existing : Option Bytes} {total start : Nat}
    (hsize : ofBE (metadata.take 8) = total) (hstart : ofBE ((metadata.drop 8).take 8) = start)
    (hp : partialName dest (metadata.drop 16) = p) (hcut : m.net.input.length < total - start)
    (h : m.os.TakesIn existing p start (total - start) m.net.input lp) :
    (receiveDownload dest existing metadata).wp Net.wire.env (fun _ _ => False)
      (fun _ m' => m'.os.content p = some (m.os.keptAt start lp ++ m.net.input)) m := by
  have hroom := h.room
  rw [Nat.min_eq_right hcut.le] at hroom
  obtain ⟨os₁, f, hopen, hopened⟩ := h.opened
  apply receiveDownload_opened hsize hstart rfl hp (fun _ => h.found) hopen
  have hy := @saveBody_cut ⟨os₁, m.inFlight, m.net⟩ f _ (total - start) le_rfl hcut
    (by rw [hopened.data]; exact hroom)
  refine hy.wp (fun _ ha => by cases ha) fun _ _ => ?_
  rw [← Os.keptAt_clearedFor m.os start (existing.bind m.os.locate)]
  exact hopened.content_extend
    (by rw [Os.locate_clearedFor fun _ => Os.old_of_found h.found, h.locate]) hroom

/-- The C client keeps the blocks that came in full. -/
theorem C.receiveDownload_cut {existing : C.Found} {total start : UInt64}
    (hsize : C.getU64 metadata = total) (hstart : C.getU64 (metadata.drop 8) = start)
    (hp : C.partialName dest (metadata.drop 16) = some p)
    (hcut : m.net.input.length < (total - start).toNat)
    (h : m.os.TakesIn existing.path? p start.toNat (total - start).toNat m.net.input lp) :
    (C.receiveDownload dest existing metadata).wp Net.wire.env
      (fun ok m' => ok = false ∧ m'.os.content p = some (m.os.keptAt start.toNat lp ++
        m.net.input.take (C.BLOCK * (m.net.input.length / C.BLOCK)))) (fun _ _ => False) m := by
  have hroom := h.room
  rw [Nat.min_eq_right hcut.le] at hroom
  obtain ⟨os₁, f, hopen, hopened⟩ := h.opened
  apply C.receiveDownload_opened hsize hstart rfl hp h.found hopen
  have hy := @C.saveBody_cut ⟨os₁, m.inFlight, m.net⟩ f _ (total - start) le_rfl hcut
    (by rw [hopened.data]; exact hroom)
  refine hy.wp (fun saved hs => ?_) fun e => e.elim
  cases hs
  rw [if_pos rfl]
  refine ⟨rfl, ?_⟩
  rw [← Os.keptAt_clearedFor m.os start.toNat (existing.path?.bind m.os.locate)]
  exact hopened.content_extend
    (by rw [Os.locate_clearedFor fun _ => Os.old_of_found h.found, h.locate])
    ((Nat.add_le_add_left (List.length_take_le' _ _) _).trans_lt hroom)

/-- The front of whole blocks is everything exactly when the length is a multiple of a block. -/
theorem take_blocks_eq_iff {w : Bytes} :
    w.take (C.BLOCK * (w.length / C.BLOCK)) = w ↔ C.BLOCK ∣ w.length := by
  rw [List.take_eq_self_iff, Nat.dvd_iff_mod_eq_zero]
  have := Nat.div_add_mod w.length C.BLOCK
  omega

/-- **Every byte that arrives survives**: when the stream ends after the bytes `w` of the body, every
run of Python leaves them in the partial after the kept bytes, and fails. -/
def KeepsAll (os : Os) (fl : Finset Bytes) (sent : Bytes) (payloadLen : Nat) (metadata w dest : Bytes)
    (existing : Option Bytes) (lp : Loc) : Prop :=
  Proc.Ensures Net.wire.env (receiveGetReply dest existing)
    ⟨os, fl, ⟨okHeader payloadLen ++ metadata ++ w, sent⟩⟩ fun r m' => r ≠ .ok () ∧
      m'.os.content (partialName dest (metadata.drop 16)) = some (os.keptAt (metaStart metadata) lp ++ w)

/-- The same for the C client, whose partial is at `p`. -/
def C.KeepsAll (os : Os) (fl : Finset Bytes) (sent : Bytes) (payloadLen : Nat) (metadata w dest : Bytes)
    (existing : C.Found) (p : Bytes) (lp : Loc) : Prop :=
  Proc.Ensures Net.wire.env (C.receiveGetReply dest existing)
    ⟨os, fl, ⟨okHeader payloadLen ++ metadata ++ w, sent⟩⟩ fun r m' => r ≠ .ok true ∧
      m'.os.content p = some (os.keptAt (metaStart metadata) lp ++ w)

/-- What the C client does keep. -/
theorem C.receiveGetReply_cut {existing : C.Found} (hmeta : metadata.length = GET_META)
    (hfits : Fits payloadLen metadata) (hin : m.net.input = okHeader payloadLen ++ metadata ++ w)
    (hcut : GET_META + w.length < payloadLen) (hp : C.partialName dest (metadata.drop 16) = some p)
    (h : m.os.TakesIn existing.path? p (metaStart metadata) (payloadLen - GET_META) w lp) :
    (C.receiveGetReply dest existing).wp Net.wire.env (fun ok m' => ok = false ∧ m'.os.content p =
      some (m.os.keptAt (metaStart metadata) lp ++ w.take (C.BLOCK * (w.length / C.BLOCK))))
      (fun _ _ => False) m := by
  obtain ⟨htotal, hstart⟩ := C.getU64_meta hmeta
  have hlen : payloadLen - GET_META = (C.getU64 metadata - C.getU64 (metadata.drop 8)).toNat := by
    rw [UInt64.toNat_sub_of_le _ _ (UInt64.le_iff_toNat_le.mpr (by rw [htotal, hstart]; exact hfits.1)),
      htotal, hstart]
    have := hfits.2
    omega
  rw [hlen, ← hstart] at h
  rw [← hstart]
  exact C.receiveGetReply_front hmeta hin (@C.receiveDownload_cut (m.wired w m.net.output) dest p
    metadata lp existing _ _ rfl rfl hp (by show w.length < _; omega) h)

section

variable {os : Os} {fl : Finset Bytes} {sent : Bytes}

theorem keepsAll {existing : Option Bytes} (hn : payloadLen < 2 ^ 64)
    (hmeta : metadata.length = GET_META) (hfits : Fits payloadLen metadata)
    (hcut : GET_META + w.length < payloadLen)
    (h : os.TakesIn existing (partialName dest (metadata.drop 16)) (metaStart metadata)
      (payloadLen - GET_META) w lp) : KeepsAll os fl sent payloadLen metadata w dest existing lp := by
  have hlen : payloadLen - GET_META = metaTotal metadata - metaStart metadata := by
    have := hfits.2
    omega
  rw [hlen] at h
  have hkept := @receiveDownload_cut ⟨os, fl, ⟨w, sent⟩⟩ dest _ metadata lp existing _ _ rfl rfl rfl
    (show w.length < metaTotal metadata - metaStart metadata by omega) h
  have hwp := @receiveGetReply_front ⟨os, fl, ⟨okHeader payloadLen ++ metadata ++ w, sent⟩⟩ dest existing
    metadata w payloadLen hmeta hn rfl _ _ hkept
  refine Proc.ensures_of_wp Net.wire_live (Proc.wp_mono hwp ?_ ?_)
  · exact fun _ _ h => h.elim
  · exact fun e m' h => ⟨nofun, h⟩

theorem C.keepsAll_iff {existing : C.Found} (hmeta : metadata.length = GET_META)
    (hfits : Fits payloadLen metadata) (hcut : GET_META + w.length < payloadLen)
    (hp : C.partialName dest (metadata.drop 16) = some p)
    (h : os.TakesIn existing.path? p (metaStart metadata) (payloadLen - GET_META) w lp) :
    C.KeepsAll os fl sent payloadLen metadata w dest existing p lp ↔ C.BLOCK ∣ w.length := by
  have hwp := @C.receiveGetReply_cut ⟨os, fl, ⟨okHeader payloadLen ++ metadata ++ w, sent⟩⟩ dest p
    metadata w payloadLen lp existing hmeta hfits rfl hcut hp h
  rw [← take_blocks_eq_iff]
  constructor
  · rintro ⟨⟨r, m', hrun⟩, hall⟩
    obtain ⟨-, hcontent⟩ := hall r m' hrun
    rcases Proc.wp_runs hwp hrun with ⟨ok, -, -, hkept⟩ | ⟨e, -⟩
    · rw [hcontent] at hkept
      exact (List.append_cancel_left (Option.some.inj hkept)).symm
    · exact e.elim
  · intro hw
    rw [hw] at hwp
    refine Proc.ensures_of_wp Net.wire_live (Proc.wp_mono hwp ?_ fun _ _ h => h.elim)
    rintro ok m' ⟨rfl, h⟩
    exact ⟨nofun, h⟩

/-- **Python keeps every byte, the C client exactly when they are whole blocks.** -/
theorem cut_bytes_kept (hn : payloadLen < 2 ^ 64) (hmeta : metadata.length = GET_META)
    (hfits : Fits payloadLen metadata) (hcut : GET_META + w.length < payloadLen) :
    (∀ existing, os.TakesIn existing (partialName dest (metadata.drop 16)) (metaStart metadata)
      (payloadLen - GET_META) w lp → KeepsAll os fl sent payloadLen metadata w dest existing lp) ∧
    ∀ existing p, C.partialName dest (metadata.drop 16) = some p →
      os.TakesIn existing.path? p (metaStart metadata) (payloadLen - GET_META) w lp →
      (C.KeepsAll os fl sent payloadLen metadata w dest existing p lp ↔ C.BLOCK ∣ w.length) :=
  ⟨fun _ h => keepsAll hn hmeta hfits hcut h, fun _ _ hp h => C.keepsAll_iff hmeta hfits hcut hp h⟩

end

end Cut

/-! ### A file of two bytes -/

/-- The metadata of a reply with a body of two bytes. -/
def twoByteMeta : Bytes := toBE 8 2 ++ toBE 8 0 ++ List.replicate HASH_SIZE 0

/-- The partial of such a download to `a`. -/
def twoBytePartial : Bytes := partialBase (ascii "a") (List.replicate HASH_SIZE 0)

theorem twoByteMeta_looks : twoByteMeta.length = GET_META ∧ Fits (GET_META + 2) twoByteMeta ∧
    partialName (ascii "a") (twoByteMeta.drop 16) = twoBytePartial ∧
    C.partialName (ascii "a") (twoByteMeta.drop 16) = some twoBytePartial ∧
    Os.empty.locate twoBytePartial = some [twoBytePartial] ∧
    Os.empty.slot [twoBytePartial] = none ∧ Os.empty.creatable [twoBytePartial] = true := by
  decide +kernel

/-- An empty directory takes in what comes of it. -/
theorem empty_takesIn {w : Bytes} (hw : w.length < 2) :
    Os.empty.TakesIn none twoBytePartial (metaStart twoByteMeta) (GET_META + 2 - GET_META) w
      [twoBytePartial] := by
  obtain ⟨-, -, -, -, hloc, hslot, hc⟩ := twoByteMeta_looks
  have hstart : metaStart twoByteMeta = 0 := by decide
  rw [hstart]
  refine ⟨nofun, hloc, .inl ⟨hslot, hc⟩, ?_⟩
  show 0 + min 2 w.length < OFF_MAX
  have : OFF_MAX = 2 ^ 63 := rfl
  omega

/-- The metadata of a reply that goes on after one byte, with a body one byte longer than a block. -/
def longMeta : Bytes := toBE 8 (C.BLOCK + 2) ++ toBE 8 1 ++ List.replicate HASH_SIZE 0

theorem longMeta_looks : longMeta.length = GET_META ∧ Fits (GET_META + (C.BLOCK + 1)) longMeta ∧
    longMeta.drop 16 = List.replicate HASH_SIZE 0 := by
  decide +kernel

/-- When a block of it comes, both clients keep the block, after the byte that the partial held. -/
theorem cut_bytes_kept_block :
    KeepsAll (oneByte (List.replicate HASH_SIZE 0)) ∅ [] (GET_META + (C.BLOCK + 1)) longMeta
      (List.replicate C.BLOCK 5) (ascii "a") (some twoBytePartial) [twoBytePartial] ∧
    C.KeepsAll (oneByte (List.replicate HASH_SIZE 0)) ∅ [] (GET_META + (C.BLOCK + 1)) longMeta
      (List.replicate C.BLOCK 5) (ascii "a") (.found twoBytePartial 1 (List.replicate TOKEN_SIZE 0))
      twoBytePartial [twoBytePartial] := by
  obtain ⟨hlen, hfits, hdigest⟩ := longMeta_looks
  have hw : (List.replicate C.BLOCK 5 : Bytes).length = C.BLOCK := List.length_replicate
  have hready := oneByte_ready (List.replicate HASH_SIZE 0)
  have hcp := oneByte_creatable (List.replicate HASH_SIZE 0) twoBytePartial (by decide)
  have hroom : ((oneByte (List.replicate HASH_SIZE 0)).store.data 0).length +
      (List.replicate C.BLOCK 5 : Bytes).length < OFF_MAX := by
    rw [oneByte_data, hw]
    decide
  have hpC : C.partialName (ascii "a") (longMeta.drop 16) = some twoBytePartial := by
    rw [hdigest]
    exact C.partialName_one List.length_replicate
  have h := @cut_bytes_kept (ascii "a") longMeta (List.replicate C.BLOCK 5) (GET_META + (C.BLOCK + 1))
    [twoBytePartial] (oneByte (List.replicate HASH_SIZE 0)) ∅ [] (by decide) hlen hfits (by rw [hw]; decide)
  refine ⟨h.1 (some twoBytePartial) ?_, (h.2 (.found twoBytePartial 1 _) twoBytePartial hpC ?_).mpr ?_⟩
  · rw [hdigest, partialName_one]
    exact hready.takesIn (fun q hq => by cases hq; exact hready.locate) hcp hroom _ _
  · exact hready.takesIn (fun q hq => by cases hq; exact hready.locate) hcp hroom _ _
  · rw [hw]

/-- When one byte comes, Python keeps it and the C client does not. -/
theorem cut_byte_lost :
    Fits (GET_META + 2) twoByteMeta ∧
    KeepsAll Os.empty ∅ [] (GET_META + 2) twoByteMeta [5] (ascii "a") none [twoBytePartial] ∧
    ¬ C.KeepsAll Os.empty ∅ [] (GET_META + 2) twoByteMeta [5] (ascii "a") .absent twoBytePartial
      [twoBytePartial] := by
  obtain ⟨hlen, hfits, hp, hpC, -⟩ := twoByteMeta_looks
  have htakes := @empty_takesIn [5] (by decide)
  refine ⟨hfits, keepsAll (by decide) hlen hfits (by decide) (by rw [hp]; exact htakes), fun h => ?_⟩
  exact absurd ((C.keepsAll_iff hlen hfits (by decide) hpC htakes).mp h) (by decide)

end Retriever
