/-
# Retriever.ExactIo — exact reads and writes in C

However the calls of `recv` and `send` are cut up, interrupted or ended, `rtrv_read_exact` returns 0 only
with the next `n` bytes of the stream in its buffer, and `rtrv_write_all` only after its `n` bytes have
gone out, each once and in order. A frame that is written is therefore read again.
-/
import Retriever.CClient.Socket
import Retriever.Codec

namespace Retriever.C.Sock

open Proc (Runs Allowed)

/-! ## Reading -/

/-- How `rtrv_read_exact` ends: with `n` bytes of the stream, after a failure, at the end of a stream that
is too short, or not yet, and then all calls but fewer than `n` have been interrupted. -/
inductive ReadEnds (rounds n : Nat) (s : Link) : Except Unit (Option Bytes) → Link → Prop
  | whole {s' : Link} : n ≤ s.input.length → s'.input = s.input.drop n → s'.output = s.output →
      s'.failures = s.failures → s.signals ≤ s'.signals →
      ReadEnds rounds n s (.ok (some (s.input.take n))) s'
  | failed {s' : Link} {k : Nat} : k < n → s'.input = s.input.drop k → s'.output = s.output →
      s'.failures = s.failures + 1 → ReadEnds rounds n s (.ok none) s'
  | closed {s' : Link} : s.input.length < n → s'.input = [] → s'.output = s.output →
      s'.failures = s.failures → s.signals ≤ s'.signals → ReadEnds rounds n s (.ok none) s'
  | pending {s' : Link} {k : Nat} : k < n → s'.input = s.input.drop k → s'.output = s.output →
      rounds ≤ k + (s'.signals - s.signals) → ReadEnds rounds n s (.error ()) s'

section Store

variable {buf bs : Bytes} {off : Nat}

theorem store_length (h : off + bs.length ≤ buf.length) : (store buf off bs).length = buf.length := by
  simp only [store, List.length_append, List.length_take, List.length_drop]
  omega

theorem store_take (h : off ≤ buf.length) :
    (store buf off bs).take (off + bs.length) = buf.take off ++ bs := by
  unfold store
  rw [List.take_left' (by rw [List.length_append, List.length_take_of_le h])]

end Store

/-- What holds in every round: `got` bytes of the stream are in the buffer, which keeps its size. -/
structure Filled (n rounds left got : Nat) (buf : Bytes) (s₀ s : Link) : Prop where
  size : buf.length = n
  got_le : got ≤ n
  enough : got ≤ s₀.input.length
  front : buf.take got = s₀.input.take got
  input : s.input = s₀.input.drop got
  output : s.output = s₀.output
  failures : s.failures = s₀.failures
  signals : s₀.signals ≤ s.signals
  spent : rounds ≤ left + got + (s.signals - s₀.signals)

theorem Filled.whole {n rounds left got : Nat} {buf : Bytes} {s₀ s : Link}
    (h : Filled n rounds left got buf s₀ s) (hge : ¬ got < n) :
    ReadEnds rounds n s₀ (.ok (some buf)) s := by
  obtain rfl : got = n := Nat.le_antisymm h.got_le (Nat.le_of_not_lt hge)
  have hbuf : buf = s₀.input.take got := by
    rw [← h.front, List.take_of_length_le (Nat.le_of_eq h.size)]
  rw [hbuf]
  exact .whole h.enough h.input h.output h.failures h.signals

theorem Filled.interrupted {n rounds left got : Nat} {buf : Bytes} {s₀ s : Link}
    (h : Filled n rounds (left + 1) got buf s₀ s) :
    Filled n rounds left got buf s₀ { s with signals := s.signals + 1 } := by
  have hspent := h.spent
  have hsignals := h.signals
  refine { h with signals := Nat.le_succ_of_le hsignals, spent := ?_ }
  show rounds ≤ left + got + (s.signals + 1 - s₀.signals)
  omega

/-- A piece of the stream has been stored. -/
theorem Filled.stored {n rounds left got : Nat} {buf bs : Bytes} {s₀ s s' : Link}
    (h : Filled n rounds (left + 1) got buf s₀ s) (hpos : 0 < bs.length) (hle : got + bs.length ≤ n)
    (hin : s.input = bs ++ s'.input) (hs' : s' = { s with input := s'.input }) :
    Filled n rounds left (got + bs.length) (store buf got bs) s₀ s' := by
  have hsplit : s₀.input.drop got = bs ++ s'.input := h.input.symm.trans hin
  have htake : (s₀.input.drop got).take bs.length = bs := by rw [hsplit, List.take_left]
  have hlen : bs.length ≤ s₀.input.length - got := by
    rw [← List.length_drop, hsplit, List.length_append]
    exact Nat.le_add_right _ _
  have henough := h.enough
  have hspent := h.spent
  refine ⟨?_, hle, by omega, ?_, ?_, ?_, ?_, ?_, ?_⟩
  · rw [store_length (by rw [h.size]; exact hle), h.size]
  · rw [store_take (by rw [h.size]; exact h.got_le), h.front, List.take_add, htake]
  · rw [← List.drop_drop, hsplit, List.drop_left]
  · rw [hs']
    exact h.output
  · rw [hs']
    exact h.failures
  · rw [hs']
    exact h.signals
  · rw [hs']
    show rounds ≤ left + (got + bs.length) + (s.signals - s₀.signals)
    omega

theorem readExactLoop_ends {n rounds left got : Nat} {buf : Bytes} {s₀ s : Link}
    (h : Filled n rounds left got buf s₀ s) :
    (readExactLoop n left got buf).wp Link.env (fun r => ReadEnds rounds n s₀ (.ok r))
      (fun e => ReadEnds rounds n s₀ (.error e)) s := by
  induction left generalizing got buf s with
  | zero =>
    unfold readExactLoop
    split
    · next hlt =>
      have hspent := h.spent
      exact .pending hlt h.input h.output (by omega)
    · next hge => exact h.whole hge
  | succ left ih =>
    unfold readExactLoop
    split
    · next hlt =>
      refine Proc.wp_bind.mpr (Proc.wp_perform.mpr ⟨Nat.le_of_eq (by omega), fun a s' ha => ?_⟩)
      cases a with
      | eintr =>
        obtain rfl : s' = _ := ha
        exact ih h.interrupted
      | failed =>
        obtain rfl : s' = _ := ha
        exact .failed hlt h.input h.output (by rw [← h.failures])
      | closed =>
        obtain ⟨hnil, rfl⟩ := ha
        have hlen : s₀.input.length ≤ got := by
          rw [h.input] at hnil
          exact List.drop_eq_nil_iff.mp hnil
        exact .closed (by omega) hnil h.output h.failures h.signals
      | got bs =>
        obtain ⟨hpos, hle, hin, hs'⟩ := ha
        exact ih (h.stored hpos (by omega) hin hs')
    · next hge => exact h.whole hge

theorem readExact_ends {n : Nat} {buf : Bytes} (hbuf : buf.length = n) (rounds : Nat) (s : Link) :
    (readExact rounds n buf).wp Link.env (fun r => ReadEnds rounds n s (.ok r))
      (fun e => ReadEnds rounds n s (.error e)) s :=
  readExactLoop_ends ⟨hbuf, Nat.zero_le _, Nat.zero_le _, rfl, rfl, rfl, rfl, le_rfl, by omega⟩

/-! ## Writing -/

/-- How `rtrv_write_all` ends: with `n` bytes sent, after a failure, or not yet, and then all calls but
fewer than `n` have been interrupted. -/
inductive WriteEnds (rounds : Nat) (p : Bytes) (n : Nat) (s : Link) : Except Unit Bool → Link → Prop
  | whole {s' : Link} : s'.output = s.output ++ p.take n → s'.input = s.input →
      s'.failures = s.failures → s.signals ≤ s'.signals → WriteEnds rounds p n s (.ok true) s'
  | failed {s' : Link} {k : Nat} : k < n → s'.output = s.output ++ p.take k → s'.input = s.input →
      s'.failures = s.failures + 1 → WriteEnds rounds p n s (.ok false) s'
  | pending {s' : Link} {k : Nat} : k < n → s'.output = s.output ++ p.take k → s'.input = s.input →
      rounds ≤ k + (s'.signals - s.signals) → WriteEnds rounds p n s (.error ()) s'

/-- What holds in every round: the first `sent` bytes have gone out. -/
structure Written (p : Bytes) (n rounds left sent : Nat) (s₀ s : Link) : Prop where
  sent_le : sent ≤ n
  output : s.output = s₀.output ++ p.take sent
  input : s.input = s₀.input
  failures : s.failures = s₀.failures
  signals : s₀.signals ≤ s.signals
  spent : rounds ≤ left + sent + (s.signals - s₀.signals)

theorem Written.whole {p : Bytes} {n rounds left sent : Nat} {s₀ s : Link}
    (h : Written p n rounds left sent s₀ s) (hge : ¬ sent < n) : WriteEnds rounds p n s₀ (.ok true) s := by
  obtain rfl : sent = n := Nat.le_antisymm h.sent_le (Nat.le_of_not_lt hge)
  exact .whole h.output h.input h.failures h.signals

theorem writeAllLoop_ends {p : Bytes} {n rounds left sent : Nat} {s₀ s : Link} (hn : n ≤ p.length)
    (h : Written p n rounds left sent s₀ s) :
    (writeAllLoop p n left sent).wp Link.env (fun r => WriteEnds rounds p n s₀ (.ok r))
      (fun e => WriteEnds rounds p n s₀ (.error e)) s := by
  induction left generalizing sent s with
  | zero =>
    unfold writeAllLoop
    split
    · next hlt =>
      have hspent := h.spent
      exact .pending hlt h.output h.input (by omega)
    · next hge => exact h.whole hge
  | succ left ih =>
    have hspent := h.spent
    have hsignals := h.signals
    unfold writeAllLoop
    split
    · next hlt =>
      refine Proc.wp_bind.mpr (Proc.wp_perform.mpr ⟨?_, fun a s' ha => ?_⟩)
      · show sent + (n - sent) ≤ p.length
        omega
      cases a with
      | eintr =>
        obtain rfl : s' = _ := ha
        refine ih { h with signals := Nat.le_succ_of_le hsignals, spent := ?_ }
        show rounds ≤ left + sent + (s.signals + 1 - s₀.signals)
        omega
      | failed =>
        obtain rfl : s' = _ := ha
        exact .failed hlt h.output h.input (by rw [← h.failures])
      | took k =>
        obtain ⟨hpos, hle, rfl⟩ := ha
        refine ih { h with sent_le := by omega, output := ?_, spent := ?_ }
        · show s.output ++ (p.drop sent).take k = _
          rw [h.output, List.append_assoc, List.take_add]
        · show rounds ≤ left + (sent + k) + (s.signals - s₀.signals)
          omega
    · next hge => exact h.whole hge

theorem writeAll_ends {p : Bytes} {n : Nat} (hn : n ≤ p.length) (rounds : Nat) (s : Link) :
    (writeAll rounds p n).wp Link.env (fun r => WriteEnds rounds p n s (.ok r))
      (fun e => WriteEnds rounds p n s (.error e)) s :=
  writeAllLoop_ends hn ⟨Nat.zero_le _, (List.append_nil _).symm, rfl, rfl, le_rfl, by omega⟩

/-! ## The model of the other modules -/

/-- Call by call, `p` does what `q` does with calls that are neither interrupted nor cut up: it gives the
result of `q`, or `bad` after a failure, or it has not returned after so many calls that all but `bound`
of them have been interrupted. -/
def Refines {α : Type} (rounds bound : Nat) (bad : α) (p : Prog α) (q : CProg α) : Prop :=
  ∀ s : Link, p.wp Link.env
    (fun a s' => s'.failures = s.failures ∧ s.signals ≤ s'.signals ∧
        (∀ m : Machine Wire, Proc.Yields Net.wire.env q (m.wired s.input s.output) (.ok a)
          (m.wired s'.input s'.output)) ∨
      s'.failures = s.failures + 1 ∧ a = bad)
    (fun _ s' => rounds < bound + (s'.signals - s.signals)) s

section Refines

variable {α β : Type} {rounds bound : Nat} {bad : α} {bad' : β}

theorem Refines.pure (a : α) : Refines rounds bound bad (pure a) (pure a) := by
  intro s
  exact .inl ⟨rfl, le_rfl, fun m => Proc.yields_done a _⟩

/-- One after the other, when the second part does nothing after a failure. -/
theorem Refines.bind {p : Prog α} {q : CProg α} {f : α → Prog β} {g : α → CProg β}
    (hp : Refines rounds bound bad p q) (hbad : f bad = Pure.pure bad')
    (hf : ∀ a, Refines rounds bound bad' (f a) (g a)) :
    Refines rounds bound bad' (p >>= f) (q >>= g) := by
  intro s
  refine Proc.wp_bind.mpr (Proc.wp_mono (hp s) ?_ fun _ _ h => h)
  rintro a s₁ (⟨hfail, hsig, hy⟩ | ⟨hfail, rfl⟩)
  · refine Proc.wp_mono (hf a s₁) ?_ fun _ s' h => ?_
    · rintro b s' (⟨hfail', hsig', hy'⟩ | ⟨hfail', hb⟩)
      · exact .inl ⟨hfail'.trans hfail, hsig.trans hsig', fun m => (hy m).bind (hy' m)⟩
      · exact .inr ⟨by rw [hfail', hfail], hb⟩
    · omega
  · rw [hbad]
    exact .inr ⟨hfail, rfl⟩

end Refines

theorem readExact_refines {rounds bound n : Nat} (hn : n ≤ bound) {buf : Bytes} (hbuf : buf.length = n) :
    Refines rounds bound none (readExact rounds n buf) (C.readExact n) := by
  intro s
  have hyields := fun m : Machine Wire => C.readExact_yields (m := m) n s.input s.output
  refine Proc.wp_mono (readExact_ends hbuf rounds s) (fun r s' h => ?_) fun e s' h => ?_
  · cases h with
    | whole hle hin hout hfail hsig =>
      rw [hin, hout]
      refine .inl ⟨hfail, hsig, fun m => ?_⟩
      have hy := hyields m
      rwa [if_pos hle] at hy
    | failed hk hin hout hfail => exact .inr ⟨hfail, rfl⟩
    | closed hlt hin hout hfail hsig =>
      rw [hin, hout]
      refine .inl ⟨hfail, hsig, fun m => ?_⟩
      have hy := hyields m
      rwa [if_neg (Nat.not_le_of_lt hlt), List.drop_of_length_le (Nat.le_of_lt hlt)] at hy
  · cases h with
    | pending hk hin hout hspent => omega

theorem writeAll_refines {rounds bound : Nat} {p : Bytes} (hn : p.length ≤ bound) :
    Refines rounds bound false (writeAll rounds p p.length) (C.writeAll p) := by
  intro s
  refine Proc.wp_mono (writeAll_ends le_rfl rounds s) (fun r s' h => ?_) fun e s' h => ?_
  · cases h with
    | whole hout hin hfail hsig =>
      rw [List.take_length] at hout
      rw [hin, hout]
      exact .inl ⟨hfail, hsig, fun m => Net.wire_sends.cWriteAll p (m.wired s.input s.output)⟩
    | failed hk hout hin hfail => exact .inr ⟨hfail, rfl⟩
  · cases h with
    | pending hk hout hin hspent => omega

theorem writeFrame_refines {rounds bound : Nat} (t : UInt8) {payload : Bytes}
    (hh : HEADER_SIZE ≤ bound) (hn : payload.length ≤ bound) :
    Refines rounds bound false (writeFrame rounds t payload) (C.writeFrame t payload) := by
  have hheader : (MAGIC ++ [VERSION, t] ++ putU64 (UInt64.ofNat payload.length)).length = HEADER_SIZE := by
    rw [putU64_ofNat, List.length_append, toBE_length]
    rfl
  refine (writeAll_refines (hheader.trans_le hh)).bind rfl fun sent => ?_
  split
  · exact .pure false
  split
  · exact writeAll_refines hn
  · exact .pure true

theorem readFrameHeader_refines {rounds bound : Nat} (hh : HEADER_SIZE ≤ bound) :
    Refines rounds bound none (readFrameHeader rounds) C.readFrameHeader := by
  refine (readExact_refines hh List.length_replicate).bind rfl fun header => ?_
  cases header with
  | none => exact .pure none
  | some header =>
    simp only
    split
    · exact .pure none
    split
    · exact .pure none
    · exact .pure _

theorem readFrame_refines {rounds bound : Nat} (hh : HEADER_SIZE ≤ bound) (hcap : PAYLOAD_CAP ≤ bound) :
    Refines rounds bound none (readFrame rounds) C.readFrame := by
  refine (readFrameHeader_refines hh).bind rfl fun header => ?_
  cases header with
  | none => exact .pure none
  | some tn =>
    obtain ⟨t, n⟩ := tn
    simp only
    split
    · exact .pure none
    next hle =>
    split
    · exact .pure _
    · refine (readExact_refines ((Nat.le_of_not_lt hle).trans hcap) List.length_replicate).bind rfl
        fun payload => ?_
      cases payload with
      | none => exact .pure none
      | some payload => exact .pure _

/-! ## Exact I/O -/

theorem Link.env_live (s : Link) (o : Op) : ∃ a s', Link.env.gives s o a s' := by
  cases o with
  | recv size off len => exact ⟨.eintr, _, rfl⟩
  | send p off len => exact ⟨.eintr, _, rfl⟩

/-- How a program of two levels ends on a link where the upper level yields one result. -/
theorem Refines.ends {α : Type} {rounds bound : Nat} {bad a : α} {p : Prog α} {q : CProg α} {s : Link}
    {input output : Bytes} (h : Refines rounds bound bad p q)
    (hq : ∀ m : Machine Wire, Proc.Yields Net.wire.env q (m.wired s.input s.output) (.ok a)
      (m.wired input output)) :
    p.wp Link.env (fun b s' => b = a ∧ s'.input = input ∧ s'.output = output ∧ s'.failures = s.failures ∨
        b = bad ∧ s'.failures = s.failures + 1)
      (fun _ s' => rounds < bound + (s'.signals - s.signals)) s := by
  refine Proc.wp_mono (h s) ?_ fun _ _ he => he
  rintro b s' (⟨hfail, -, hy⟩ | ⟨hfail, hb⟩)
  · have m : Machine Wire := ⟨Os.empty, ∅, ⟨[], []⟩⟩
    obtain ⟨r, m', hrun⟩ := Proc.exists_runs Net.wire_live q (m.wired s.input s.output)
    obtain ⟨hr, hm⟩ := (hy m).unique hrun
    obtain ⟨hr', hm'⟩ := (hq m).unique hrun
    cases hr.symm.trans hr'
    have hnet := congrArg Machine.net (hm.symm.trans hm')
    exact .inl ⟨rfl, congrArg Wire.input hnet, congrArg Wire.output hnet, hfail⟩
  · exact .inr ⟨hb, hfail⟩

/-- How `rtrv_write_frame` ends. -/
def FrameSent (rounds : Nat) (t : UInt8) (payload : Bytes) (s : Link) : Except Unit Bool → Link → Prop
  | .ok true, s' => s'.output = s.output ++ frameBytes t payload ∧ s'.failures = s.failures
  | .ok false, s' => s'.failures = s.failures + 1
  | .error _, s' => rounds < HEADER_SIZE + payload.length + (s'.signals - s.signals)

/-- How `rtrv_read_frame` ends when the frame and `rest` are on their way. -/
def FrameRead (rounds : Nat) (t : UInt8) (payload rest : Bytes) (s : Link) :
    Except Unit (Option Frame) → Link → Prop
  | .ok (some f), s' => f = ⟨t, payload⟩ ∧ s'.input = rest ∧ s'.failures = s.failures
  | .ok none, s' => s'.failures = s.failures + 1
  | .error _, s' => rounds < HEADER_SIZE + PAYLOAD_CAP + (s'.signals - s.signals)

theorem writeFrame_sent (rounds : Nat) (t : UInt8) (payload : Bytes) (s : Link) :
    (writeFrame rounds t payload).wp Link.env (fun r => FrameSent rounds t payload s (.ok r))
      (fun e => FrameSent rounds t payload s (.error e)) s := by
  have hrefines := @writeFrame_refines rounds (HEADER_SIZE + payload.length) t payload
    (Nat.le_add_right _ _) (Nat.le_add_left _ _)
  have hyields : ∀ m : Machine Wire, Proc.Yields Net.wire.env (C.writeFrame t payload)
      (m.wired s.input s.output) (.ok true) (m.wired s.input (s.output ++ frameBytes t payload)) :=
    fun m => C.writeFrame_yields t payload (m.wired s.input s.output)
  refine Proc.wp_mono (hrefines.ends hyields) ?_ fun _ _ h => h
  rintro r s' (⟨rfl, -, hout, hfail⟩ | ⟨rfl, hfail⟩)
  · exact ⟨hout, hfail⟩
  · exact hfail

theorem readFrame_read (rounds : Nat) (t : UInt8) {payload rest : Bytes}
    (hcap : payload.length ≤ PAYLOAD_CAP) {s : Link} (hin : s.input = frameBytes t payload ++ rest) :
    (readFrame rounds).wp Link.env (fun r => FrameRead rounds t payload rest s (.ok r))
      (fun e => FrameRead rounds t payload rest s (.error e)) s := by
  have hrefines := @readFrame_refines rounds (HEADER_SIZE + PAYLOAD_CAP) (Nat.le_add_right _ _)
    (Nat.le_add_left _ _)
  have hyields := fun m : Machine Wire => C.readFrame_frameBytes hcap t rest s.output m
  rw [← hin] at hyields
  refine Proc.wp_mono (hrefines.ends hyields) ?_ fun _ _ h => h
  rintro r s' (⟨rfl, hrest, -, hfail⟩ | ⟨rfl, hfail⟩)
  · exact ⟨rfl, hrest, hfail⟩
  · exact hfail

/-- A program stays within its buffers and ends as `P` says, against every sequence of outcomes. -/
def Exact {α : Type} (p : Prog α) (s : Link) (P : Except Unit α → Link → Prop) : Prop :=
  Allowed Link.env p s ∧ Proc.Ensures Link.env p s P

theorem exact_of_wp {α : Type} {p : Prog α} {s : Link} {P : Except Unit α → Link → Prop}
    (h : p.wp Link.env (fun a => P (.ok a)) (fun e => P (.error e)) s) : Exact p s P :=
  ⟨Proc.allowed_of_wp h, Proc.ensures_of_wp Link.env_live h⟩

/-- **Exact socket I/O.** For every outcome of the calls: a read of `n` bytes into a buffer of that size,
a write of the first `n` bytes of a buffer, and a frame of any type within the cap that is written at one
end and read at the other. -/
theorem exact_io (rounds : Nat) (s : Link) :
    (∀ n buf, buf.length = n → Exact (readExact rounds n buf) s (ReadEnds rounds n s)) ∧
    (∀ p n, n ≤ p.length → Exact (writeAll rounds p n) s (WriteEnds rounds p n s)) ∧
    ∀ t payload, payload.length ≤ PAYLOAD_CAP →
      Exact (writeFrame rounds t payload) s (FrameSent rounds t payload s) ∧
      ∀ s', Runs Link.env (writeFrame rounds t payload) s (.ok true) s' →
        ∃ sent, s'.output = s.output ++ sent ∧ ∀ rounds' rest far, far.input = sent ++ rest →
          Exact (readFrame rounds') far (FrameRead rounds' t payload rest far) := by
  refine ⟨fun n buf hbuf => ?_, fun p n hn => ?_, fun t payload hcap => ⟨?_, fun s' hrun => ?_⟩⟩
  · exact exact_of_wp (readExact_ends hbuf rounds s)
  · exact exact_of_wp (writeAll_ends hn rounds s)
  · exact exact_of_wp (writeFrame_sent rounds t payload s)
  · rcases Proc.wp_runs (writeFrame_sent rounds t payload s) hrun with ⟨r, hr, hsent⟩ | ⟨e, he, -⟩
    · cases hr
      exact ⟨frameBytes t payload, hsent.1, fun rounds' rest far hfar =>
        exact_of_wp (readFrame_read rounds' t hcap hfar)⟩
    · cases he

/-- The header of an OK frame of one byte. -/
def okHeader1 : Bytes := MAGIC ++ [VERSION, T_OK] ++ putU64 1

/-- A read of two bytes out of three, a write of one byte, and a frame of one byte that is written and read
back after the first call has been interrupted. -/
theorem exact_io_byte :
    Exact (readExact 3 2 [0, 0]) ⟨[7, 8, 9], [], 0, 0⟩ (ReadEnds 3 2 ⟨[7, 8, 9], [], 0, 0⟩) ∧
    Exact (writeAll 3 [5] 1) ⟨[7, 8, 9], [], 0, 0⟩ (WriteEnds 3 [5] 1 ⟨[7, 8, 9], [], 0, 0⟩) ∧
    ∃ s', Runs Link.env (writeFrame 3 T_OK [5]) ⟨[7, 8, 9], [], 0, 0⟩ (.ok true) s' ∧ s'.signals = 1 ∧
      ∀ far : Link, far.input = s'.output → Exact (readFrame 3) far (FrameRead 3 T_OK [5] [] far) := by
  obtain ⟨hread, hwrite, hframe⟩ := exact_io 3 ⟨[7, 8, 9], [], 0, 0⟩
  refine ⟨hread 2 [0, 0] rfl, hwrite [5] 1 (by decide), ?_⟩
  have hrun : Runs Link.env (writeFrame 3 T_OK [5]) ⟨[7, 8, 9], [], 0, 0⟩ (.ok true)
      ⟨[7, 8, 9], frameBytes T_OK [5], 1, 0⟩ := by
    have hsignal : Link.env.gives ⟨[7, 8, 9], [], 0, 0⟩ (.send okHeader1 0 HEADER_SIZE) Sent.eintr
        ⟨[7, 8, 9], [], 1, 0⟩ := rfl
    have hheader : Link.env.gives ⟨[7, 8, 9], [], 1, 0⟩ (.send okHeader1 0 HEADER_SIZE)
        (Sent.took HEADER_SIZE) ⟨[7, 8, 9], okHeader1, 1, 0⟩ := ⟨by decide, le_rfl, rfl⟩
    have hpayload : Link.env.gives ⟨[7, 8, 9], okHeader1, 1, 0⟩ (.send [5] 0 1) (Sent.took 1)
        ⟨[7, 8, 9], frameBytes T_OK [5], 1, 0⟩ := ⟨by decide, le_rfl, rfl⟩
    exact .call hsignal (.call hheader (.call hpayload (.done true _)))
  refine ⟨_, hrun, rfl, fun far hfar => ?_⟩
  obtain ⟨sent, hsent, hback⟩ := (hframe T_OK [5] (by decide)).2 _ hrun
  apply hback 3 [] far
  rw [hfar, List.append_nil]
  exact hsent

end Retriever.C.Sock
