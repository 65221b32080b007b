/-
# Retriever.Wire — a peer whose bytes are fixed

The peer has sent a given byte string and closed; how the bytes are split over the `recv` calls is
open. `Net.wire` allows every splitting into non-empty pieces of at most the requested size, and
every `sendall` succeeds. The reads of both implementations give the same result for every
splitting: `readExactBytes` and `rtrv_read_exact` here, and with them everything that is built from
them.
-/
import Retriever.CClient.Frame
import Retriever.Machine

namespace Retriever

/-- What the peer has sent and has not been read, and what has been written to it. -/
structure Wire where
  input : Bytes
  output : Bytes

namespace Net

def wire : Net Wire where
  mayRecv _ _ := True
  recv w n a w' := ∃ c, a = .ok c ∧ c.length ≤ n ∧ (c = [] → n = 0 ∨ w.input = []) ∧
    w.input = c ++ w'.input ∧ w'.output = w.output
  maySend _ _ := True
  send w b a w' := a = .ok () ∧ w' = ⟨w.input, w.output ++ b⟩

/-- Every call is answered. -/
theorem wire_live (m : Machine Wire) (o : Sys) : ∃ a m', wire.env.gives m o a m' := by
  cases o with
  | recv n =>
    refine ⟨.ok (m.net.input.take n), _, ⟨m.net.input.drop n, m.net.output⟩,
      ⟨_, rfl, List.length_take_le _ _, ?_, ?_, rfl⟩, rfl⟩
    · intro h
      exact List.take_eq_nil_iff.mp h
    · exact (List.take_append_drop n _).symm
  | send b => exact ⟨_, _, _, ⟨rfl, rfl⟩, rfl⟩
  | fs o => exact ⟨_, _, rfl, rfl⟩
  | reserve p => exact ⟨_, _, rfl, rfl⟩
  | discard p => exact ⟨(), _, rfl⟩

/-- A network that takes whatever is sent; `put` is what it becomes. -/
structure Sends {N : Type} (net : Net N) (put : N → Bytes → N) : Prop where
  may : ∀ x b, net.maySend x b
  gives : ∀ {x b a x'}, net.send x b a x' → a = .ok () ∧ x' = put x b
  nil : ∀ x, put x [] = x
  append : ∀ x a b, put (put x a) b = put x (a ++ b)

theorem wire_sends : wire.Sends fun w b => ⟨w.input, w.output ++ b⟩ where
  may _ _ := trivial
  gives h := h
  nil w := by rw [List.append_nil]
  append w a b := by rw [List.append_assoc]

end Net

/-- The machine after something has been sent. -/
def Machine.puts {N : Type} (m : Machine N) (put : N → Bytes → N) (b : Bytes) : Machine N :=
  { m with net := put m.net b }

section Sends

variable {N : Type} {net : Net N} {put : N → Bytes → N} {m : Machine N}

theorem Net.Sends.puts_nil (h : net.Sends put) (m : Machine N) : m.puts put [] = m := by
  unfold Machine.puts
  rw [h.nil]

theorem Net.Sends.puts_puts (h : net.Sends put) (m : Machine N) (a b : Bytes) :
    (m.puts put a).puts put b = m.puts put (a ++ b) := by
  unfold Machine.puts
  rw [h.append]

theorem Net.Sends.sendall (h : net.Sends put) (b : Bytes) (m : Machine N) :
    Proc.Yields net.env (Py.sendall b) m (.ok ()) (m.puts put b) := by
  refine Py.wpm_sendall.mpr ⟨h.may _ _, fun a x hx => ?_⟩
  obtain ⟨rfl, rfl⟩ := h.gives hx
  exact ⟨rfl, rfl⟩

theorem Net.Sends.cWriteAll (h : net.Sends put) (b : Bytes) (m : Machine N) :
    Proc.Yields net.env (C.writeAll b) m (.ok true) (m.puts put b) := by
  refine Proc.wp_bind.mpr (Net.call_send.mpr ⟨h.may _ _, fun a x hx => ?_⟩)
  obtain ⟨rfl, rfl⟩ := h.gives hx
  exact ⟨rfl, rfl⟩

end Sends

/-- The machine with another state of the connection. -/
def Machine.wired (m : Machine Wire) (input output : Bytes) : Machine Wire :=
  { m with net := ⟨input, output⟩ }

@[simp] theorem Machine.wired_self (m : Machine Wire) : m.wired m.net.input m.net.output = m := rfl

variable {m : Machine Wire} {ε α β : Type}

/-! ## Single calls -/

theorem yields_sendall (b : Bytes) (m : Machine Wire) : Proc.Yields Net.wire.env (Py.sendall b) m
    (.ok ()) (m.wired m.net.input (m.net.output ++ b)) :=
  Net.wire_sends.sendall b m

theorem yields_fs (o : FsOp) (m : Machine Wire) :
    Proc.Yields Net.wire.env (Proc.perform (Sys.fs o) : Proc Sys Sys.Ans ε o.Ans) m (.ok (m.os.run o).1)
      { m with os := (m.os.run o).2 } :=
  Net.call_fs.mpr ⟨rfl, rfl⟩

theorem determinate_fs (o : FsOp) :
    Proc.Determinate Net.wire.env (Proc.perform (Sys.fs o) : Proc Sys Sys.Ans ε o.Ans) := by
  refine Proc.Determinate.perform fun m => ⟨trivial, (m.os.run o).1, { m with os := (m.os.run o).2 }, ?_⟩
  rintro a t ⟨rfl, rfl⟩
  exact ⟨rfl, rfl⟩

theorem determinate_orRaise {α : Type} (x : Except SysErr α) :
    Proc.Determinate Net.wire.env (Py.orRaise x) := by
  cases x with
  | ok a => exact .done a
  | error e => exact .raise (Exn.sys e)

theorem determinate_sendall (b : Bytes) : Proc.Determinate Net.wire.env (Py.sendall b) := fun m =>
  ⟨_, _, yields_sendall b m⟩

/-! ## Exact reads -/

/-- One `recv` brings some of the input, or there is none left. -/
theorem wire_recv_cases {w w' : Wire} {n : Nat} {a : Except SysErr Bytes} (hn : 0 < n)
    (h : Net.wire.recv w n a w') :
    (w.input = [] ∧ a = .ok [] ∧ w' = w) ∨
    ∃ c, c ≠ [] ∧ c.length ≤ n ∧ a = .ok c ∧ w.input = c ++ w'.input ∧ w'.output = w.output := by
  obtain ⟨c, rfl, hle, hnil, hin, hout⟩ := h
  by_cases hc : c = []
  · left
    rcases hnil hc with h0 | hempty
    · omega
    · refine ⟨hempty, by rw [hc], ?_⟩
      rw [hc, List.nil_append] at hin
      obtain ⟨i, o⟩ := w'
      obtain ⟨i', o'⟩ := w
      cases hin
      cases hout
      rfl
  · exact .inr ⟨c, hc, hle, rfl, hin, hout⟩

/-- The bytes a piece brings are taken off the front. -/
theorem exact_step {n : Nat} {data c : Bytes} (rest : Bytes) (h : c.length ≤ n - data.length) :
    (data ++ c) ++ rest.take (n - (data ++ c).length) = data ++ (c ++ rest).take (n - data.length) ∧
    rest.drop (n - (data ++ c).length) = (c ++ rest).drop (n - data.length) ∧
    (n ≤ (data ++ c).length + rest.length) = (n ≤ data.length + (c ++ rest).length) := by
  refine ⟨?_, ?_, by simp only [List.length_append, Nat.add_assoc]⟩
  · rw [List.append_assoc, List.take_append, List.take_of_length_le h, List.length_append,
      Nat.sub_sub]
  · rw [List.drop_append, List.drop_of_length_le h, List.nil_append, List.length_append, Nat.sub_sub]

/-- What reading `n` bytes does to the input: all of them, or everything there is and an error. -/
theorem readExactLoop_yields (n fuel : Nat) (data input output : Bytes)
    (hd : data.length ≤ n) (hfuel : n ≤ data.length + fuel) :
    Proc.Yields Net.wire.env (readExactLoop n fuel data) (m.wired input output)
      (if n ≤ data.length + input.length then .ok (data ++ input.take (n - data.length))
        else .error (.sys .connectionError))
      (m.wired (input.drop (n - data.length)) output) := by
  induction fuel generalizing data input with
  | zero =>
    have hz : n - data.length = 0 := by omega
    rw [readExactLoop, if_pos (by omega), hz, List.take_zero, List.append_nil, List.drop_zero]
    exact Proc.yields_done _ _
  | succ fuel ih =>
    rw [readExactLoop]
    by_cases hlt : data.length < n
    · rw [if_pos hlt]
      refine Proc.wp_bind.mpr (Py.wpm_recv.mpr ⟨trivial, fun a w hw => ?_⟩)
      rcases wire_recv_cases (by omega) hw with ⟨hin, rfl, rfl⟩ | ⟨c, hc, hle, rfl, hin, hout⟩
      · have hin' : input = [] := hin
        subst hin'
        rw [if_neg (by simp; omega)]
        exact ⟨rfl, by simp [Machine.wired]⟩
      · have hin' : input = c ++ w.input := hin
        have hout' : w.output = output := hout
        subst hin' hout'
        have hnext := ih (data ++ c) w.input (by simp; omega)
          (by have := List.length_pos_iff.mpr hc; simp; omega)
        obtain ⟨htake, hdrop, hcond⟩ := exact_step w.input hle
        rw [htake, hdrop] at hnext
        simp only [hcond] at hnext
        simp only [Outcome, if_neg hc]
        exact hnext
    · have hz : n - data.length = 0 := by omega
      rw [if_neg hlt, if_pos (by omega), hz, List.take_zero, List.append_nil, List.drop_zero]
      exact Proc.yields_done _ _

theorem readExactBytes_yields (n : Nat) (input output : Bytes) :
    Proc.Yields Net.wire.env (readExactBytes n) (m.wired input output)
      (if n ≤ input.length then .ok (input.take n) else .error (.sys .connectionError))
      (m.wired (input.drop n) output) := by
  have h := readExactLoop_yields (m := m) n n [] input output (Nat.zero_le n) (by simp)
  simp only [List.length_nil, Nat.zero_add, Nat.sub_zero, List.nil_append] at h
  exact h

/-- `rtrv_read_exact` on the same input. -/
theorem C.readExactLoop_yields (n fuel : Nat) (data input output : Bytes)
    (hd : data.length ≤ n) (hfuel : n ≤ data.length + fuel) :
    Proc.Yields Net.wire.env (C.readExactLoop n fuel data) (m.wired input output)
      (.ok (if n ≤ data.length + input.length then some (data ++ input.take (n - data.length))
        else none))
      (m.wired (input.drop (n - data.length)) output) := by
  induction fuel generalizing data input with
  | zero =>
    have hz : n - data.length = 0 := by omega
    rw [C.readExactLoop, if_pos (by omega), hz, List.take_zero, List.append_nil, List.drop_zero]
    exact Proc.yields_done _ _
  | succ fuel ih =>
    rw [C.readExactLoop]
    by_cases hlt : data.length < n
    · rw [if_pos hlt]
      refine Proc.wp_bind.mpr (Net.call_recv.mpr ⟨trivial, fun a w hw => ?_⟩)
      rcases wire_recv_cases (by omega) hw with ⟨hin, rfl, rfl⟩ | ⟨c, hc, hle, rfl, hin, hout⟩
      · have hin' : input = [] := hin
        subst hin'
        rw [if_neg (by simp; omega)]
        exact ⟨rfl, by simp [Machine.wired]⟩
      · have hin' : input = c ++ w.input := hin
        have hout' : w.output = output := hout
        subst hin' hout'
        have hnext := ih (data ++ c) w.input (by simp; omega)
          (by have := List.length_pos_iff.mpr hc; simp; omega)
        obtain ⟨htake, hdrop, hcond⟩ := exact_step w.input hle
        rw [htake, hdrop] at hnext
        simp only [hcond] at hnext
        change Proc.Yields Net.wire.env (if c = [] then pure none
          else C.readExactLoop n fuel (data ++ c)) _ _ _
        rw [if_neg hc]
        exact hnext
    · have hz : n - data.length = 0 := by omega
      rw [if_neg hlt, if_pos (by omega), hz, List.take_zero, List.append_nil, List.drop_zero]
      exact Proc.yields_done _ _

theorem C.readExact_yields (n : Nat) (input output : Bytes) :
    Proc.Yields Net.wire.env (C.readExact n) (m.wired input output)
      (.ok (if n ≤ input.length then some (input.take n) else none))
      (m.wired (input.drop n) output) := by
  have h := C.readExactLoop_yields (m := m) n n [] input output (Nat.zero_le n) (by simp)
  simp only [List.length_nil, Nat.zero_add, Nat.sub_zero, List.nil_append] at h
  exact h

/-! ## Running a determinate program -/

/-- The answer to a call that takes as much of the input as it can. -/
def Machine.answer (m : Machine Wire) : (o : Sys) → o.Ans × Machine Wire
  | .recv n => (.ok (m.net.input.take n), m.wired (m.net.input.drop n) m.net.output)
  | .send b => (.ok (), m.wired m.net.input (m.net.output ++ b))
  | .fs o => ((m.os.run o).1, { m with os := (m.os.run o).2 })
  | .reserve p => (decide (p ∉ m.inFlight), { m with inFlight := insert p m.inFlight })
  | .discard p => ((), { m with inFlight := m.inFlight.erase p })

/-- The run of a program with these answers. -/
def Machine.greedy {ε α : Type} (m : Machine Wire) : Proc Sys Sys.Ans ε α → Except ε α × Machine Wire
  | .done a => (.ok a, m)
  | .raise e => (.error e, m)
  | .call o k => (m.answer o).2.greedy (k (m.answer o).1)

theorem Machine.answer_gives (m : Machine Wire) (o : Sys) :
    Net.wire.env.gives m o (m.answer o).1 (m.answer o).2 := by
  cases o with
  | recv n =>
    refine ⟨⟨m.net.input.drop n, m.net.output⟩, ⟨_, rfl, List.length_take_le _ _, ?_, ?_, rfl⟩, rfl⟩
    · exact List.take_eq_nil_iff.mp
    · exact (List.take_append_drop n _).symm
  | send b => exact ⟨_, ⟨rfl, rfl⟩, rfl⟩
  | fs o => exact ⟨rfl, rfl⟩
  | reserve p => exact ⟨rfl, rfl⟩
  | discard p => exact rfl

theorem Machine.greedy_runs {ε α : Type} (p : Proc Sys Sys.Ans ε α) (m : Machine Wire) :
    Proc.Runs Net.wire.env p m (m.greedy p).1 (m.greedy p).2 := by
  induction p generalizing m with
  | done a => exact .done a m
  | raise e => exact .raise e m
  | call o k ih => exact .call (m.answer_gives o) (ih _ _)

/-- The one outcome of a determinate program. -/
theorem Proc.Yields.greedy {ε α : Type} {p : Proc Sys Sys.Ans ε α} {m m' : Machine Wire}
    {r : Except ε α} (h : Proc.Yields Net.wire.env p m r m') : m.greedy p = (r, m') := by
  obtain ⟨hr, hm⟩ := h.unique (m.greedy_runs p)
  exact Prod.ext hr hm

/-- What happens with a fixed input can happen with a peer that may send anything. -/
theorem Proc.Runs.hostile {ε α : Type} {p : Proc Sys Sys.Ans ε α} {m m' : Machine Wire}
    {r : Except ε α} (h : Proc.Runs Net.wire.env p m r m') (got : Bytes) : ∃ got',
      Proc.Runs Net.hostile.env p ⟨m.os, m.inFlight, got⟩ r ⟨m'.os, m'.inFlight, got'⟩ := by
  induction h generalizing got with
  | done a m => exact ⟨got, .done _ _⟩
  | raise e m => exact ⟨got, .raise _ _⟩
  | @call o k r m m₁ m' a ha _ ih =>
    cases o with
    | recv n =>
      obtain ⟨x, ⟨c, rfl, hle, -, -, -⟩, rfl⟩ := ha
      obtain ⟨got', hrun⟩ := ih (got ++ c)
      exact ⟨got', .call ⟨_, .inl ⟨c, rfl, hle, rfl⟩, rfl⟩ hrun⟩
    | send b =>
      obtain ⟨x, ⟨rfl, rfl⟩, rfl⟩ := ha
      obtain ⟨got', hrun⟩ := ih got
      exact ⟨got', .call ⟨got, rfl, rfl⟩ hrun⟩
    | fs o =>
      obtain ⟨rfl, rfl⟩ := ha
      obtain ⟨got', hrun⟩ := ih got
      exact ⟨got', .call ⟨rfl, rfl⟩ hrun⟩
    | reserve p =>
      obtain ⟨rfl, rfl⟩ := ha
      obtain ⟨got', hrun⟩ := ih got
      exact ⟨got', .call ⟨rfl, rfl⟩ hrun⟩
    | discard p =>
      cases ha
      obtain ⟨got', hrun⟩ := ih got
      exact ⟨got', .call rfl hrun⟩

end Retriever
