/-
# Retriever.Machine — one program on one computer, with a network

A program that runs alone has its filesystem for itself, so its filesystem calls are answered by
`Os.run`. What the network does is a parameter, a `Net`: the same program is put against a peer
that sends anything (`Net.hostile`), against a peer that follows a script, or against a server whose
reply is cut off.
-/
import Mathlib.Data.Finset.Basic
import Retriever.Calls
import Retriever.Directory
import Retriever.Frames

namespace Retriever

/-- What a program may ask of its socket in a state of the network, and what can come back. -/
structure Net (N : Type) where
  mayRecv : N → Nat → Prop
  recv : N → Nat → Except SysErr Bytes → N → Prop
  maySend : N → Bytes → Prop
  send : N → Bytes → Except SysErr Unit → N → Prop

structure Machine (N : Type) where
  os : Os
  inFlight : Finset Bytes
  net : N

variable {N : Type}

namespace Net

def env (net : Net N) : Proc.Env Sys Sys.Ans (Machine N) where
  may m
    | .recv n => net.mayRecv m.net n
    | .send b => net.maySend m.net b
    | .fs _ | .reserve _ | .discard _ => True
  gives m
    | .recv n, a, m' => ∃ x, net.recv m.net n a x ∧ m' = { m with net := x }
    | .send b, a, m' => ∃ x, net.send m.net b a x ∧ m' = { m with net := x }
    | .fs o, a, m' => a = (m.os.run o).1 ∧ m' = { m with os := (m.os.run o).2 }
    | .reserve p, a, m' =>
      a = decide (p ∉ m.inFlight) ∧ m' = { m with inFlight := insert p m.inFlight }
    | .discard p, _, m' => m' = { m with inFlight := m.inFlight.erase p }

/-- A peer that may send anything and may go away at any time. The state of the network is what has
been received. -/
def hostile : Net Bytes where
  mayRecv _ _ := True
  recv got n a got' :=
    (∃ c, a = .ok c ∧ c.length ≤ n ∧ got' = got ++ c) ∨ ∃ e, a = .error e ∧ got' = got
  maySend _ _ := True
  send got _ _ got' := got' = got

variable {net : Net N} {m : Machine N} {E : Exn → Machine N → Prop}

/-- A filesystem call has one answer. -/
theorem call_fs {o : FsOp} {P : o.Ans → Machine N → Prop} :
    (net.env.may m (.fs o) ∧ ∀ a m', net.env.gives m (.fs o) a m' → P a m') ↔
      P (m.os.run o).1 { m with os := (m.os.run o).2 } := by
  constructor
  · intro h
    exact h.2 _ _ ⟨rfl, rfl⟩
  · rintro h
    refine ⟨trivial, ?_⟩
    rintro a m' ⟨rfl, rfl⟩
    exact h

theorem call_recv {n : Nat} {P : Except SysErr Bytes → Machine N → Prop} :
    (net.env.may m (.recv n) ∧ ∀ a m', net.env.gives m (.recv n) a m' → P a m') ↔
      net.mayRecv m.net n ∧ ∀ a x, net.recv m.net n a x → P a { m with net := x } := by
  refine and_congr_right fun _ => ⟨fun h a x hx => h a _ ⟨x, hx, rfl⟩, ?_⟩
  rintro h a m' ⟨x, hx, rfl⟩
  exact h a x hx

theorem call_send {b : Bytes} {P : Except SysErr Unit → Machine N → Prop} :
    (net.env.may m (.send b) ∧ ∀ a m', net.env.gives m (.send b) a m' → P a m') ↔
      net.maySend m.net b ∧ ∀ a x, net.send m.net b a x → P a { m with net := x } := by
  refine and_congr_right fun _ => ⟨fun h a x hx => h a _ ⟨x, hx, rfl⟩, ?_⟩
  rintro h a m' ⟨x, hx, rfl⟩
  exact h a x hx

/-- A call that looks leaves the machine as it is. -/
theorem call_looks {o : FsOp} (ho : o.Looks) {P : o.Ans → Machine N → Prop} :
    (net.env.may m (.fs o) ∧ ∀ a m', net.env.gives m (.fs o) a m' → P a m') ↔
      P (m.os.run o).1 m := by
  rw [call_fs, Os.run_looks ho]

theorem call_reserve {p : Bytes} {P : Bool → Machine N → Prop} :
    (net.env.may m (.reserve p) ∧ ∀ a m', net.env.gives m (.reserve p) a m' → P a m') ↔
      P (decide (p ∉ m.inFlight)) { m with inFlight := insert p m.inFlight } := by
  constructor
  · intro h
    exact h.2 _ _ ⟨rfl, rfl⟩
  · rintro h
    refine ⟨trivial, ?_⟩
    rintro a m' ⟨rfl, rfl⟩
    exact h

theorem call_discard {p : Bytes} {P : Unit → Machine N → Prop} :
    (net.env.may m (.discard p) ∧ ∀ a m', net.env.gives m (.discard p) a m' → P a m') ↔
      P () { m with inFlight := m.inFlight.erase p } := by
  constructor
  · intro h
    exact h.2 _ _ rfl
  · rintro h
    refine ⟨trivial, ?_⟩
    rintro a m' rfl
    exact h

end Net

/-! ## Python calls -/

namespace Py

variable {net : Net N} {m : Machine N} {E : Exn → Machine N → Prop}

theorem wpm_stat {p : Bytes} {Q : Option Stat → Machine N → Prop} :
    (stat p).wp net.env Q E m ↔ Q (m.os.statAt p) m :=
  wp_stat.trans (Net.call_looks (.stat p))

theorem wpm_pathExists {p : Bytes} {Q : Bool → Machine N → Prop} :
    (pathExists p).wp net.env Q E m ↔ Q (m.os.statAt p).isSome m := by
  rw [pathExists, Proc.wp_bind, wpm_stat]
  rfl

theorem wpm_isfile {p : Bytes} {Q : Bool → Machine N → Prop} :
    (isfile p).wp net.env Q E m ↔ Q ((m.os.statAt p).any Stat.isReg) m := by
  rw [isfile, Proc.wp_bind, wpm_stat]
  rfl

theorem wpm_getsize {p : Bytes} {st : Stat} (h : m.os.statAt p = some st)
    {Q : Nat → Machine N → Prop} : (getsize p).wp net.env Q E m ↔ Q st.size m := by
  rw [getsize, Proc.wp_bind, wpm_stat, h]
  rfl

theorem wpm_recv {n : Nat} {Q : Bytes → Machine N → Prop} : (recv n).wp net.env Q E m ↔
    net.mayRecv m.net n ∧ ∀ a x, net.recv m.net n a x → Outcome Q E a { m with net := x } :=
  wp_recv.trans Net.call_recv

theorem wpm_sendall {b : Bytes} {Q : Unit → Machine N → Prop} : (sendall b).wp net.env Q E m ↔
    net.maySend m.net b ∧ ∀ a x, net.send m.net b a x → Outcome Q E a { m with net := x } :=
  wp_sendall.trans Net.call_send

theorem wpm_openRb {p : Bytes} {Q : Nat → Machine N → Prop} :
    (openRb p).wp net.env Q E m ↔ Outcome Q E (m.os.run (.openRb p)).1 m :=
  wp_openRb.trans (Net.call_looks (.openRb p))

theorem wpm_read {i pos n : Nat} {Q : Bytes → Machine N → Prop} :
    (read i pos n).wp net.env Q E m ↔ Q (((m.os.store.data i).drop pos).take n) m :=
  wp_read.trans (Net.call_looks (.read i pos n))

theorem wpm_openAb {p : Bytes} {Q : Nat → Machine N → Prop} : (openAb p).wp net.env Q E m ↔
    Outcome Q E (m.os.run (.openAb p)).1 { m with os := (m.os.run (.openAb p)).2 } :=
  wp_openAb.trans Net.call_fs

theorem wpm_openWb {p : Bytes} {Q : Nat → Machine N → Prop} : (openWb p).wp net.env Q E m ↔
    Outcome Q E (m.os.run (.openWb p)).1 { m with os := (m.os.run (.openWb p)).2 } :=
  wp_openWb.trans Net.call_fs

theorem wpm_write {i : Nat} {b : Bytes} {Q : Unit → Machine N → Prop} :
    (write i b).wp net.env Q E m ↔
      Outcome Q E (m.os.run (.write i b)).1 { m with os := (m.os.run (.write i b)).2 } :=
  wp_write.trans Net.call_fs

theorem wpm_remove {p : Bytes} {Q : Unit → Machine N → Prop} : (remove p).wp net.env Q E m ↔
    Outcome Q E (m.os.run (.unlink p)).1 { m with os := (m.os.run (.unlink p)).2 } :=
  wp_remove.trans Net.call_fs

theorem wpm_replace {p q : Bytes} {Q : Unit → Machine N → Prop} :
    (replace p q).wp net.env Q E m ↔
      Outcome Q E (m.os.run (.rename p q)).1 { m with os := (m.os.run (.rename p q)).2 } :=
  wp_replace.trans Net.call_fs

end Py

/-- `sha256_file` on a path that leads to a file. -/
theorem wpm_sha256File {net : Net N} {m : Machine N} {E : Exn → Machine N → Prop} {p : Bytes}
    {i : Nat} (h : m.os.at? p = some (.file i)) {Q : Bytes → Machine N → Prop}
    (hQ : Q (sha256 (m.os.store.data i)) m) : (sha256File p).wp net.env Q E m := by
  refine wp_sha256File (J := fun f m' => f = i ∧ m' = m) (c := m.os.store.data i) trivial ?_ ?_
    (m.os.small i) ?_
  · rintro a m' ⟨rfl, rfl⟩
    refine ⟨i, ?_, rfl, ?_⟩
    · simp [Os.run, h]
    · rw [Os.run_looks (.openRb p)]
  · rintro f n m' pos ⟨rfl, rfl⟩
    refine ⟨trivial, ?_⟩
    rintro a m' ⟨rfl, rfl⟩
    exact ⟨rfl, rfl, rfl⟩
  · rintro f m' ⟨rfl, rfl⟩
    exact hQ

end Retriever
