/-
# Retriever.Network.Model — the server and its clients on a network

Every session of the server has a client at the other end: a Python or a C client with its command, on a
computer of its own. The two are joined by a line in each direction. A line carries its bytes in order and
loses none in the middle, but a connection can fail at any time: a `recv` may bring nothing or fail while
bytes are under way, and a `sendall` that fails has sent some of its bytes and closes the line to what
comes after.

A step of the network is one operation of a client or of a session. The lines decide what a `recv` of a
session can bring, so a run of the network is in particular a run of the server (`Network.Run.server`).
-/
import Retriever.Network.Clients
import Retriever.Server.World

namespace Retriever

variable {T : Type}

/-! ## Lines -/

/-- One direction of a connection: the bytes under way, and whether it still takes more. -/
structure Line where
  bytes : Bytes
  taking : Bool
  deriving DecidableEq

namespace Line

/-- A line on which nothing has been sent. -/
def fresh : Line := ⟨[], true⟩

/-- What has got onto the line, and whether that was all. -/
def put (l : Line) (b : Bytes) (whole : Bool) : Line :=
  if l.taking then ⟨l.bytes ++ b, whole⟩ else l

/-- A `sendall` at the near end: all of it, or a part and an error. -/
def Takes (l : Line) (b : Bytes) (a : Except SysErr Unit) (l' : Line) : Prop :=
  (a = .ok () ∧ l' = l.put b true) ∨
    ∃ e c, a = .error e ∧ e ≠ .fileExists ∧ c <+: b ∧ l' = l.put c false

/-- A `recv` at the far end: the next bytes, as few as may be, or an error. -/
def Brings (l : Line) (n : Nat) (a : Except SysErr Bytes) (l' : Line) : Prop :=
  (∃ c, a = .ok c ∧ c.length ≤ n ∧ l.bytes = c ++ l'.bytes ∧ l'.taking = l.taking) ∨
    ∃ e, a = .error e ∧ e ≠ .fileExists ∧ l' = l

end Line

/-- A connection: from the client to the server, and back. -/
structure Lines where
  up : Line
  down : Line

namespace Lines

def fresh : Lines := ⟨.fresh, .fresh⟩

/-- What an operation of the session does to the connection. -/
def Serves (x : Lines) : (o : Sys) → o.Ans → Lines → Prop
  | .recv n, a, x' => x.up.Brings n a x'.up ∧ x'.down = x.down
  | .send b, a, x' => x.down.Takes b a x'.down ∧ x'.up = x.up
  | .fs _, _, x' | .reserve _, _, x' | .discard _, _, x' => x' = x

end Lines

/-- The connection as the client has it. -/
def Net.lines : Net Lines where
  mayRecv _ _ := True
  recv x n a x' := x.down.Brings n a x'.down ∧ x'.up = x.up
  maySend _ _ := True
  send x b a x' := x.up.Takes b a x'.up ∧ x'.down = x.down

/-! ## Clients -/

/-- Who is at the other end: which client, with which command, on which disk. -/
structure Client where
  impl : Impl
  command : Command
  os : Os

/-- The command, up to the goodbye as far as the status does not depend on it. -/
def Client.core (c : Client) : CProg Nat :=
  match c.impl with
  | .python => (main c.command).andThen fun r => .done (exitStatus r)
  | .c => C.attempt c.command

/-- What is left to do when the status is known. -/
def Client.rest (c : Client) (status : Nat) : CProg Nat :=
  match c.impl with
  | .python => .done status
  | .c => C.farewell status

/-- The process of a client from the moment its socket is open. Its result is the exit status. -/
def Client.program (c : Client) : CProg Nat :=
  match c.impl with
  | .python => (main c.command).andThen fun r => .done (exitStatus r)
  | .c => C.main c.command

theorem Client.program_eq (c : Client) : c.program = c.core >>= c.rest := by
  obtain ⟨impl, command, os⟩ := c
  cases impl with
  | python => exact (bind_pure _).symm
  | c => exact C.main_eq_attempt command

/-- A client in the middle of its work: what it has left to do, and its machine. -/
structure Party where
  program : CProg Nat
  machine : Machine Lines

/-- The exit status, when the process has ended. -/
def Party.status (p : Party) : Option Nat :=
  match p.program with
  | .done status => some status
  | _ => none

theorem Party.status_eq {p : Party} {status : Nat} (h : p.status = some status) :
    p.program = .done status := by
  unfold Party.status at h
  split at h
  · next hp =>
    cases h
    exact hp
  · cases h

/-- The client, connected. -/
def Client.party (c : Client) : Party := ⟨c.program, ⟨c.os, ∅, .fresh⟩⟩

/-- The party with another state of its connection. -/
def Party.joined (p : Party) (x : Lines) : Party := ⟨p.program, { p.machine with net := x }⟩

/-! ## The network -/

structure Network (T : Type) where
  server : Server T
  parties : T → Party

namespace Network

variable [DecidableEq T]

/-- One operation of a client, or of a session. -/
inductive Step : Network T → Network T → Prop
  | client {n : Network T} {t : T} {o : Sys} {k : o.Ans → CProg Nat} {a : o.Ans} {m : Machine Lines} :
      (n.parties t).program = .call o k → Net.lines.env.gives (n.parties t).machine o a m →
      Step n { n with parties := Function.update n.parties t ⟨k a, m⟩ }
  | session {n : Network T} {t : T} {o : Sys} {k : o.Ans → Session} {a : o.Ans} {w : World T} {x : Lines} :
      (n.server.threads t).next = some ⟨o, k⟩ →
      World.Exec t (n.server.threads t) n.server.world o a w →
      (n.parties t).machine.net.Serves o a x →
      Step n ⟨⟨w, Function.update n.server.threads t (k a)⟩,
        Function.update n.parties t ((n.parties t).joined x)⟩

abbrev Run : Network T → Network T → Prop := Relation.ReflTransGen Step

/-- A server that has just started on a directory, and its clients. -/
def start (os : Os) (clients : T → Client) : Network T :=
  ⟨Server.start T os, fun t => (clients t).party⟩

/-- What the server does on the network it does among any clients. -/
theorem Run.server {n n' : Network T} (h : Run n n') : Server.Run n.server n'.server := by
  induction h with
  | refl => exact .refl
  | tail _ hstep ih =>
    cases hstep with
    | client => exact ih
    | session hn hx _ => exact ih.tail (.mk hn hx)

end Network

/-! ## Runs that can be computed -/

/-- One operation of a client whose connection holds, unless it has to wait for something to arrive. -/
def Machine.turn (m : Machine Lines) : (o : Sys) → Option (o.Ans × Machine Lines)
  | .recv n =>
    if m.net.down.bytes = [] then none
    else some (.ok (m.net.down.bytes.take n),
      { m with net := ⟨m.net.up, ⟨m.net.down.bytes.drop n, m.net.down.taking⟩⟩ })
  | .send b => some (.ok (), { m with net := ⟨m.net.up.put b true, m.net.down⟩ })
  | .fs o => some ((m.os.run o).1, { m with os := (m.os.run o).2 })
  | .reserve p => some (decide (p ∉ m.inFlight), { m with inFlight := insert p m.inFlight })
  | .discard p => some ((), { m with inFlight := m.inFlight.erase p })

theorem Machine.turn_gives {m m' : Machine Lines} {o : Sys} {a : o.Ans} (h : m.turn o = some (a, m')) :
    Net.lines.env.gives m o a m' := by
  cases o with
  | recv n =>
    simp only [turn] at h
    split at h
    · cases h
    · cases h
      exact ⟨⟨m.net.up, ⟨m.net.down.bytes.drop n, m.net.down.taking⟩⟩,
        ⟨.inl ⟨_, rfl, List.length_take_le _ _, (List.take_append_drop n _).symm, rfl⟩, rfl⟩, rfl⟩
  | send b =>
    cases h
    exact ⟨⟨m.net.up.put b true, m.net.down⟩, ⟨.inl ⟨rfl, rfl⟩, rfl⟩, rfl⟩
  | fs o =>
    cases h
    exact ⟨rfl, rfl⟩
  | reserve p =>
    cases h
    exact ⟨rfl, rfl⟩
  | discard p =>
    cases h
    exact rfl

/-- The session has to wait for something to arrive. -/
def Lines.waits (x : Lines) : Sys → Bool
  | .recv _ => decide (x.up.bytes = [])
  | _ => false

/-- The connection after an operation of the session that has left `rest` of what was under way to it. -/
def Lines.after (x : Lines) (rest : Bytes) : Sys → Lines
  | .recv _ => ⟨⟨rest, x.up.taking⟩, x.down⟩
  | .send b => ⟨x.up, x.down.put b true⟩
  | _ => x

theorem Lines.after_serves {w : World T} {t : T} {r : Option Request} (x : Lines) (o : Sys) :
    x.Serves o (w.perform t r x.up.bytes o).1 (x.after (w.perform t r x.up.bytes o).2.2 o) := by
  cases o with
  | recv n =>
    exact ⟨.inl ⟨_, rfl, List.length_take_le _ _, (List.take_append_drop n _).symm, rfl⟩, rfl⟩
  | send b => exact ⟨.inl ⟨rfl, rfl⟩, rfl⟩
  | fs | reserve | discard => exact rfl

/-- Whose turn it is. -/
inductive Turn (T : Type) where
  | client (t : T)
  | session (t : T)

namespace Network

variable [DecidableEq T]

/-- Clients and sessions take turns as the schedule says, on connections that hold. Who has to wait or has
come to an end is passed over. -/
def play (n : Network T) : List (Turn T) → Network T
  | [] => n
  | .client t :: ts =>
    match (n.parties t).program with
    | .call o k =>
      match (n.parties t).machine.turn o with
      | some (a, m) => play { n with parties := Function.update n.parties t ⟨k a, m⟩ } ts
      | none => play n ts
    | _ => play n ts
  | .session t :: ts =>
    match (n.server.threads t).next with
    | none => play n ts
    | some ⟨o, k⟩ =>
      let x := (n.parties t).machine.net
      if x.waits o then play n ts
      else
        let (a, w, rest) := n.server.world.perform t (n.server.threads t).request x.up.bytes o
        play ⟨⟨w, Function.update n.server.threads t (k a)⟩,
          Function.update n.parties t ((n.parties t).joined (x.after rest o))⟩ ts

theorem play_run (n : Network T) (ts : List (Turn T)) : Run n (n.play ts) := by
  induction ts generalizing n with
  | nil => exact .refl
  | cons turn ts ih =>
    cases turn with
    | client t =>
      rw [play]
      split
      · next o k hcall =>
        split
        · next a m hturn => exact .head (.client hcall (Machine.turn_gives hturn)) (ih _)
        · exact ih n
      · exact ih n
    | session t =>
      rw [play]
      split
      · exact ih n
      · next o k hn =>
        dsimp only
        split
        · exact ih n
        · exact .head (.session hn (World.perform_exec _ _ _ _ _) (Lines.after_serves _ _)) (ih _)

/-- The turns of a client and its session alone. -/
def turns (t : T) (k : Nat) : List (Turn T) := (List.replicate k [.client t, .session t]).flatten

end Network

end Retriever
