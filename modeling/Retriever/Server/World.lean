/-
# Retriever.Server.World — any number of sessions on one server

The sessions share the directory and the set `_in_flight`. A step is one operation of one session:
a filesystem call, a `recv` or a `sendall`, or a section under `_in_flight_lock`. Filesystem calls
are answered by `Os.run`. What the network does is up to the clients: a `recv` of at most `n` bytes
may return any bytes up to that many, none when the client has closed, and it may fail, as may a
`sendall`.

The log records every operation with its answer, the session and the request it belongs to, and
the filesystem it left behind. The programs never read it; properties of whole runs are stated on
it, newest event first.
-/
import Mathlib.Data.Finset.Basic
import Retriever.Lib.Pool
import Retriever.Directory
import Retriever.Frames

namespace Retriever

variable {T : Type}

/-- One operation of a session. -/
structure Event (T : Type) where
  sid : T
  request : Option Request
  op : Sys
  ans : op.Ans
  os : Os

structure World (T : Type) where
  os : Os
  inFlight : Finset Bytes
  log : List (Event T)

namespace World

/-- The answers an operation can get and what it does to the directory and to `_in_flight`. -/
def Answers (w : World T) : (o : Sys) → o.Ans → Os → Finset Bytes → Prop
  | .recv n, a, os, fl =>
    ((∃ c, a = .ok c ∧ c.length ≤ n) ∨ ∃ e, a = .error e ∧ e ≠ .fileExists) ∧
      os = w.os ∧ fl = w.inFlight
  | .send _, a, os, fl =>
    (a = .ok () ∨ ∃ e, a = .error e ∧ e ≠ .fileExists) ∧ os = w.os ∧ fl = w.inFlight
  | .fs o, a, os, fl => (w.os.run o).1 = a ∧ os = (w.os.run o).2 ∧ fl = w.inFlight
  | .reserve p, a, os, fl => a = decide (p ∉ w.inFlight) ∧ os = w.os ∧ fl = insert p w.inFlight
  | .discard p, _, os, fl => os = w.os ∧ fl = w.inFlight.erase p

/-- One operation of session `t`. -/
def Exec (t : T) (l : Session) (w : World T) (o : Sys) (a : o.Ans) (w' : World T) : Prop :=
  w.Answers o a w'.os w'.inFlight ∧ w'.log = ⟨t, l.request, o, a, w'.os⟩ :: w.log

end World

/-- The server with its sessions. -/
abbrev Server (T : Type) := Pool T Session (World T)

namespace Server

variable [DecidableEq T]

abbrev Step : Server T → Server T → Prop := Pool.Step Session.next World.Exec

abbrev Run : Server T → Server T → Prop := Pool.Run Session.next World.Exec

abbrev RunIn (P : World T → Prop) : Server T → Server T → Prop :=
  Pool.RunIn Session.next World.Exec P

abbrev RunBy (R : World T → World T → Prop) : Server T → Server T → Prop :=
  Pool.RunBy Session.next World.Exec R

/-- A server that has just started on a directory: every client is still to be greeted. -/
def start (T : Type) (os : Os) : Server T := ⟨⟨os, ∅, []⟩, fun _ => Session.accepted⟩

end Server

/-! ## Runs that can be computed -/

namespace World

/-- One operation with a client that has `input` left to send and takes every reply: the answer,
the new world and what the client has left. -/
def perform (w : World T) (t : T) (r : Option Request) (input : Bytes) :
    (o : Sys) → o.Ans × World T × Bytes
  | .recv n =>
    (.ok (input.take n), { w with log := ⟨t, r, .recv n, .ok (input.take n), w.os⟩ :: w.log },
      input.drop n)
  | .send b => (.ok (), { w with log := ⟨t, r, .send b, .ok (), w.os⟩ :: w.log }, input)
  | .fs o =>
    let (a, os) := w.os.run o
    (a, { w with os := os, log := ⟨t, r, .fs o, a, os⟩ :: w.log }, input)
  | .reserve p =>
    let a := decide (p ∉ w.inFlight)
    (a, { w with inFlight := insert p w.inFlight, log := ⟨t, r, .reserve p, a, w.os⟩ :: w.log },
      input)
  | .discard p =>
    ((), { w with inFlight := w.inFlight.erase p, log := ⟨t, r, .discard p, (), w.os⟩ :: w.log },
      input)

theorem perform_exec (w : World T) (t : T) (l : Session) (input : Bytes) (o : Sys) :
    Exec t l w o (w.perform t l.request input o).1 (w.perform t l.request input o).2.1 := by
  cases o with
  | recv n => exact ⟨⟨.inl ⟨_, rfl, List.length_take_le n input⟩, rfl, rfl⟩, rfl⟩
  | send b => exact ⟨⟨.inl rfl, rfl, rfl⟩, rfl⟩
  | fs o => exact ⟨⟨rfl, rfl, rfl⟩, rfl⟩
  | reserve p => exact ⟨⟨rfl, rfl, rfl⟩, rfl⟩
  | discard p => exact ⟨⟨rfl, rfl⟩, rfl⟩

end World

namespace Server

variable [DecidableEq T]

/-- Sessions take turns as the schedule says; `inputs` is what their clients still send. A turn of
a session that has ended is skipped. -/
def play (s : Server T) (inputs : T → Bytes) : List T → Server T × (T → Bytes)
  | [] => (s, inputs)
  | t :: ts =>
    match (s.threads t).next with
    | none => play s inputs ts
    | some ⟨o, k⟩ =>
      let (a, w, rest) := s.world.perform t (s.threads t).request (inputs t) o
      play ⟨w, Function.update s.threads t (k a)⟩ (Function.update inputs t rest) ts

theorem play_run (s : Server T) (inputs : T → Bytes) (ts : List T) :
    Run s (s.play inputs ts).1 := by
  induction ts generalizing s inputs with
  | nil => exact .refl
  | cons t ts ih =>
    rw [play]
    split
    · exact ih s inputs
    · next o k hn =>
      exact .head (.mk hn (World.perform_exec s.world t (s.threads t) (inputs t) o)) (ih _ _)

theorem play_step {s : Server T} {t : T} (inputs : T → Bytes)
    (h : (s.threads t).next.isSome = true) : Step s (s.play inputs [t]).1 := by
  obtain ⟨⟨o, k⟩, hn⟩ := Option.isSome_iff_exists.mp h
  simp only [play, hn]
  exact .mk hn (World.perform_exec s.world t (s.threads t) (inputs t) o)

/-- A condition on the shared state, from the first to the last state of the schedule. -/
def playIn (P : World T → Bool) (s : Server T) (inputs : T → Bytes) : List T → Bool
  | [] => P s.world
  | t :: ts => P s.world && playIn P (s.play inputs [t]).1 (s.play inputs [t]).2 ts

theorem play_cons (s : Server T) (inputs : T → Bytes) (t : T) (ts : List T) :
    s.play inputs (t :: ts) = (s.play inputs [t]).1.play (s.play inputs [t]).2 ts := by
  simp only [play]
  split <;> rfl

theorem play_runIn {P : World T → Bool} {s : Server T} {inputs : T → Bytes} {ts : List T}
    (h : s.playIn P inputs ts = true) :
    RunIn (fun w => P w = true) s (s.play inputs ts).1 := by
  induction ts generalizing s inputs with
  | nil => exact ⟨h, .refl⟩
  | cons t ts ih =>
    obtain ⟨hs, hrest⟩ := Bool.and_eq_true_iff.mp h
    obtain ⟨hnext, hrun⟩ := ih hrest
    rw [play_cons]
    cases hn : (s.threads t).next with
    | none =>
      have hstay : s.play inputs [t] = (s, inputs) := by simp only [play, hn]
      rw [hstay] at hrun ⊢
      exact ⟨hs, hrun⟩
    | some c => exact ⟨hs, .head ⟨play_step inputs (by rw [hn]; rfl), hnext⟩ hrun⟩

/-- A condition on every step of the schedule. -/
def playBy (R : World T → World T → Bool) (s : Server T) (inputs : T → Bytes) : List T → Bool
  | [] => true
  | t :: ts => ((s.threads t).next.isNone || R s.world (s.play inputs [t]).1.world) &&
      playBy R (s.play inputs [t]).1 (s.play inputs [t]).2 ts

theorem play_runBy {R : World T → World T → Bool} {s : Server T} {inputs : T → Bytes} {ts : List T}
    (h : s.playBy R inputs ts = true) :
    RunBy (fun w w' => R w w' = true) s (s.play inputs ts).1 := by
  induction ts generalizing s inputs with
  | nil => exact .refl
  | cons t ts ih =>
    obtain ⟨hs, hrest⟩ := Bool.and_eq_true_iff.mp h
    have hrun := ih hrest
    rw [play_cons]
    cases hn : (s.threads t).next with
    | none =>
      have hstay : s.play inputs [t] = (s, inputs) := by simp only [play, hn]
      rw [hstay] at hrun ⊢
      exact hrun
    | some c =>
      rw [hn] at hs
      exact .head ⟨play_step inputs (by rw [hn]; rfl), hs⟩ hrun

end Server

/-- The bytes of a client that greets and sends one command. -/
def clientBytes (t : UInt8) (payload body : Bytes) : Bytes :=
  frameBytes T_HELLO [] ++ frameBytes t payload ++ body

/-- The payload of a PUT. -/
def putPayload (fileSize : Nat) (digest name : Bytes) : Bytes :=
  toBE 8 fileSize ++ digest ++ toBE 2 name.length ++ name

/-- The payload of a GET. -/
def getPayload (offset : Nat) (token name : Bytes) : Bytes :=
  toBE 8 offset ++ token ++ toBE 2 name.length ++ name

/-! ## Reading the log -/

/-- The upload a PUT frame asks for. -/
def uploadOf (r : Request) : Option PutRequest :=
  if r.2.type = T_PUT then (parsePut r.2.payload).toOption else none

namespace Event

/-- The bytes a successful `recv` brought. -/
def data : Event T → Bytes
  | ⟨_, _, .recv _, .ok c, _⟩ => c
  | _ => []

/-- The event belongs to request `r` of session `t`. -/
def Of (e : Event T) (t : T) (r : Request) : Prop := e.sid = t ∧ e.request = some r

/-- The event belongs to the upload `u`. -/
def Uploads (e : Event T) (u : PutRequest) : Prop := ∃ r, e.request = some r ∧ uploadOf r = some u

/-- `os.link(p, n)` succeeded. -/
def Links (p n : Bytes) : Event T → Prop
  | ⟨_, _, .fs (.link p' n'), .ok (), _⟩ => p' = p ∧ n' = n
  | _ => False

/-- The partial and the name of a link that succeeded. -/
def linked : Event T → Option (Bytes × Bytes)
  | ⟨_, _, .fs (.link p n), .ok (), _⟩ => some (p, n)
  | _ => none

theorem links_iff {e : Event T} {p n : Bytes} : e.Links p n ↔ e.linked = some (p, n) := by
  unfold Links linked
  split <;> simp

instance (e : Event T) (p n : Bytes) : Decidable (e.Links p n) := decidable_of_iff _ links_iff.symm

/-- The bytes were handed to `sendall`. -/
def Sends (e : Event T) (b : Bytes) : Prop := e.op = .send b

/-- The first reply to a PUT, with the offset the server offers to resume from. -/
def Offers (e : Event T) (x : Nat) : Prop := x < 256 ^ 8 ∧ e.Sends (offerFrame x)

/-- The bytes were sent. -/
def Told (b : Bytes) : Event T → Prop
  | ⟨_, _, .send b', .ok (), _⟩ => b' = b
  | _ => False

/-- The client was not there any more, or the network failed. -/
def Interrupted : Event T → Prop
  | ⟨_, _, .recv _, .ok c, _⟩ => c = []
  | ⟨_, _, .recv _, .error _, _⟩ => True
  | ⟨_, _, .send _, .error _, _⟩ => True
  | _ => False

/-- The bytes handed to `sendall`. -/
def out (e : Event T) : Bytes :=
  match e.op with
  | .send b => b
  | _ => []

instance [DecidableEq T] (e : Event T) (t : T) (r : Request) : Decidable (e.Of t r) :=
  inferInstanceAs (Decidable (_ ∧ _))

instance (e : Event T) : Decidable e.Interrupted :=
  match e with
  | ⟨_, _, .recv _, .ok c, _⟩ => inferInstanceAs (Decidable (c = []))
  | ⟨_, _, .recv _, .error _, _⟩ => .isTrue trivial
  | ⟨_, _, .send _, .ok _, _⟩ => .isFalse id
  | ⟨_, _, .send _, .error _, _⟩ => .isTrue trivial
  | ⟨_, _, .fs _, _, _⟩ => .isFalse id
  | ⟨_, _, .reserve _, _, _⟩ => .isFalse id
  | ⟨_, _, .discard _, _, _⟩ => .isFalse id

end Event

/-- All the bytes a request has received beyond its frame. -/
def received [DecidableEq T] (t : T) (r : Request) : List (Event T) → Bytes
  | [] => []
  | e :: past => received t r past ++ if e.Of t r then e.data else []

/-- All the bytes a request has handed to `sendall`. -/
def replied [DecidableEq T] (t : T) (r : Request) : List (Event T) → Bytes
  | [] => []
  | e :: past => replied t r past ++ if e.Of t r then e.out else []

end Retriever
