/-
# Retriever.Server.Locked — `_in_flight_lock`, operation by operation

In `Retriever.Server` the two sections under `_in_flight_lock` are operations of their own, `reserve` and
`discard`. Here they are what they are in the source: the lock is acquired and released, and between that
the set is looked at and changed; the rejection of an upload that is in flight is sent while the lock is
held; an exception releases the lock. Sessions take turns between any two of these operations.

* `locked_refines`: this server does nothing that the other does not do. Every run of it, with any number
  of sessions and any clients, has the same filesystem and the same log of what was received, sent and done
  to files as a run of the server with the two operations.
* `locked_guarded`: `_in_flight` is touched by the session that holds the lock only, and the sessions never
  all wait for each other.
-/
import Retriever.Server.World

namespace Retriever

/-- An operation outside the two sections. -/
def Sys.Plain : Sys → Bool
  | .reserve _ | .discard _ => false
  | _ => true

namespace Locked

/-- The operations. `member`, `add` and `drop` are `in`, `add` and `discard` on `_in_flight`. -/
inductive Op where
  | sys (o : { o : Sys // o.Plain = true })
  | acquire
  | release
  | member (p : Bytes)
  | add (p : Bytes)
  | drop (p : Bytes)

abbrev Op.Ans : Op → Type
  | .sys o => o.1.Ans
  | .member _ => Bool
  | .acquire | .release | .add _ | .drop _ => Unit

/-- The operations on the set, and the release of the lock. -/
def Op.Guarded : Op → Prop
  | .sys _ | .acquire => False
  | .release | .member _ | .add _ | .drop _ => True

abbrev Prog := Proc Op Op.Ans Exn

/-- `with _in_flight_lock: body` -/
def withLock {α : Type} (body : Prog α) : Prog α := do
  Proc.perform Op.acquire
  Proc.ensure (Proc.perform Op.release) body

/-- An operation of `Retriever.Server`. -/
def carryOut : (o : Sys) → Prog o.Ans
  | .recv n => Proc.perform (Op.sys ⟨.recv n, rfl⟩)
  | .send b => Proc.perform (Op.sys ⟨.send b, rfl⟩)
  | .fs o => Proc.perform (Op.sys ⟨.fs o, rfl⟩)
  | .reserve p => withLock do
    if ← Proc.perform (Op.member p) then return false
    else do
      Proc.perform (Op.add p)
      return true
  | .discard p => withLock (Proc.perform (Op.drop p))

/-- A program of `Retriever.Server`. -/
def lift {α : Type} (p : Py α) : Prog α := p.interp carryOut

/-- The first section of `handle_put`; `false` is its `return`. -/
def enter (partialPath : Bytes) : Prog Bool := withLock do
  if ← Proc.perform (Op.member partialPath) then do
    lift (sendError E_ALREADY_EXISTS "an upload of this file is in progress".toList)
    return false
  else do
    Proc.perform (Op.add partialPath)
    return true

def handlePut (payload : Bytes) : Prog Unit := do
  let req ← lift (Proc.ofExcept (parsePut payload))
  if checkFilename req.name = false then lift (sendError E_BAD_NAME "invalid filename".toList)
  else if req.fileSize > MAX_FILE_SIZE then
    lift (sendError E_TOO_LARGE
      ("file exceeds the ".toList ++ Nat.toDigits 10 MAX_FILE_SIZE ++ " byte limit".toList))
  else if ← lift (Py.pathExists req.path) then
    lift (sendError E_ALREADY_EXISTS "file already exists on server".toList)
  else if (← enter req.partialPath) = false then return ()
  else
    Proc.ensure (withLock (Proc.perform (Op.drop req.partialPath)))
      (lift (receiveUpload req.path req.partialPath req.fileSize req.digest))

/-- The rest of the loop body; `false` leaves the loop. -/
def dispatch (f : Frame) : Prog Bool :=
  if f.type = T_QUIT then do lift (writeFrame T_OK []); return false
  else if f.type = T_LIST then do lift handleList; return true
  else if f.type = T_GET then do lift (handleGet f.payload); return true
  else if f.type = T_PUT then do handlePut f.payload; return true
  else throw (.frameError E_MALFORMED "expected a command frame".toList)

/-! ## Sessions -/

inductive Session where
  | greeting (p : Prog Unit)
  | awaiting (n : Nat) (p : Prog (Option Frame))
  | serving (r : Request) (p : Prog Bool)
  | failing (r : Option Request) (p : Prog Unit)
  | closed

namespace Session

def settleFailing (r : Option Request) : Prog Unit → Session
  | .done _ | .raise _ => closed
  | .call o k => failing r (.call o k)

def fail (r : Option Request) (e : Exn) : Session := settleFailing r (lift (onError e))

def settleServing (r : Request) : Prog Bool → Session
  | .done true => awaiting (r.1 + 1) (lift nextFrame)
  | .done false => closed
  | .raise e => fail (some r) e
  | .call o k => serving r (.call o k)

def settleAwaiting (n : Nat) : Prog (Option Frame) → Session
  | .done (some f) => settleServing (n, f) (dispatch f)
  | .done none => closed
  | .raise e => fail none e
  | .call o k => awaiting n (.call o k)

def settleGreeting : Prog Unit → Session
  | .done _ => awaiting 0 (lift nextFrame)
  | .raise e => fail none e
  | .call o k => greeting (.call o k)

/-- A connection that has just been accepted. -/
def accepted : Session := greeting (lift greet)

/-- The operation a session performs next and what becomes of it with the answer. -/
def next : Session → Option ((o : Op) × (o.Ans → Session))
  | greeting (.call o k) => some ⟨o, fun a => settleGreeting (k a)⟩
  | awaiting n (.call o k) => some ⟨o, fun a => settleAwaiting n (k a)⟩
  | serving r (.call o k) => some ⟨o, fun a => settleServing r (k a)⟩
  | failing r (.call o k) => some ⟨o, fun a => settleFailing r (k a)⟩
  | _ => none

/-- The request a session is busy with. -/
def request : Session → Option Request
  | serving r _ => some r
  | failing r _ => r
  | _ => none

end Session

/-! ## The server -/

variable {T : Type}

/-- The shared state, with the session that holds the lock. What is done to the lock and to the set is
not in the log. -/
structure World (T : Type) where
  os : Os
  inFlight : Finset Bytes
  lock : Option T
  log : List (Event T)

/-- One operation of session `t`. A session that acquires the lock waits until it is free. -/
def World.Exec (t : T) (l : Session) (w : World T) : (o : Op) → o.Ans → World T → Prop
  | .sys o, a, w' =>
    (⟨w.os, w.inFlight, w.log⟩ : Retriever.World T).Answers o.1 a w'.os w'.inFlight ∧
      w'.lock = w.lock ∧ w'.log = ⟨t, l.request, o.1, a, w'.os⟩ :: w.log
  | .acquire, _, w' => w.lock = none ∧ w' = { w with lock := some t }
  | .release, _, w' => w' = { w with lock := none }
  | .member p, a, w' => a = decide (p ∈ w.inFlight) ∧ w' = w
  | .add p, _, w' => w' = { w with inFlight := insert p w.inFlight }
  | .drop p, _, w' => w' = { w with inFlight := w.inFlight.erase p }

abbrev Server (T : Type) := Pool T Session (World T)

namespace Server

variable [DecidableEq T]

abbrev Step : Server T → Server T → Prop := Pool.Step Session.next World.Exec

abbrev Run : Server T → Server T → Prop := Pool.Run Session.next World.Exec

/-- A server that has just started on a directory. -/
def start (T : Type) (os : Os) : Server T := ⟨⟨os, ∅, none, []⟩, fun _ => Session.accepted⟩

end Server

/-! ## Runs that can be computed -/

/-- One operation with a client that has `input` left to send; nothing where the lock is not free. -/
def World.perform (w : World T) (t : T) (r : Option Request) (input : Bytes) :
    (o : Op) → Option (o.Ans × World T × Bytes)
  | .sys o =>
    let (a, w', rest) := (⟨w.os, w.inFlight, w.log⟩ : Retriever.World T).perform t r input o.1
    some (a, ⟨w'.os, w'.inFlight, w.lock, w'.log⟩, rest)
  | .acquire => if w.lock.isNone then some ((), { w with lock := some t }, input) else none
  | .release => some ((), { w with lock := none }, input)
  | .member p => some (decide (p ∈ w.inFlight), w, input)
  | .add p => some ((), { w with inFlight := insert p w.inFlight }, input)
  | .drop p => some ((), { w with inFlight := w.inFlight.erase p }, input)

theorem World.perform_exec {w w' : World T} {t : T} {l : Session} {input rest : Bytes} {o : Op} {a : o.Ans}
    (h : w.perform t l.request input o = some (a, w', rest)) : World.Exec t l w o a w' := by
  cases o with
  | sys o =>
    cases h
    exact ⟨(Retriever.World.perform_exec _ t (.failing l.request (.done ())) input o.1).1, rfl,
      (Retriever.World.perform_exec _ t (.failing l.request (.done ())) input o.1).2⟩
  | acquire =>
    simp only [World.perform] at h
    split at h
    · next hw =>
      cases h
      exact ⟨Option.isNone_iff_eq_none.mp hw, rfl⟩
    · cases h
  | release =>
    cases h
    exact rfl
  | member p =>
    cases h
    exact ⟨rfl, rfl⟩
  | add p =>
    cases h
    exact rfl
  | drop p =>
    cases h
    exact rfl

/-- Sessions take turns as the schedule says. A turn of a session that has ended or waits for the lock is
skipped. -/
def Server.play [DecidableEq T] (s : Server T) (inputs : T → Bytes) : List T → Server T
  | [] => s
  | t :: ts =>
    match (s.threads t).next with
    | none => play s inputs ts
    | some ⟨o, k⟩ =>
      match s.world.perform t (s.threads t).request (inputs t) o with
      | none => play s inputs ts
      | some (a, w, rest) =>
        play ⟨w, Function.update s.threads t (k a)⟩ (Function.update inputs t rest) ts

theorem Server.play_run [DecidableEq T] (s : Server T) (inputs : T → Bytes) (ts : List T) :
    Run s (s.play inputs ts) := by
  induction ts generalizing s inputs with
  | nil => exact .refl
  | cons t ts ih =>
    rw [play]
    split
    · exact ih s inputs
    · next o k hn =>
      split
      · exact ih s inputs
      · next a w rest hp => exact .head (.mk hn (World.perform_exec hp)) (ih _ _)

/-! ## Programs -/

/-- Where a session stands with the lock. Between `in` and `add` it knows that the name is not there. -/
inductive Stage where
  | free
  | held
  | adding (p : Bytes)
  deriving DecidableEq

/-- The rejection of an upload that is in flight. -/
def busyFrame : Bytes :=
  frameBytes T_ERROR (errorPayload E_ALREADY_EXISTS "an upload of this file is in progress".toList)

/-- The program on the left does what the one on the right does. The look at the set is the `reserve`,
whatever else the section does with the set is nothing there. Under the lock nothing but the rejection is
sent, and no file is touched. -/
inductive Sim {α : Type} : Stage → Prog α → Py α → Prop
  | done (a : α) : Sim .free (.done a) (.done a)
  | raise (e : Exn) : Sim .free (.raise e) (.raise e)
  | sys {st : Stage} (o : { o : Sys // o.Plain = true }) {k : o.1.Ans → Prog α} {k' : o.1.Ans → Py α} :
      st = .free ∨ o.1 = .send busyFrame → (∀ a, Sim st (k a) (k' a)) →
      Sim st (.call (.sys o) k) (.call o.1 k')
  | acquire {k : Unit → Prog α} {q : Py α} : Sim .held (k ()) q → Sim .free (.call .acquire k) q
  | release {k : Unit → Prog α} {q : Py α} : Sim .free (k ()) q → Sim .held (.call .release k) q
  | reserve {p : Bytes} {k : Bool → Prog α} {k' : Bool → Py α} :
      Sim .held (k true) (k' false) → Sim (.adding p) (k false) (k' true) →
      Sim .held (.call (.member p) k) (.call (.reserve p) k')
  | add {p : Bytes} {k : Unit → Prog α} {q : Py α} :
      Sim .held (k ()) q → Sim (.adding p) (.call (.add p) k) q
  | discard {p : Bytes} {k : Unit → Prog α} {k' : Unit → Py α} :
      Sim .held (k ()) (k' ()) → Sim .held (.call (.drop p) k) (.call (.discard p) k')

section Programs

variable {α β : Type} {st : Stage}

theorem sim_bind {p : Prog α} {q : Py α} {f : α → Prog β} {g : α → Py β} (h : Sim st p q)
    (hf : ∀ a, Sim .free (f a) (g a)) : Sim st (p >>= f) (q >>= g) := by
  induction h with
  | done a => exact hf a
  | raise e => exact .raise e
  | sys o ho _ ih => exact .sys o ho ih
  | acquire _ ih => exact .acquire ih
  | release _ ih => exact .release ih
  | reserve _ _ ih ih' => exact .reserve ih ih'
  | add _ ih => exact .add ih
  | discard _ ih => exact .discard ih

theorem sim_ensure {p : Prog α} {q : Py α} {fin : Prog Unit} {fin' : Py Unit} (h : Sim st p q)
    (hfin : Sim .free fin fin') : Sim st (Proc.ensure fin p) (Proc.ensure fin' q) := by
  induction h with
  | done a => exact sim_bind hfin fun _ => .done a
  | raise e => exact sim_bind hfin fun _ => .raise e
  | sys o ho _ ih => exact .sys o ho ih
  | acquire _ ih => exact .acquire ih
  | release _ ih => exact .release ih
  | reserve _ _ ih ih' => exact .reserve ih ih'
  | add _ ih => exact .add ih
  | discard _ ih => exact .discard ih

theorem sim_carryOut (o : Sys) : Sim .free (carryOut o) (Proc.perform o) := by
  cases o with
  | recv n => exact .sys ⟨.recv n, rfl⟩ (.inl rfl) .done
  | send b => exact .sys ⟨.send b, rfl⟩ (.inl rfl) .done
  | fs o => exact .sys ⟨.fs o, rfl⟩ (.inl rfl) .done
  | reserve p => exact .acquire (.reserve (.release (.done false)) (.add (.release (.done true))))
  | discard p => exact .acquire (.discard (.release (.done ())))

theorem sim_lift (p : Py α) : Sim .free (lift p) p := by
  induction p with
  | done a => exact .done a
  | raise e => exact .raise e
  | call o k ih => exact sim_bind (sim_carryOut o) ih

end Programs

theorem Sim.busy {α : Type} {st : Stage} {p : Prog α} {q : Py α} (h : Sim st p q) (hst : st ≠ .free) :
    ∃ o k, p = .call o k := by
  cases h with
  | done a => exact absurd rfl hst
  | raise e => exact absurd rfl hst
  | acquire _ => exact absurd rfl hst
  | sys o _ _ => exact ⟨_, _, rfl⟩
  | release _ => exact ⟨_, _, rfl⟩
  | reserve _ _ => exact ⟨_, _, rfl⟩
  | add _ => exact ⟨_, _, rfl⟩
  | discard _ => exact ⟨_, _, rfl⟩

/-- The rejection is sent before the lock is released. -/
theorem sim_enter (p : Bytes) {f : Prog Unit} {g : Py Unit} (h : Sim .free f g) :
    Sim .free (enter p >>= fun b => if b = false then return () else f)
      (Py.reserve p >>= fun b =>
        if b = false then sendError E_ALREADY_EXISTS "an upload of this file is in progress".toList
        else g) := by
  have hmsg := encode_short (t := "an upload of this file is in progress".toList) (by decide)
  refine .acquire (.reserve ?_ (.add (.release h)))
  change Sim .held (Proc.ensure (Proc.perform Op.release) (lift (sendError _ _) >>= fun _ => pure false) >>= _)
    (sendError _ _)
  rw [sendError_eq hmsg]
  refine .sys ⟨.send _, rfl⟩ (.inr rfl) fun a => ?_
  cases a with
  | ok u => exact .release (.done u)
  | error e => exact .release (.raise _)

theorem sim_handlePut (payload : Bytes) :
    Sim .free (handlePut payload) (Retriever.handlePut payload) := by
  refine sim_bind (sim_lift _) fun req => ?_
  split
  · exact sim_lift _
  split
  · exact sim_lift _
  refine sim_bind (sim_lift _) fun found => ?_
  split
  · exact sim_lift _
  · exact sim_enter _ (sim_ensure (sim_lift _) (sim_carryOut (.discard _)))

theorem sim_dispatch (f : Frame) : Sim .free (dispatch f) (Retriever.dispatch f) := by
  unfold dispatch Retriever.dispatch
  split
  · exact sim_bind (sim_lift _) fun _ => .done false
  split
  · exact sim_bind (sim_lift _) fun _ => .done true
  split
  · exact sim_bind (sim_lift _) fun _ => .done true
  split
  · exact sim_bind (sim_handlePut _) fun _ => .done true
  · exact .raise _

/-! ## Sessions that do what other sessions do -/

/-- The session on the left does what the one on the right does. A session that still has to release the
lock is already in the next mode there. -/
inductive Session.Sim : Stage → Session → Retriever.Session → Prop
  | greeting {st : Stage} {p : Prog Unit} {q : Py Unit} :
      Locked.Sim st p q → Session.Sim st (.greeting p) (.settleGreeting q)
  | awaiting {st : Stage} {n : Nat} {p : Prog (Option Frame)} {q : Py (Option Frame)} :
      Locked.Sim st p q → Session.Sim st (.awaiting n p) (.settleAwaiting n q)
  | serving {st : Stage} {r : Request} {p : Prog Bool} {q : Py Bool} :
      Locked.Sim st p q → Session.Sim st (.serving r p) (.settleServing r q)
  | failing {st : Stage} {r : Option Request} {p : Prog Unit} {q : Py Unit} :
      Locked.Sim st p q → Session.Sim st (.failing r p) (.settleFailing r q)
  | closed : Session.Sim .free .closed .closed

namespace Session

variable {st : Stage}

theorem sim_settleFailing (r : Option Request) {p : Prog Unit} {q : Py Unit} (h : Locked.Sim st p q) :
    Sim st (settleFailing r p) (.settleFailing r q) := by
  cases p with
  | call o k => exact .failing h
  | done a =>
    cases h
    exact .closed
  | raise e =>
    cases h
    exact .closed

theorem sim_fail (r : Option Request) (e : Exn) : Sim .free (fail r e) (.fail r e) :=
  sim_settleFailing r (sim_lift _)

theorem sim_nextFrame (n : Nat) : Sim .free (awaiting n (lift nextFrame)) (.awaiting n nextFrame) :=
  .awaiting (q := nextFrame) (sim_lift _)

theorem sim_settleServing (r : Request) {p : Prog Bool} {q : Py Bool} (h : Locked.Sim st p q) :
    Sim st (settleServing r p) (.settleServing r q) := by
  cases p with
  | call o k => exact .serving h
  | done a =>
    cases h
    cases a with
    | true => exact sim_nextFrame _
    | false => exact .closed
  | raise e =>
    cases h
    exact sim_fail _ e

theorem sim_settleAwaiting (n : Nat) {p : Prog (Option Frame)} {q : Py (Option Frame)}
    (h : Locked.Sim st p q) : Sim st (settleAwaiting n p) (.settleAwaiting n q) := by
  cases p with
  | call o k => exact .awaiting h
  | done a =>
    cases h
    cases a with
    | some f => exact sim_settleServing _ (sim_dispatch f)
    | none => exact .closed
  | raise e =>
    cases h
    exact sim_fail _ e

theorem sim_settleGreeting {p : Prog Unit} {q : Py Unit} (h : Locked.Sim st p q) :
    Sim st (settleGreeting p) (.settleGreeting q) := by
  cases p with
  | call o k => exact .greeting h
  | done a =>
    cases h
    exact sim_nextFrame 0
  | raise e =>
    cases h
    exact sim_fail _ e

/-- What the session `c` on the other side does when one with request `r`, which stands at `st`, performs
an operation. -/
def Moves (st : Stage) (r : Option Request) (c : Retriever.Session) : (o : Op) → (o.Ans → Session) → Prop
  | .sys o, k => (st = .free ∨ o.1 = .send busyFrame) ∧
      ∃ k', c.next = some ⟨o.1, k'⟩ ∧ c.request = r ∧ ∀ a, Sim st (k a) (k' a)
  | .acquire, k => st = .free ∧ Sim .held (k ()) c
  | .release, k => st = .held ∧ Sim .free (k ()) c
  | .member p, k => st = .held ∧ ∃ k', c.next = some ⟨.reserve p, k'⟩ ∧
      Sim .held (k true) (k' false) ∧ Sim (.adding p) (k false) (k' true)
  | .add p, k => st = .adding p ∧ Sim .held (k ()) c
  | .drop p, k => st = .held ∧ ∃ k', c.next = some ⟨.discard p, k'⟩ ∧ Sim .held (k ()) (k' ())

/-- One mode: `settle` and `settle'` say what becomes of a program there. -/
theorem moves_of_sim {α : Type} {settle : Prog α → Session} {settle' : Py α → Retriever.Session}
    {r : Option Request} (hsim : ∀ {st p q}, Locked.Sim st p q → Sim st (settle p) (settle' q))
    (hnext : ∀ o k, (settle' (.call o k)).next = some ⟨o, fun a => settle' (k a)⟩)
    (hreq : ∀ o k, (settle' (.call o k)).request = r) {o : Op} {k : o.Ans → Prog α} {q : Py α}
    (h : Locked.Sim st (.call o k) q) : Moves st r (settle' q) o fun a => settle (k a) := by
  cases h with
  | sys o ho hk => exact ⟨ho, _, hnext _ _, hreq _ _, fun a => hsim (hk a)⟩
  | acquire hk => exact ⟨rfl, hsim hk⟩
  | release hk => exact ⟨rfl, hsim hk⟩
  | reserve ht hf => exact ⟨rfl, _, hnext _ _, hsim ht, hsim hf⟩
  | add hk => exact ⟨rfl, hsim hk⟩
  | discard hk => exact ⟨rfl, _, hnext _ _, hsim hk⟩

theorem Sim.moves {l : Session} {c : Retriever.Session} {o : Op} {k : o.Ans → Session}
    (h : Sim st l c) (hn : l.next = some ⟨o, k⟩) : Moves st l.request c o k := by
  cases h with
  | closed => cases hn
  | @greeting _ p q h =>
    cases p with
    | call o k =>
      cases hn
      exact moves_of_sim sim_settleGreeting (fun _ _ => rfl) (fun _ _ => rfl) h
    | done a => cases hn
    | raise e => cases hn
  | @awaiting _ n p q h =>
    cases p with
    | call o k =>
      cases hn
      exact moves_of_sim (sim_settleAwaiting n) (fun _ _ => rfl) (fun _ _ => rfl) h
    | done a => cases hn
    | raise e => cases hn
  | @serving _ r p q h =>
    cases p with
    | call o k =>
      cases hn
      exact moves_of_sim (sim_settleServing r) (fun _ _ => rfl) (fun _ _ => rfl) h
    | done a => cases hn
    | raise e => cases hn
  | @failing _ r p q h =>
    cases p with
    | call o k =>
      cases hn
      exact moves_of_sim (sim_settleFailing r) (fun _ _ => rfl) (fun _ _ => rfl) h
    | done a => cases hn
    | raise e => cases hn

theorem Moves.holds {r : Option Request} {c : Retriever.Session} {o : Op} {k : o.Ans → Session}
    (h : Moves st r c o k) (ho : o.Guarded) : st ≠ .free := by
  cases o with
  | sys o => exact ho.elim
  | acquire => exact ho.elim
  | release => exact h.1 ▸ nofun
  | member p => exact h.1 ▸ nofun
  | add p => exact h.1 ▸ nofun
  | drop p => exact h.1 ▸ nofun

theorem Moves.guarded {r : Option Request} {c : Retriever.Session} {o : Op} {k : o.Ans → Session}
    (h : Moves st r c o k) (hst : st ≠ .free) : o.Guarded ∨ ∃ h, o = .sys ⟨.send busyFrame, h⟩ := by
  cases o with
  | sys o => exact .inr ⟨rfl, congrArg Op.sys (Subtype.ext (h.1.resolve_left hst))⟩
  | acquire => exact absurd h.1 hst
  | release => exact .inl trivial
  | member p => exact .inl trivial
  | add p => exact .inl trivial
  | drop p => exact .inl trivial

/-- A session that has to do with the lock is not at its end. -/
theorem Sim.busy {l : Session} {c : Retriever.Session} (h : Sim st l c) (hst : st ≠ .free) :
    ∃ o k, l.next = some ⟨o, k⟩ := by
  cases h with
  | closed => exact absurd rfl hst
  | greeting h =>
    obtain ⟨o, k, rfl⟩ := h.busy hst
    exact ⟨o, _, rfl⟩
  | awaiting h =>
    obtain ⟨o, k, rfl⟩ := h.busy hst
    exact ⟨o, _, rfl⟩
  | serving h =>
    obtain ⟨o, k, rfl⟩ := h.busy hst
    exact ⟨o, _, rfl⟩
  | failing h =>
    obtain ⟨o, k, rfl⟩ := h.busy hst
    exact ⟨o, _, rfl⟩

end Session

/-! ## The shared state -/

/-- The shared state on the left stands for the one on the right: the lock is with the session that is not
free, and a name that is looked for and not yet added is already there on the right. -/
structure Abs (w : World T) (c : Retriever.World T) (st : T → Stage) : Prop where
  os : c.os = w.os
  log : (c.log.filter fun e => e.op.Plain) = w.log
  lock : ∀ t, st t ≠ .free ↔ w.lock = some t
  inFlight : ∀ p, p ∈ c.inFlight ↔ p ∈ w.inFlight ∨ ∃ t, st t = .adding p

namespace Abs

variable {w : World T} {c : Retriever.World T} {st : T → Stage} {t : T}

theorem alone (h : Abs w c st) {u : T} (ht : st t ≠ .free) (hu : st u ≠ .free) : u = t :=
  Option.some.inj (((h.lock u).mp hu).symm.trans ((h.lock t).mp ht))

/-- The two sets are the same while a session that adds nothing holds the lock. -/
theorem mem_iff (h : Abs w c st) (ht : st t = .held) (p : Bytes) : p ∈ c.inFlight ↔ p ∈ w.inFlight := by
  refine (h.inFlight p).trans (or_iff_left ?_)
  rintro ⟨u, hu⟩
  have hut : u = t := h.alone (by rw [ht]; exact nofun) (by rw [hu]; exact nofun)
  rw [hut, ht] at hu
  cases hu

variable [DecidableEq T]

/-- The session with the lock keeps it. -/
theorem lock_update (h : Abs w c st) (ht : st t ≠ .free) {ph : Stage} (hph : ph ≠ .free) (u : T) :
    Function.update st t ph u ≠ .free ↔ w.lock = some u := by
  by_cases hu : u = t
  · subst hu
    rw [Function.update_self]
    exact iff_of_true hph ((h.lock u).mp ht)
  · rw [Function.update_of_ne hu]
    exact h.lock u

/-- The only name to be added is that of the session with the lock. -/
theorem adding_update (h : Abs w c st) (ht : st t ≠ .free) (ph : Stage) (p : Bytes) :
    (∃ u, Function.update st t ph u = .adding p) ↔ ph = .adding p := by
  constructor
  · rintro ⟨u, hu⟩
    by_cases hut : u = t
    · subst hut
      rwa [Function.update_self] at hu
    · rw [Function.update_of_ne hut] at hu
      exact absurd (h.alone ht (by rw [hu]; exact nofun)) hut
  · intro hp
    exact ⟨t, by rw [Function.update_self, hp]⟩

theorem acquire (h : Abs w c st) (hw : w.lock = none) :
    Abs { w with lock := some t } c (Function.update st t .held) := by
  have hfree : ∀ u, st u = .free := by
    intro u
    by_contra hu
    have hlock := (h.lock u).mp hu
    rw [hw] at hlock
    cases hlock
  refine ⟨h.os, h.log, fun u => ?_, fun p => (h.inFlight p).trans (or_congr_right ?_)⟩
  · by_cases hu : u = t
    · subst hu
      rw [Function.update_self]
      exact iff_of_true nofun rfl
    · rw [Function.update_of_ne hu]
      exact iff_of_false (fun hn => hn (hfree u)) fun he => hu (Option.some.inj he).symm
  · constructor
    · rintro ⟨u, hu⟩
      rw [hfree u] at hu
      cases hu
    · rintro ⟨u, hu⟩
      by_cases hut : u = t
      · subst hut
        rw [Function.update_self] at hu
        cases hu
      · rw [Function.update_of_ne hut, hfree u] at hu
        cases hu

theorem release (h : Abs w c st) (ht : st t = .held) :
    Abs { w with lock := none } c (Function.update st t .free) := by
  have htf : st t ≠ .free := by rw [ht]; exact nofun
  refine ⟨h.os, h.log, fun u => iff_of_false ?_ nofun, fun p => (h.mem_iff ht p).trans ?_⟩
  · by_cases hu : u = t
    · subst hu
      rw [Function.update_self]
      exact fun hn => hn rfl
    · rw [Function.update_of_ne hu]
      exact fun hn => hu (h.alone htf hn)
  · rw [h.adding_update htf]
    exact (or_iff_left nofun).symm

theorem add {p : Bytes} (h : Abs w c st) (ht : st t = .adding p) :
    Abs { w with inFlight := insert p w.inFlight } c (Function.update st t .held) := by
  have htf : st t ≠ .free := by rw [ht]; exact nofun
  refine ⟨h.os, h.log, h.lock_update htf nofun, fun q => (h.inFlight q).trans ?_⟩
  have hadd := h.adding_update htf (st t) q
  rw [Function.update_eq_self, ht] at hadd
  rw [hadd, h.adding_update htf, Finset.mem_insert, Stage.adding.injEq]
  constructor
  · rintro (hq | rfl)
    · exact .inl (.inr hq)
    · exact .inl (.inl rfl)
  · rintro ((rfl | hq) | hq)
    · exact .inr rfl
    · exact .inl hq
    · cases hq

/-- The set changes on both sides. -/
theorem edit (h : Abs w c st) (ht : st t = .held) {e : Event T} (he : e.op.Plain = false) {ph : Stage}
    (hph : ph ≠ .free) {fl fl' : Finset Bytes} (hfl : ∀ q, q ∈ fl' ↔ q ∈ fl ∨ ph = .adding q) :
    Abs { w with inFlight := fl } ⟨c.os, fl', e :: c.log⟩ (Function.update st t ph) := by
  have htf : st t ≠ .free := by rw [ht]; exact nofun
  refine ⟨h.os, ?_, h.lock_update htf hph, fun q => ?_⟩
  · rw [List.filter_cons_of_neg (by rw [he]; exact nofun)]
    exact h.log
  · rw [h.adding_update htf]
    exact hfl q

end Abs

/-- Outside the two sections `_in_flight` plays no role. -/
theorem answers_of_plain {w : Retriever.World T} {o : Sys} {a : o.Ans} {os : Os} {fl : Finset Bytes}
    (ho : o.Plain = true) (h : w.Answers o a os fl) :
    fl = w.inFlight ∧ ∀ {c : Retriever.World T}, c.os = w.os → c.Answers o a os c.inFlight := by
  cases o with
  | recv n => exact ⟨h.2.2, fun hc => ⟨h.1, h.2.1.trans hc.symm, rfl⟩⟩
  | send b => exact ⟨h.2.2, fun hc => ⟨h.1, h.2.1.trans hc.symm, rfl⟩⟩
  | fs o => exact ⟨h.2.2, fun hc => ⟨hc ▸ h.1, hc ▸ h.2.1, rfl⟩⟩
  | reserve p => cases ho
  | discard p => cases ho

/-- One operation. -/
theorem sim_step [DecidableEq T] {w w₁ : World T} {c : Retriever.World T} {st : T → Stage} {t : T}
    {l : Session} {l' : Retriever.Session} {o : Op} {k : o.Ans → Session} {a : o.Ans} (h : Abs w c st)
    (hl : Session.Sim (st t) l l') (hn : l.next = some ⟨o, k⟩) (hx : World.Exec t l w o a w₁) :
    (∃ ph, Session.Sim ph (k a) l' ∧ Abs w₁ c (Function.update st t ph)) ∨
    ∃ ph o' k' a' c₁, l'.next = some ⟨o', k'⟩ ∧ Retriever.World.Exec t l' c o' a' c₁ ∧
      Session.Sim ph (k a) (k' a') ∧ Abs w₁ c₁ (Function.update st t ph) := by
  have hm := hl.moves hn
  cases o with
  | acquire =>
    obtain ⟨hw, rfl⟩ := hx
    exact .inl ⟨.held, hm.2, h.acquire hw⟩
  | release =>
    obtain rfl := hx
    exact .inl ⟨.free, hm.2, h.release hm.1⟩
  | add p =>
    obtain rfl := hx
    exact .inl ⟨.held, hm.2, h.add hm.1⟩
  | drop p =>
    obtain rfl := hx
    obtain ⟨ht, k', hn', hk⟩ := hm
    refine .inr ⟨.held, _, k', (), ⟨c.os, c.inFlight.erase p,
      ⟨t, l'.request, .discard p, (), c.os⟩ :: c.log⟩, hn', ⟨⟨rfl, rfl⟩, rfl⟩, hk, ?_⟩
    apply h.edit ht
    · rfl
    · exact nofun
    · intro q
      rw [Finset.mem_erase, Finset.mem_erase, h.mem_iff ht]
      exact (or_iff_left nofun).symm
  | member p =>
    obtain ⟨rfl, rfl⟩ := hx
    obtain ⟨ht, k', hn', hkt, hkf⟩ := hm
    have hans : (decide (p ∉ c.inFlight)) = !decide (p ∈ w₁.inFlight) := by
      rw [← decide_not, decide_eq_decide, h.mem_iff ht]
    by_cases hp : p ∈ w₁.inFlight
    · refine .inr ⟨.held, _, k', false, ⟨c.os, insert p c.inFlight,
        ⟨t, l'.request, .reserve p, false, c.os⟩ :: c.log⟩, hn',
        ⟨⟨by rw [hans, decide_eq_true hp]; rfl, rfl, rfl⟩, rfl⟩, by rwa [decide_eq_true hp], ?_⟩
      apply h.edit ht
      · rfl
      · exact nofun
      · intro q
        rw [Finset.insert_eq_self.mpr ((h.mem_iff ht p).mpr hp), h.mem_iff ht]
        exact (or_iff_left nofun).symm
    · refine .inr ⟨.adding p, _, k', true, ⟨c.os, insert p c.inFlight,
        ⟨t, l'.request, .reserve p, true, c.os⟩ :: c.log⟩, hn',
        ⟨⟨by rw [hans, decide_eq_false hp]; rfl, rfl, rfl⟩, rfl⟩, by rwa [decide_eq_false hp], ?_⟩
      apply h.edit ht
      · rfl
      · exact nofun
      · intro q
        rw [Finset.mem_insert, h.mem_iff ht, Stage.adding.injEq, or_comm, eq_comm]
  | sys o =>
    obtain ⟨-, k', hn', hreq, hk⟩ := hm
    obtain ⟨hans, hlock, hlog⟩ := hx
    obtain ⟨hfl, hans'⟩ := answers_of_plain o.2 hans
    refine .inr ⟨st t, o.1, k', a, ⟨w₁.os, c.inFlight, ⟨t, l'.request, o.1, a, w₁.os⟩ :: c.log⟩, hn',
      ⟨hans' h.os, rfl⟩, hk a, ?_⟩
    rw [Function.update_eq_self]
    refine ⟨rfl, ?_, fun u => ?_, fun p => ?_⟩
    · rw [hlog, ← h.log, ← hreq]
      exact List.filter_cons_of_pos o.2
    · rw [hlock]
      exact h.lock u
    · rw [hfl]
      exact h.inFlight p

/-! ## Every run -/

theorem abs_start (os : Os) :
    Pool.Mirrors Session.Sim Abs (Server.start T os) (Retriever.Server.start T os) := by
  refine ⟨fun _ => .free, ⟨rfl, rfl, fun t => iff_of_false (fun h => h rfl) nofun, fun p => ?_⟩, fun t => ?_⟩
  · refine iff_of_false (Finset.notMem_empty p) ?_
    rintro (hp | ⟨t, ht⟩)
    · exact Finset.notMem_empty p hp
    · cases ht
  · exact .greeting (q := greet) (sim_lift _)

/-- A run, and the run of the other server with it. -/
theorem exists_abs [DecidableEq T] {os : Os} {s : Server T} (hr : Server.Run (Server.start T os) s) :
    ∃ c, Retriever.Server.Run (Retriever.Server.start T os) c ∧ Pool.Mirrors Session.Sim Abs s c :=
  Pool.sim_pool (R := Abs) (fun _ _ _ _ _ _ _ _ _ _ h hl hn hx => sim_step h hl hn hx) hr (abs_start os)

/-- Every operation can be performed, unless it is for a lock that is not free. -/
theorem exists_exec (t : T) (l : Session) (w : World T) {o : Op} (ho : o = .acquire → w.lock = none) :
    ∃ a w', World.Exec t l w o a w' := by
  cases o with
  | sys o =>
    obtain ⟨a, os, fl, h⟩ : ∃ a os fl,
        (⟨w.os, w.inFlight, w.log⟩ : Retriever.World T).Answers o.1 a os fl :=
      ⟨_, _, _, (Retriever.World.perform_exec _ t .closed [] o.1).1⟩
    exact ⟨a, ⟨os, fl, w.lock, ⟨t, l.request, o.1, a, os⟩ :: w.log⟩, h, rfl, rfl⟩
  | acquire => exact ⟨(), _, ho rfl, rfl⟩
  | release => exact ⟨(), _, rfl⟩
  | member p => exact ⟨_, _, rfl, rfl⟩
  | add p => exact ⟨(), _, rfl⟩
  | drop p => exact ⟨(), _, rfl⟩

end Locked

/-- **Refinement.** Whatever sessions and clients do, the server with the lock has the filesystem and the
log of a run of the server whose two sections are one operation each. When nobody holds the lock, it has its
`_in_flight` too. -/
theorem locked_refines {T : Type} [DecidableEq T] {os : Os} {s : Locked.Server T}
    (hr : Locked.Server.Run (Locked.Server.start T os) s) :
    ∃ c, Server.Run (Server.start T os) c ∧ c.world.os = s.world.os ∧
      (c.world.log.filter fun e => e.op.Plain) = s.world.log ∧
      (s.world.lock = none → c.world.inFlight = s.world.inFlight) := by
  obtain ⟨c, hrun, st, habs, -⟩ := Locked.exists_abs hr
  refine ⟨c, hrun, habs.os, habs.log, fun hlock => ?_⟩
  ext p
  refine (habs.inFlight p).trans (or_iff_left ?_)
  rintro ⟨t, ht⟩
  have hheld := (habs.lock t).mp (by rw [ht]; exact nofun)
  rw [hlock] at hheld
  cases hheld

/-- Two clients upload the same file: the first is let in, then the second takes `n` turns. -/
def Locked.secondUpload (n : Nat) : Server Bool :=
  (Server.start Bool Os.empty).play
    (fun _ => clientBytes T_PUT (putPayload 1 (List.replicate 32 0) (ascii "a")) [])
    (List.replicate 10 false ++ List.replicate n true)

/-- The second client is told that an upload is in progress, and the lock is free again. -/
theorem locked_refines_secondUpload :
    (Locked.secondUpload 9).world.lock = none ∧
    ((Locked.secondUpload 9).world.log.any fun e => decide (e.op = .send Locked.busyFrame)) = true ∧
    ∃ c, Server.Run (Server.start Bool Os.empty) c ∧ c.world.os = (Locked.secondUpload 9).world.os ∧
      (c.world.log.filter fun e => e.op.Plain) = (Locked.secondUpload 9).world.log ∧
      ((Locked.secondUpload 9).world.lock = none →
        c.world.inFlight = (Locked.secondUpload 9).world.inFlight) :=
  ⟨by decide +kernel, by decide +kernel, locked_refines (Locked.Server.play_run _ _ _)⟩

/-- **The lock.** In every state that a run reaches, a session that is about to touch `_in_flight` or to
release the lock has the lock; a session that has it is about to do just that, or to send the rejection; and
as long as some session is not at its end, some session can go on. -/
theorem locked_guarded {T : Type} [DecidableEq T] {os : Os} {s : Locked.Server T}
    (hr : Locked.Server.Run (Locked.Server.start T os) s) :
    (∀ t o k, (s.threads t).next = some ⟨o, k⟩ → o.Guarded → s.world.lock = some t) ∧
    (∀ t, s.world.lock = some t → ∃ o k, (s.threads t).next = some ⟨o, k⟩ ∧
      (o.Guarded ∨ ∃ h, o = .sys ⟨.send Locked.busyFrame, h⟩)) ∧
    ((∃ t, (s.threads t).next ≠ none) → ∃ s', Locked.Server.Step s s') := by
  obtain ⟨c, -, st, habs, hsim⟩ := Locked.exists_abs hr
  have hholder : ∀ t, s.world.lock = some t → ∃ o k, (s.threads t).next = some ⟨o, k⟩ ∧
      (o.Guarded ∨ ∃ h, o = .sys ⟨.send Locked.busyFrame, h⟩) := by
    intro t ht
    have hst := (habs.lock t).mpr ht
    obtain ⟨o, k, hn⟩ := (hsim t).busy hst
    exact ⟨o, k, hn, ((hsim t).moves hn).guarded hst⟩
  refine ⟨fun t o k hn ho => (habs.lock t).mp (((hsim t).moves hn).holds ho), hholder, ?_⟩
  rintro ⟨t, ht⟩
  cases hlock : s.world.lock with
  | none =>
    obtain ⟨⟨o, k⟩, hn⟩ := Option.ne_none_iff_exists'.mp ht
    obtain ⟨a, w, hx⟩ := Locked.exists_exec t (s.threads t) s.world fun _ => hlock
    exact ⟨_, .mk hn hx⟩
  | some u =>
    obtain ⟨o, k, hn, ho⟩ := hholder u hlock
    have hne : o ≠ .acquire := by
      rcases ho with ho | ⟨-, rfl⟩
      · rintro rfl
        exact ho
      · exact nofun
    obtain ⟨a, w, hx⟩ := Locked.exists_exec u (s.threads u) s.world fun h => absurd h hne
    exact ⟨_, .mk hn hx⟩

/-- The second client is about to be told, and the lock is held meanwhile. -/
theorem locked_guarded_secondUpload :
    (Locked.secondUpload 7).world.lock = some true ∧
    (∃ o k, ((Locked.secondUpload 7).threads true).next = some ⟨o, k⟩ ∧
      (o.Guarded ∨ ∃ h, o = .sys ⟨.send Locked.busyFrame, h⟩)) ∧
    ∃ s', Locked.Server.Step (Locked.secondUpload 7) s' := by
  have hlock : (Locked.secondUpload 7).world.lock = some true := by decide +kernel
  obtain ⟨-, hholder, hstep⟩ :=
    locked_guarded (s := Locked.secondUpload 7) (Locked.Server.play_run _ _ _)
  obtain ⟨o, k, hn, ho⟩ := hholder true hlock
  exact ⟨hlock, ⟨o, k, hn, ho⟩, hstep ⟨true, by rw [hn]; exact nofun⟩⟩

end Retriever
