/-
# Retriever.Statuses — the exit statuses of the two clients

`main.c` says that its exit codes match those of the Python client, so that scripts see one contract. Each
client makes its status from the disk, the command line and the bytes of the server; this module says
when the two come to the same number.
-/
import Retriever.Completions
import Retriever.ExitCodes

namespace Retriever

open Proc (Yields Runs)

/-! ## What Python makes of the server -/

/-- `read_frame` accepts the front of the stream. -/
def Readable (stream : Bytes) : Prop := ∃ f rest, scanFrame stream = (.ok f, rest)

/-- The stream starts with an ERROR frame that can be taken apart. -/
def Declines (stream : Bytes) : Prop :=
  ∃ f rest, scanFrame stream = (.ok f, rest) ∧ f.type = T_ERROR ∧ Framed f.payload ∧
    IsUtf8 (f.payload.drop 3)

/-- Python finds a problem on its side of the disk. -/
def IsLocal (os : Os) : Command → Prop
  | .list => False
  | .get filename output => os.at? (getDest filename output) ≠ none
  | .put filename _ => ¬ ∃ i, os.at? filename = some (.file i)

/-- Python is refused. -/
def Refused (os : Os) : Command → Bytes → Prop
  | .list, s => Declines s
  | .get filename output, s => os.at? (getDest filename output) = none ∧
      (∀ q, os.leftover (getDest filename output) = some q → os.at? q ≠ none) ∧ Sendable filename ∧
      Declines s
  | .put filename remoteName, s => (∃ i, os.at? filename = some (.file i)) ∧
      Sendable (putRemote filename remoteName) ∧ (Declines s ∨
        ∃ f rest, scanFrame s = (.ok f, rest) ∧ f.type ≠ T_ERROR ∧
          ofBE (f.payload.take 8) < OFF_MAX ∧ Declines rest)

/-- Python comes to the end of the command, reports it, and its goodbye is answered. -/
def Finishes (os : Os) (command : Command) (s : Bytes) : Prop :=
  Does os Readable command s ∧ command.Prints

/-- The command is done, and the goodbye is answered. -/
def Ending.Finished (o : Ending) : Prop := o.Done Readable

section Endings

variable {os : Os} {s : Bytes}

theorem errorEnding_refused {payload : Bytes} : errorEnding payload = .failed .refused ↔
    Framed payload ∧ IsUtf8 (payload.drop 3) := by
  apply (errorEnding_iff (P := fun o => o = .failed .refused) (by simp)).trans
  simp

theorem errorEnding_ne_isLocal (payload : Bytes) : errorEnding payload ≠ .failed .isLocal := by
  intro h
  obtain ⟨-, ⟨-, h⟩ | ⟨-, h⟩⟩ := (errorEnding_iff (P := fun o => o = .failed .isLocal) (by simp)).mp h
  · cases h
  · cases h

/-- What the server sends is no problem of the local disk. -/
theorem replyEnding_ne_isLocal {next : Bytes → Bytes → Ending}
    (hnext : ∀ payload rest, next payload rest ≠ .failed .isLocal) :
    replyEnding s next ≠ .failed .isLocal := by
  intro h
  rcases (replyEnding_iff (P := fun o => o = .failed .isLocal) (by simp)).mp h with
    ⟨f, rest, -, -, h⟩ | ⟨f, rest, -, -, h⟩
  · exact errorEnding_ne_isLocal _ h
  · exact hnext _ _ h

theorem replyEnding_refused {next : Bytes → Bytes → Ending} :
    replyEnding s next = .failed .refused ↔ Declines s ∨
      ∃ f rest, scanFrame s = (.ok f, rest) ∧ f.type ≠ T_ERROR ∧
        next f.payload rest = .failed .refused := by
  refine (replyEnding_iff (P := fun o => o = .failed .refused) (by simp)).trans (or_congr_left ?_)
  exact exists_congr fun f => exists_congr fun rest => and_congr_right fun _ => and_congr_right fun _ =>
    errorEnding_refused

theorem listEnding_refused : listEnding s = .failed .refused ↔ Declines s := by
  refine replyEnding_refused.trans (or_iff_left ?_)
  rintro ⟨f, rest, -, -, h⟩
  split at h <;> cases h

theorem putEnding_refused {path name : Bytes} : putEnding os path name s = .failed .refused ↔
    (∃ i, os.at? path = some (.file i)) ∧ Sendable name ∧ (Declines s ∨
      ∃ f rest, scanFrame s = (.ok f, rest) ∧ f.type ≠ T_ERROR ∧ ofBE (f.payload.take 8) < OFF_MAX ∧
        Declines rest) := by
  have hreply : ∀ payload rest : Bytes, (if ofBE (payload.take 8) < OFF_MAX then
      replyEnding rest fun _ rest' => .done rest' else .failed .escaped) = .failed .refused ↔
      ofBE (payload.take 8) < OFF_MAX ∧ Declines rest := by
    intro payload rest
    split
    · next h => simp [replyEnding_refused, h]
    · next h => simp [h]
  apply (putEnding_iff (P := fun o => o = .failed .refused)).trans
  simp only [replyEnding_refused, hreply]
  simp

theorem getEnding_refused {filename dest : Bytes} : getEnding os filename dest s = .failed .refused ↔
    os.at? dest = none ∧ (∀ q, os.leftover dest = some q → os.at? q ≠ none) ∧ Sendable filename ∧
      Declines s := by
  apply (getEnding_iff (P := fun o => o = .failed .refused) (by simp)).trans
  have hreply : getReplyEnding os dest (os.leftover dest) s = .failed .refused ↔ Declines s := by
    apply (getReplyEnding_iff (P := fun o => o = .failed .refused) (by simp)).trans
    simp only [errorEnding_refused, reduceCtorEq, and_false, false_or]
    rfl
  simp only [hreply]
  simp

theorem Command.ending_refused (command : Command) :
    command.ending os s = .failed .refused ↔ Refused os command s := by
  refine (Ending.printed_failed (by decide)).trans ?_
  cases command with
  | list => exact listEnding_refused
  | get filename output => exact getEnding_refused
  | put filename remoteName => exact putEnding_refused

theorem Command.ending_finished (command : Command) :
    (command.ending os s).Finished ↔ Finishes os command s :=
  Ending.printed_done.trans (and_congr_left fun _ => command.workEnding_done)

theorem Command.ending_isLocal (command : Command) :
    command.ending os s = .failed .isLocal ↔ IsLocal os command := by
  refine (Ending.printed_failed (by decide)).trans ?_
  cases command with
  | list =>
    have hlist : listEnding s ≠ .failed .isLocal := by
      refine replyEnding_ne_isLocal fun payload rest => ?_
      split <;> simp
    exact iff_of_false hlist not_false
  | get filename output =>
    apply (getEnding_iff (P := fun o => o = .failed .isLocal) (by simp)).trans
    have hreply : getReplyEnding os (getDest filename output) (os.leftover (getDest filename output)) s ≠
        .failed .isLocal := by
      intro h
      rcases (getReplyEnding_iff (P := fun o => o = .failed .isLocal) (by simp)).mp h with
        ⟨-, -, h⟩ | ⟨f, rest, -, -, h⟩
      · cases h
      · exact errorEnding_ne_isLocal _ h
    simp [hreply, IsLocal]
  | put filename remoteName =>
    apply (putEnding_iff (P := fun o => o = .failed .isLocal)).trans
    have hreply : ∀ payload rest : Bytes, (if ofBE (payload.take 8) < OFF_MAX then
        replyEnding rest fun _ rest' => .done rest' else .failed .escaped) ≠ .failed .isLocal := by
      intro payload rest
      split
      · exact replyEnding_ne_isLocal fun _ _ => by simp
      · simp
    simp [replyEnding_ne_isLocal hreply, IsLocal]

end Endings

/-! ## The statuses -/

open Classical in
/-- The exit status that comes of an ending: the goodbye is made after a command that is done. -/
noncomputable def Ending.status : Ending → Nat
  | .done rest => if Readable rest then 0 else EXIT_CONN
  | .failed .isLocal => EXIT_LOCAL
  | .failed .refused => EXIT_SERVER
  | .failed .escaped => 1
  | .failed .lost => EXIT_CONN

namespace Ending

variable {o : Ending}

theorem status_eq_zero : o.status = 0 ↔ o.Finished := by
  cases o with
  | done rest =>
    by_cases h : Readable rest
    · simp [status, Finished, Done, h]
    · simp [status, Finished, Done, h, EXIT_CONN]
  | failed why => cases why <;> simp [status, Finished, Done, EXIT_LOCAL, EXIT_SERVER, EXIT_CONN]

theorem status_eq_one : o.status = 1 ↔ o = .failed .refused ∨ o = .failed .escaped := by
  cases o with
  | done rest =>
    by_cases h : Readable rest
    · simp [status, h]
    · simp [status, h, EXIT_CONN]
  | failed why => cases why <;> simp [status, EXIT_LOCAL, EXIT_SERVER, EXIT_CONN]

theorem status_eq_three : o.status = EXIT_CONN ↔
    o ≠ .failed .isLocal ∧ o ≠ .failed .refused ∧ o ≠ .failed .escaped ∧ ¬ o.Finished := by
  cases o with
  | done rest =>
    by_cases h : Readable rest
    · simp [status, Finished, Done, h, EXIT_CONN]
    · simp [status, Finished, Done, h]
  | failed why => cases why <;> simp [status, Finished, Done, EXIT_LOCAL, EXIT_SERVER, EXIT_CONN]

end Ending

/-- The exit status of the Python client: the handshake, and then the command. -/
def Exits (os : Os) (command : Command) (stream : Bytes) (status : Nat) : Prop :=
  (¬ ∃ f rest, scanFrame stream = (.ok f, rest) ∧ f.type ≠ T_ERROR) ∧ status = 1 ∨
  ∃ f rest, scanFrame stream = (.ok f, rest) ∧ f.type ≠ T_ERROR ∧
    status = (command.ending os rest).status

section Main

variable {m : Machine Wire}

/-- The status that comes of an exception, after the handlers. -/
theorem handle_status {e : Exn} {o : Ending} (he : e.ending = some o) {Q : Unit → Machine Wire → Prop} :
    (handle e).wp Net.wire.env Q (fun e _ => exitStatus (.error e) = o.status) m := by
  cases e with
  | frameError reason message =>
    cases he
    rfl
  | sys e =>
    cases he
    cases e <;> rfl
  | overflowError =>
    cases he
    rfl
  | unicodeError =>
    cases he
    rfl
  | exit code message =>
    show code = o.status
    rcases Exn.ending_exit he with ⟨hc, rfl⟩ | ⟨hc, rfl⟩ | ⟨hc, rfl⟩
    · exact hc
    · exact hc
    · exact hc

/-- The command and the goodbye, inside the `try`. -/
theorem runAndQuit_exits (m : Machine Wire) (command : Command) :
    ((runAndQuit command).tryCatch handle).wp Net.wire.env
      (fun _ _ => 0 = (command.ending m.os m.net.input).status)
      (fun e _ => exitStatus (.error e) = (command.ending m.os m.net.input).status) m := by
  refine Proc.wp_tryCatch.mpr (Proc.wp_bind.mpr (Proc.wp_mono (command.run_ends m) ?_ ?_))
  · intro _ m' hdone
    rw [hdone]
    refine Proc.wp_bind.mpr (writeFrame_wp (by decide) (Proc.wp_bind.mpr (readFrame_wp ?_ ?_)))
    · intro e rest hs
      have hno : ¬ Readable m'.net.input := by
        rintro ⟨f, rest', hs'⟩
        cases hs.symm.trans hs'
      rw [show (Ending.done m'.net.input).status = (Ending.failed .lost).status from if_neg hno]
      exact handle_status (scanFrame_onWire hs).ending
    · intro f rest hs
      exact (if_pos ⟨f, rest, hs⟩).symm
  · exact fun e m' he => handle_status he

/-- Whatever goes wrong in the handshake, the status is 1. -/
theorem Exn.OnWire.exitStatus {e : Exn} (h : e.OnWire) : exitStatus (.error e) = 1 := by
  cases e with
  | frameError reason message => rfl
  | sys e => rfl
  | _ => exact h.elim

theorem refuse_status {α : Type} {g : Text → Text} {payload : Bytes} {Q : α → Machine Wire → Prop} :
    (do let (_, message) ← Proc.ofExcept (unpackError payload)
        fail EXIT_SERVER (g message) : Py α).wp Net.wire.env Q (fun e _ => exitStatus (.error e) = 1) m := by
  rcases unpackError_cases payload with ⟨⟨x, hx⟩, -⟩ | ⟨hx, -⟩ | ⟨⟨reason, message, hx⟩, -⟩
  · rw [hx]
    rfl
  · rw [hx]
    rfl
  · rw [hx]
    rfl

theorem main_exits (m : Machine Wire) (command : Command) : (main command).wp Net.wire.env
    (fun _ _ => Exits m.os command m.net.input 0)
    (fun e _ => Exits m.os command m.net.input (exitStatus (.error e))) m := by
  rw [main_eq]
  refine Proc.wp_bind.mpr (Proc.wp_bind.mpr (writeFrame_wp (by decide) ?_))
  refine Proc.wp_bind.mpr (readFrame_wp ?_ ?_)
  · intro e rest hs
    refine .inl ⟨?_, (scanFrame_onWire hs).exitStatus⟩
    rintro ⟨f, rest', hs', -⟩
    cases hs.symm.trans hs'
  · intro f rest hs
    by_cases ht : f.type = T_ERROR
    · rw [if_pos ht]
      refine Proc.wp_mono refuse_status (fun _ _ h => h) fun e _ he => .inl ⟨?_, he⟩
      rintro ⟨f', rest', hs', ht'⟩
      cases hs.symm.trans hs'
      exact ht' ht
    · rw [if_neg ht]
      show ((runAndQuit command).tryCatch handle).wp _ _ _ _
      refine Proc.wp_mono (runAndQuit_exits (Machine.wired _ rest _) command) ?_ ?_
      · exact fun _ _ h => .inr ⟨f, rest, hs, ht, h⟩
      · exact fun _ _ h => .inr ⟨f, rest, hs, ht, h⟩

end Main

/-! ## One contract -/

/-- **Both clients come to their end with the same exit status.** -/
def SameStatus (os : Os) (command : Command) (stream : Bytes) : Prop :=
  ∃ status,
    Proc.Ensures Net.wire.env (main command) ⟨os, ∅, ⟨stream, []⟩⟩ (fun r _ => exitStatus r = status) ∧
    Proc.Ensures Net.wire.env (C.main command) ⟨os, ∅, ⟨stream, []⟩⟩ fun r _ => r = .ok status

/-- **When they do.** The handshake is answered by a frame that is no ERROR. If it is an OK, Python finishes
and C completes the command, or Python is refused or ends in a traceback and C does not complete the
command. If it is another frame, Python meets with none of these and with no problem on its disk. -/
def OneContract (os : Os) (command : Command) (stream : Bytes) : Prop :=
  ∃ f rest, scanFrame stream = (.ok f, rest) ∧ f.type ≠ T_ERROR ∧
    if f.type = T_OK then
      Finishes os command rest ∧ C.Completes os command rest ∨
      (Refused os command rest ∨ Escapes os command rest) ∧ ¬ C.Completes os command rest
    else
      ¬ IsLocal os command ∧ ¬ Refused os command rest ∧ ¬ Escapes os command rest ∧
        ¬ Finishes os command rest

section Contract

variable {os : Os} {command : Command} {stream : Bytes} {status status' : Nat}

theorem Exits.unique (h : Exits os command stream status) (h' : Exits os command stream status') :
    status = status' := by
  rcases h with ⟨hno, rfl⟩ | ⟨f, rest, hs, ht, rfl⟩ <;>
    rcases h' with ⟨hno', rfl⟩ | ⟨f', rest', hs', ht', rfl⟩
  · rfl
  · exact absurd ⟨f', rest', hs', ht'⟩ hno
  · exact absurd ⟨f, rest, hs, ht⟩ hno'
  · cases hs.symm.trans hs'
    rfl

theorem C.Exits.unique (h : C.Exits os command stream status) (h' : C.Exits os command stream status') :
    status = status' := by
  rcases h with ⟨hno, rfl⟩ | ⟨f, rest, hf, hc⟩ <;> rcases h' with ⟨hno', rfl⟩ | ⟨f', rest', hf', hc'⟩
  · rfl
  · exact absurd ⟨f', rest', hf'⟩ hno
  · exact absurd ⟨f, rest, hf⟩ hno'
  · obtain ⟨rfl, rfl⟩ := hf.unique hf'
    rcases hc with ⟨hc, rfl⟩ | ⟨hc, rfl⟩ <;> rcases hc' with ⟨hc', rfl⟩ | ⟨hc', rfl⟩
    · rfl
    · exact absurd hc hc'
    · exact absurd hc' hc
    · rfl

/-- The status of the Python client, whichever way it is run. -/
theorem ensures_exitStatus : Proc.Ensures Net.wire.env (main command) ⟨os, ∅, ⟨stream, []⟩⟩
    (fun r _ => exitStatus r = status) ↔ Exits os command stream status := by
  have hexits : ∀ r m', Runs Net.wire.env (main command) ⟨os, ∅, ⟨stream, []⟩⟩ r m' →
      Exits os command stream (exitStatus r) := by
    intro r m' hrun
    rcases Proc.wp_runs (main_exits ⟨os, ∅, ⟨stream, []⟩⟩ command) hrun with ⟨a, rfl, h⟩ | ⟨e, rfl, h⟩
    · exact h
    · exact h
  constructor
  · rintro ⟨⟨r, m', hrun⟩, hall⟩
    rw [← hall r m' hrun]
    exact hexits r m' hrun
  · intro h
    refine ⟨Proc.exists_runs Net.wire_live _ _, fun r m' hrun => ?_⟩
    exact (hexits r m' hrun).unique h

theorem C.ensures_exitStatus : Proc.Ensures Net.wire.env (C.main command) ⟨os, ∅, ⟨stream, []⟩⟩
    (fun r _ => r = .ok status) ↔ C.Exits os command stream status := by
  have hexits : ∀ r m', Runs Net.wire.env (C.main command) ⟨os, ∅, ⟨stream, []⟩⟩ r m' →
      ∃ status, r = .ok status ∧ C.Exits os command stream status := by
    intro r m' hrun
    rcases Proc.wp_runs (C.main_exits ⟨os, ∅, ⟨stream, []⟩⟩ command) hrun with ⟨a, rfl, h⟩ | ⟨e, -⟩
    · exact ⟨a, rfl, h⟩
    · exact e.elim
  constructor
  · rintro ⟨⟨r, m', hrun⟩, hall⟩
    obtain ⟨status', rfl, h⟩ := hexits r m' hrun
    cases hall _ m' hrun
    exact h
  · intro h
    refine ⟨Proc.exists_runs Net.wire_live _ _, fun r m' hrun => ?_⟩
    obtain ⟨status', rfl, h'⟩ := hexits r m' hrun
    rw [h'.unique h]

theorem Granted.not_error {rest : Bytes} {f : Frame} (h : Granted stream f rest) : f.type ≠ T_ERROR := by
  rw [h.2]
  decide

theorem oneContract_of_exits (hpy : Exits os command stream status)
    (hc : C.Exits os command stream status) : OneContract os command stream := by
  rcases hpy with ⟨hno, rfl⟩ | ⟨f, rest, hs, ht, rfl⟩
  · -- the handshake failed: 1 for Python, and for C 3
    rcases hc with ⟨-, h⟩ | ⟨f, rest, hf, -⟩
    · cases h
    · exact absurd ⟨f, rest, hf.1, hf.not_error⟩ hno
  refine ⟨f, rest, hs, ht, ?_⟩
  by_cases hok : f.type = T_OK
  · rw [if_pos hok]
    rcases hc with ⟨hno, -⟩ | ⟨f', rest', hf', h⟩
    · exact absurd ⟨f, rest, hs, hok⟩ hno
    obtain ⟨rfl, rfl⟩ := Granted.unique ⟨hs, hok⟩ hf'
    rcases h with ⟨hdone, h0⟩ | ⟨hnot, h1⟩
    · exact .inl ⟨command.ending_finished.mp (Ending.status_eq_zero.mp h0), hdone⟩
    · refine .inr ⟨?_, hnot⟩
      rw [← command.ending_refused, ← command.ending_escaped]
      exact Ending.status_eq_one.mp h1
  · rw [if_neg hok]
    rcases hc with ⟨-, h3⟩ | ⟨f', rest', hf', -⟩
    · rw [← command.ending_isLocal (s := rest), ← command.ending_refused, ← command.ending_escaped,
        ← command.ending_finished]
      exact Ending.status_eq_three.mp h3
    · cases hs.symm.trans hf'.1
      exact absurd hf'.2 hok

theorem exits_of_oneContract (h : OneContract os command stream) :
    ∃ status, Exits os command stream status ∧ C.Exits os command stream status := by
  obtain ⟨f, rest, hs, ht, h⟩ := h
  refine ⟨(command.ending os rest).status, .inr ⟨f, rest, hs, ht, rfl⟩, ?_⟩
  by_cases hok : f.type = T_OK
  · rw [if_pos hok] at h
    refine .inr ⟨f, rest, ⟨hs, hok⟩, ?_⟩
    rcases h with ⟨hfin, hdone⟩ | ⟨href, hnot⟩
    · exact .inl ⟨hdone, Ending.status_eq_zero.mpr (command.ending_finished.mpr hfin)⟩
    · rw [← command.ending_refused, ← command.ending_escaped] at href
      exact .inr ⟨hnot, Ending.status_eq_one.mpr href⟩
  · rw [if_neg hok] at h
    rw [← command.ending_isLocal (s := rest), ← command.ending_refused, ← command.ending_escaped,
      ← command.ending_finished] at h
    refine .inl ⟨?_, Ending.status_eq_three.mpr h⟩
    rintro ⟨f', rest', hf'⟩
    cases hs.symm.trans hf'.1
    exact hok hf'.2

end Contract

/-- **When the two clients have one exit-code contract.** -/
theorem same_status_iff (os : Os) (command : Command) (stream : Bytes) :
    SameStatus os command stream ↔ OneContract os command stream := by
  unfold SameStatus
  simp only [ensures_exitStatus, C.ensures_exitStatus]
  constructor
  · rintro ⟨status, hpy, hc⟩
    exact oneContract_of_exits hpy hc
  · exact exits_of_oneContract

/-- An upload of a file that is not there: 2 for Python, and for C 1. -/
theorem missing_file_statuses : ¬ SameStatus Os.empty (.put (ascii "f") none) okFrame := by
  rintro ⟨status, hpy, hc⟩
  obtain ⟨f, rest, hs, ht, h⟩ :=
    oneContract_of_exits (ensures_exitStatus.mp hpy) (C.ensures_exitStatus.mp hc)
  rw [scanFrame_okFrame] at hs
  cases hs
  have hfile : ¬ ∃ i, Os.empty.at? (ascii "f") = some (.file i) := by
    rintro ⟨i, hi⟩
    have hnone : Os.empty.at? (ascii "f") = none := by decide
    rw [hnone] at hi
    cases hi
  rw [if_pos rfl] at h
  rcases h with ⟨⟨hdoes, -⟩, -⟩ | ⟨href | htrips | ⟨hdoes, -⟩, -⟩
  · exact hfile hdoes.1
  · exact hfile href.1
  · exact hfile htrips.1
  · exact hfile hdoes.1

end Retriever
