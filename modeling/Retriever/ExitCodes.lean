/-
# Retriever.ExitCodes — what the shell sees

A script that calls a client sees its exit status. `main` of the Python client runs a command inside a
`try` that turns a failure of the connection into a documented exit code; the handshake is made before
it. Whether a traceback gets through is decided by what the server sends and, for names that cannot be
sent or printed, by the command line.
-/
import Retriever.Endings

namespace Retriever

open Proc (Yields Runs)

/-! ## Commands -/

/-- How the work of a command ends, before the line that closes it is printed. -/
noncomputable def Command.workEnding (os : Os) (stream : Bytes) : Command → Ending
  | .list => listEnding stream
  | .get filename output => getEnding os filename (getDest filename output) stream
  | .put filename remoteName => putEnding os filename (putRemote filename remoteName) stream

/-- The names in the line that closes a transfer can be printed. -/
def Command.Prints : Command → Prop
  | .list => True
  | .get filename output => IsUtf8 filename ∧ IsUtf8 (getDest filename output)
  | .put filename remoteName => IsUtf8 filename ∧ IsUtf8 (putRemote filename remoteName)

open Classical in
/-- Work that is done is reported, or the report ends in a traceback. -/
noncomputable def Ending.printed (prints : Prop) : Ending → Ending
  | .done rest => if prints then .done rest else .failed .escaped
  | .failed why => .failed why

/-- How a command ends. -/
noncomputable def Command.ending (os : Os) (stream : Bytes) (command : Command) : Ending :=
  (command.workEnding os stream).printed command.Prints

/-- The work is done, and what is left of the stream is of a kind. -/
def Ending.Done (Q : Bytes → Prop) : Ending → Prop
  | .done rest => Q rest
  | .failed _ => False

section Endings

variable {o : Ending} {prints : Prop} {Q : Bytes → Prop} {os : Os} {s : Bytes}

theorem Ending.printed_done : (o.printed prints).Done Q ↔ o.Done Q ∧ prints := by
  cases o with
  | done rest =>
    by_cases h : prints
    · simp [printed, Done, h]
    · simp [printed, Done, h]
  | failed why => simp [printed, Done]

theorem Ending.printed_escaped : o.printed prints = .failed .escaped ↔
    o = .failed .escaped ∨ o.Done (fun _ => True) ∧ ¬ prints := by
  cases o with
  | done rest =>
    by_cases h : prints
    · simp [printed, Done, h]
    · simp [printed, Done, h]
  | failed why => simp [printed, Done]

/-- Only a traceback comes of the report. -/
theorem Ending.printed_failed {why : Failure} (h : why ≠ .escaped) :
    o.printed prints = .failed why ↔ o = .failed why := by
  cases o with
  | done rest =>
    by_cases hp : prints
    · simp [printed, hp]
    · simp [printed, hp, h.symm]
  | failed why' => rfl

theorem Exn.ending_failed {e : Exn} (h : e.ending = some o) : ∃ why, o = .failed why := by
  cases e with
  | exit code message =>
    rcases Exn.ending_exit h with ⟨-, rfl⟩ | ⟨-, rfl⟩ | ⟨-, rfl⟩ <;> exact ⟨_, rfl⟩
  | _ => exact ⟨_, (Option.some.inj h).symm⟩

/-- A program and the line that closes it. -/
theorem Ends.printDone {p : Py Unit} {m : Machine Wire} (h : Ends p m o) (a b : Bytes) :
    Ends (do p; printDone a b) m (o.printed (IsUtf8 a ∧ IsUtf8 b)) := by
  refine Proc.wp_bind.mpr (Proc.wp_mono h ?_ ?_)
  · rintro _ m' rfl
    unfold Retriever.printDone
    by_cases ha : IsUtf8 a
    · rw [encodePath_ok_iff.mpr ha]
      by_cases hb : IsUtf8 b
      · rw [encodePath_ok_iff.mpr hb]
        exact if_pos ⟨ha, hb⟩
      · rw [encodePath_error hb]
        exact congrArg some (if_neg fun h => hb h.2).symm
    · rw [encodePath_error ha]
      exact congrArg some (if_neg fun h => ha h.1).symm
  · intro e m' he
    obtain ⟨why, rfl⟩ := Exn.ending_failed he
    exact he

theorem Command.run_ends (m : Machine Wire) (command : Command) :
    Ends command.run m (command.ending m.os m.net.input) := by
  cases command with
  | list =>
    have hlist : (Command.list).ending m.os m.net.input = listEnding m.net.input := by
      unfold Command.ending Command.workEnding
      cases listEnding m.net.input with
      | done rest => exact if_pos trivial
      | failed why => rfl
    rw [hlist]
    exact Proc.wp_bind.mpr (doList_ends m)
  | get filename output => exact (doGet_ends m filename output).printDone _ _
  | put filename remoteName => exact (doPut_ends m filename remoteName).printDone _ _

/-! ### Work that is done -/

theorem errorEnding_not_done (payload : Bytes) : ¬ (errorEnding payload).Done Q := by
  intro h
  obtain ⟨-, ⟨-, h⟩ | ⟨-, h⟩⟩ := (errorEnding_iff (P := Ending.Done Q) not_false).mp h
  · exact h
  · exact h

theorem replyEnding_done {next : Bytes → Bytes → Ending} :
    (replyEnding s next).Done Q ↔ ∃ f rest, scanFrame s = (.ok f, rest) ∧ f.type ≠ T_ERROR ∧
      (next f.payload rest).Done Q := by
  refine (replyEnding_iff (P := Ending.Done Q) not_false).trans (or_iff_right ?_)
  rintro ⟨f, rest, -, -, h⟩
  exact errorEnding_not_done _ h

theorem listEnding_done : (listEnding s).Done Q ↔
    ∃ f rest, scanFrame s = (.ok f, rest) ∧ f.type ≠ T_ERROR ∧ Legible f.payload ∧ Q rest := by
  refine replyEnding_done.trans (exists_congr fun f => exists_congr fun rest =>
    and_congr_right fun _ => and_congr_right fun _ => ?_)
  split
  · next h => exact (and_iff_right h).symm
  · next h => exact iff_of_false not_false fun hl => h hl.1

theorem putEnding_done {path name : Bytes} : (putEnding os path name s).Done Q ↔
    (∃ i, os.at? path = some (.file i)) ∧ Sendable name ∧
      ∃ f rest, scanFrame s = (.ok f, rest) ∧ f.type ≠ T_ERROR ∧ ofBE (f.payload.take 8) < OFF_MAX ∧
        ∃ f' rest', scanFrame rest = (.ok f', rest') ∧ f'.type ≠ T_ERROR ∧ Q rest' := by
  have hreply : ∀ payload rest : Bytes, Ending.Done Q (if ofBE (payload.take 8) < OFF_MAX then
      replyEnding rest fun _ rest' => .done rest' else .failed .escaped) ↔
      ofBE (payload.take 8) < OFF_MAX ∧
        ∃ f' rest', scanFrame rest = (.ok f', rest') ∧ f'.type ≠ T_ERROR ∧ Q rest' := by
    intro payload rest
    split
    · next h => exact replyEnding_done.trans (and_iff_right h).symm
    · next h => exact iff_of_false not_false fun hl => h hl.1
  apply putEnding_iff.trans
  simp only [replyEnding_done, hreply]
  simp [Ending.Done]

theorem getEnding_done {filename dest : Bytes} : (getEnding os filename dest s).Done Q ↔
    os.at? dest = none ∧ (∀ q, os.leftover dest = some q → os.at? q ≠ none) ∧ Sendable filename ∧
      Announced s ∧ os.Downloads dest (os.leftover dest) (metaOf s) (bodyOf s) ∧
      Q ((bodyOf s).drop (metaTotal (metaOf s) - metaStart (metaOf s))) := by
  apply (getEnding_iff not_false).trans
  have hreply : (getReplyEnding os dest (os.leftover dest) s).Done Q ↔ Announced s ∧
      os.Downloads dest (os.leftover dest) (metaOf s) (bodyOf s) ∧
      Q ((bodyOf s).drop (metaTotal (metaOf s) - metaStart (metaOf s))) := by
    refine (getReplyEnding_iff not_false).trans (or_iff_left ?_)
    rintro ⟨f, rest, -, -, h⟩
    exact errorEnding_not_done _ h
  simp only [hreply]
  simp [Ending.Done]

end Endings

/-- The work of a command is done, and what is left of the stream is of a kind. -/
def Does (os : Os) (Q : Bytes → Prop) : Command → Bytes → Prop
  | .list, s => ∃ f rest, scanFrame s = (.ok f, rest) ∧ f.type ≠ T_ERROR ∧ Legible f.payload ∧ Q rest
  | .get filename output, s => os.at? (getDest filename output) = none ∧
      (∀ q, os.leftover (getDest filename output) = some q → os.at? q ≠ none) ∧ Sendable filename ∧
      Announced s ∧
      os.Downloads (getDest filename output) (os.leftover (getDest filename output)) (metaOf s) (bodyOf s) ∧
      Q ((bodyOf s).drop (metaTotal (metaOf s) - metaStart (metaOf s)))
  | .put filename remoteName, s => (∃ i, os.at? filename = some (.file i)) ∧
      Sendable (putRemote filename remoteName) ∧
      ∃ f rest, scanFrame s = (.ok f, rest) ∧ f.type ≠ T_ERROR ∧ ofBE (f.payload.take 8) < OFF_MAX ∧
        ∃ f' rest', scanFrame rest = (.ok f', rest') ∧ f'.type ≠ T_ERROR ∧ Q rest'

theorem Command.workEnding_done {os : Os} {s : Bytes} {Q : Bytes → Prop} (command : Command) :
    (command.workEnding os s).Done Q ↔ Does os Q command s := by
  cases command with
  | list => exact listEnding_done
  | get filename output => exact getEnding_done
  | put filename remoteName => exact putEnding_done

/-! ## Tracebacks -/

/-- The stream starts with an ERROR frame whose message is not UTF-8. -/
def Garbles (stream : Bytes) : Prop :=
  ∃ f rest, scanFrame stream = (.ok f, rest) ∧ f.type = T_ERROR ∧ Framed f.payload ∧
    ¬ IsUtf8 (f.payload.drop 3)

/-- What makes the work of a command end in a traceback: a message or a name of the server that is not
UTF-8, an offset that no file has, a name that cannot be sent. -/
def Trips (os : Os) : Command → Bytes → Prop
  | .list, s => Garbles s ∨
      ∃ f rest, scanFrame s = (.ok f, rest) ∧ f.type ≠ T_ERROR ∧ ¬ Legible f.payload
  | .get filename output, s => os.at? (getDest filename output) = none ∧
      (∀ q, os.leftover (getDest filename output) = some q → os.at? q ≠ none) ∧
      (¬ Sendable filename ∨ Garbles s)
  | .put filename remoteName, s => (∃ i, os.at? filename = some (.file i)) ∧
      (¬ Sendable (putRemote filename remoteName) ∨ Garbles s ∨
        ∃ f rest, scanFrame s = (.ok f, rest) ∧ f.type ≠ T_ERROR ∧
          (OFF_MAX ≤ ofBE (f.payload.take 8) ∨ Garbles rest))

/-- **What makes a command end in a traceback**: its work does, or the work is done and its report names
what cannot be printed. -/
def Escapes (os : Os) (command : Command) (s : Bytes) : Prop :=
  Trips os command s ∨ Does os (fun _ => True) command s ∧ ¬ command.Prints

theorem errorEnding_escaped {payload : Bytes} : errorEnding payload = .failed .escaped ↔
    Framed payload ∧ ¬ IsUtf8 (payload.drop 3) := by
  apply (errorEnding_iff (P := fun o => o = .failed .escaped) (by simp)).trans
  simp

theorem replyEnding_escaped {s : Bytes} {next : Bytes → Bytes → Ending} :
    replyEnding s next = .failed .escaped ↔ Garbles s ∨
      ∃ f rest, scanFrame s = (.ok f, rest) ∧ f.type ≠ T_ERROR ∧
        next f.payload rest = .failed .escaped := by
  refine (replyEnding_iff (P := fun o => o = .failed .escaped) (by simp)).trans (or_congr_left ?_)
  exact exists_congr fun f => exists_congr fun rest => and_congr_right fun _ => and_congr_right fun _ =>
    errorEnding_escaped

theorem listEnding_escaped {s : Bytes} : listEnding s = .failed .escaped ↔ Garbles s ∨
    ∃ f rest, scanFrame s = (.ok f, rest) ∧ f.type ≠ T_ERROR ∧ ¬ Legible f.payload := by
  unfold listEnding
  rw [replyEnding_escaped]
  refine or_congr_right (exists_congr fun f => exists_congr fun rest =>
    and_congr_right fun _ => and_congr_right fun _ => ?_)
  split
  · next h => exact iff_of_false (by simp) (not_not.mpr h)
  · next h => exact iff_of_true rfl h

theorem putEnding_escaped {os : Os} {path name s : Bytes} : putEnding os path name s = .failed .escaped ↔
    (∃ i, os.at? path = some (.file i)) ∧ (¬ Sendable name ∨ Garbles s ∨
      ∃ f rest, scanFrame s = (.ok f, rest) ∧ f.type ≠ T_ERROR ∧
        (OFF_MAX ≤ ofBE (f.payload.take 8) ∨ Garbles rest)) := by
  have hreply : ∀ payload rest : Bytes, (if ofBE (payload.take 8) < OFF_MAX then
      replyEnding rest fun _ rest' => .done rest' else .failed .escaped) = .failed .escaped ↔
      OFF_MAX ≤ ofBE (payload.take 8) ∨ Garbles rest := by
    intro payload rest
    split
    · next h => simp [replyEnding_escaped, h]
    · next h => exact iff_of_true rfl (.inl (Nat.le_of_not_lt h))
  apply (putEnding_iff (P := fun o => o = .failed .escaped)).trans
  simp only [replyEnding_escaped, hreply]
  by_cases hname : Sendable name
  · simp [hname]
  · simp [hname]

theorem getReplyEnding_escaped {os : Os} {dest s : Bytes} {existing : Option Bytes} :
    getReplyEnding os dest existing s = .failed .escaped ↔ Garbles s := by
  apply (getReplyEnding_iff (P := fun o => o = .failed .escaped) (by simp)).trans
  simp only [errorEnding_escaped, reduceCtorEq, and_false, false_or]
  rfl

theorem getEnding_escaped {os : Os} {filename dest s : Bytes} :
    getEnding os filename dest s = .failed .escaped ↔ os.at? dest = none ∧
      (∀ q, os.leftover dest = some q → os.at? q ≠ none) ∧ (¬ Sendable filename ∨ Garbles s) := by
  apply (getEnding_iff (P := fun o => o = .failed .escaped) (by simp)).trans
  simp only [getReplyEnding_escaped]
  by_cases hname : Sendable filename
  · simp [hname]
  · simp [hname]

theorem Command.workEnding_escaped {os : Os} {s : Bytes} (command : Command) :
    command.workEnding os s = .failed .escaped ↔ Trips os command s := by
  cases command with
  | list => exact listEnding_escaped
  | get filename output => exact getEnding_escaped
  | put filename remoteName => exact putEnding_escaped

theorem Command.ending_escaped {os : Os} {s : Bytes} (command : Command) :
    command.ending os s = .failed .escaped ↔ Escapes os command s := by
  unfold Command.ending Escapes
  rw [Ending.printed_escaped, command.workEnding_escaped, command.workEnding_done]

/-! ## The handshake and the goodbye -/

/-- An exit code that is documented. -/
def Exn.Documented (e : Exn) : Prop :=
  ∃ code message, e = .exit code message ∧ (code = EXIT_SERVER ∨ code = EXIT_LOCAL ∨ code = EXIT_CONN)

/-- **The client fails cleanly**: it comes to its end, or `fail` ends it with a documented exit code. -/
def FailsCleanly (os : Os) (command : Command) (stream : Bytes) : Prop :=
  Proc.Ensures Net.wire.env (main command) ⟨os, ∅, ⟨stream, []⟩⟩
    fun r _ => r = .ok () ∨ ∃ e, r = .error e ∧ e.Documented

/-- The handshake is answered by a frame that `read_frame` accepts: by an ERROR that can be taken apart, or
by another one after which the command does not end in a traceback. -/
def AnsweredCleanly (os : Os) (command : Command) (stream : Bytes) : Prop :=
  ∃ f rest, scanFrame stream = (.ok f, rest) ∧
    if f.type = T_ERROR then Framed f.payload ∧ IsUtf8 (f.payload.drop 3) else ¬ Escapes os command rest

section Main

variable {m : Machine Wire} {os : Os} {command : Command} {stream : Bytes}

theorem Exn.OnWire.not_documented {e : Exn} (h : e.OnWire) : ¬ e.Documented := by
  rintro ⟨code, message, rfl, -⟩
  exact h

theorem documented_exit {code : Nat} {message : Text} {o : Ending}
    (h : (Exn.exit code message).ending = some o) :
    (Exn.exit code message).Documented ∧ o ≠ .failed .escaped := by
  rcases Exn.ending_exit h with ⟨hc, rfl⟩ | ⟨hc, rfl⟩ | ⟨hc, rfl⟩
  · exact ⟨⟨code, message, rfl, .inr (.inl hc)⟩, by decide⟩
  · exact ⟨⟨code, message, rfl, .inl hc⟩, by decide⟩
  · exact ⟨⟨code, message, rfl, .inr (.inr hc)⟩, by decide⟩

/-- The handlers of `main`. -/
def handle : Exn → Py Unit
  | .frameError _ message => fail EXIT_CONN ("protocol error: ".toList ++ message)
  | .sys .timeout => fail EXIT_CONN "server stopped responding".toList
  | .sys _ => fail EXIT_CONN "connection failed".toList
  | e => throw e

theorem main_eq (command : Command) : main command = (do
    connect
    (runAndQuit command).tryCatch handle) := rfl

/-- The handlers give every exception a documented exit code, or let it through. -/
theorem handle_wp {e : Exn} {o : Ending} (he : e.ending = some o) {Q : Unit → Machine Wire → Prop}
    {P : Prop} (hP : P ↔ o ≠ .failed .escaped) :
    (handle e).wp Net.wire.env Q (fun e _ => e.Documented ↔ P) m := by
  have hconn : ∀ message, (Exn.exit EXIT_CONN message).Documented := fun message =>
    ⟨EXIT_CONN, message, rfl, .inr (.inr rfl)⟩
  cases e with
  | frameError reason message =>
    cases he
    exact iff_of_true (hconn _) (hP.mpr (by decide))
  | sys e =>
    cases he
    cases e <;> exact iff_of_true (hconn _) (hP.mpr (by decide))
  | overflowError =>
    cases he
    exact iff_of_false (by rintro ⟨_, _, h, -⟩; cases h) (fun h => hP.mp h rfl)
  | unicodeError =>
    cases he
    exact iff_of_false (by rintro ⟨_, _, h, -⟩; cases h) (fun h => hP.mp h rfl)
  | exit code message =>
    obtain ⟨hdoc, hne⟩ := documented_exit he
    exact iff_of_true hdoc (hP.mpr hne)

/-- The command and the goodbye, inside the `try`. -/
theorem runAndQuit_wp {P : Prop} (hP : P ↔ ¬ Escapes m.os command m.net.input) :
    ((runAndQuit command).tryCatch handle).wp Net.wire.env (fun _ _ => P) (fun e _ => e.Documented ↔ P)
      m := by
  rw [← command.ending_escaped] at hP
  refine Proc.wp_tryCatch.mpr (Proc.wp_bind.mpr (Proc.wp_mono (command.run_ends m) ?_ ?_))
  · intro _ m' hdone
    rw [hdone] at hP
    have hp : P := hP.mpr (by simp)
    refine Proc.wp_bind.mpr (writeFrame_wp (by decide) (Proc.wp_bind.mpr (readFrame_wp ?_ ?_)))
    · intro e rest hs
      exact handle_wp (scanFrame_onWire hs).ending (iff_of_true hp (by decide))
    · exact fun _ _ _ => hp
  · intro e m' he
    exact handle_wp he hP

/-- A refusal of the handshake. -/
theorem refuse_documented {α : Type} {g : Text → Text} {payload : Bytes} {Q : α → Machine Wire → Prop}
    {P : Prop} (hP : P ↔ Framed payload ∧ IsUtf8 (payload.drop 3)) :
    (do let (_, message) ← Proc.ofExcept (unpackError payload)
        fail EXIT_SERVER (g message) : Py α).wp Net.wire.env Q (fun e _ => e.Documented ↔ P) m := by
  rcases unpackError_cases payload with ⟨⟨x, hx⟩, hf, hu⟩ | ⟨hx, hf, hu⟩ | ⟨⟨reason, message, hx⟩, hf⟩
  · rw [hx]
    exact iff_of_true ⟨EXIT_SERVER, g x.2, rfl, .inl rfl⟩ (hP.mpr ⟨hf, hu⟩)
  · rw [hx]
    exact iff_of_false (by rintro ⟨_, _, h, -⟩; cases h) fun h => hu (hP.mp h).2
  · rw [hx]
    exact iff_of_false (by rintro ⟨_, _, h, -⟩; cases h) fun h => hf (hP.mp h).1

theorem main_wp : (main command).wp Net.wire.env (fun _ _ => AnsweredCleanly os command stream)
    (fun e _ => e.Documented ↔ AnsweredCleanly os command stream) ⟨os, ∅, ⟨stream, []⟩⟩ := by
  rw [main_eq]
  refine Proc.wp_bind.mpr (Proc.wp_bind.mpr (writeFrame_wp (by decide) ?_))
  refine Proc.wp_bind.mpr (readFrame_wp ?_ ?_)
  · intro e rest hs
    apply iff_of_false (scanFrame_onWire hs).not_documented
    rintro ⟨f, rest', hs', -⟩
    cases hs.symm.trans hs'
  · intro f rest hs
    have hanswered : AnsweredCleanly os command stream ↔ if f.type = T_ERROR then
        Framed f.payload ∧ IsUtf8 (f.payload.drop 3) else ¬ Escapes os command rest := by
      constructor
      · rintro ⟨f', rest', hs', h⟩
        cases hs.symm.trans hs'
        exact h
      · exact fun h => ⟨f, rest, hs, h⟩
    by_cases ht : f.type = T_ERROR
    · rw [if_pos ht] at hanswered ⊢
      exact refuse_documented hanswered
    · rw [if_neg ht] at hanswered ⊢
      exact runAndQuit_wp (m := Machine.wired _ rest _) hanswered

theorem answeredCleanly (h : FailsCleanly os command stream) : AnsweredCleanly os command stream := by
  obtain ⟨⟨r, m', hrun⟩, hall⟩ := h
  have hclean := hall r m' hrun
  rcases Proc.wp_runs main_wp hrun with ⟨a, rfl, h⟩ | ⟨e, rfl, h⟩
  · exact h
  · rcases hclean with hok | ⟨e', he', hdoc⟩
    · cases hok
    · cases he'
      exact h.mp hdoc

end Main

/-- **The Python client fails cleanly if and only if the handshake is answered as it should be and nothing
makes the command end in a traceback.** -/
theorem fails_cleanly_iff (os : Os) (command : Command) (stream : Bytes) :
    FailsCleanly os command stream ↔ AnsweredCleanly os command stream := by
  refine ⟨answeredCleanly, fun h => ?_⟩
  refine Proc.ensures_of_wp Net.wire_live (Proc.wp_mono main_wp (fun _ _ _ => .inl rfl) ?_)
  exact fun e _ he => .inr ⟨e, rfl, he.mpr h⟩

/-- A server of another kind answers: the `FrameError` of the handshake is not caught. -/
theorem http_answer_escapes :
    ¬ FailsCleanly Os.empty .list (ascii "HTTP/1.1 400 Bad Request") := by
  intro h
  obtain ⟨f, rest, hs, -⟩ := answeredCleanly h
  have hbad : (scanFrame (ascii "HTTP/1.1 400 Bad Request")).1 =
      .error (.frameError E_UNSUPPORTED_VERSION "bad magic: not a retriever v2 peer".toList) := by
    decide +kernel
  rw [hs] at hbad
  cases hbad

end Retriever
