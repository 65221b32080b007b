/-
# Retriever.Network.Clients — a client and a connection that fails

A `recv` or a `sendall` that fails, and a `recv` that brings nothing where something was asked for, are the
end of a command: after such a fault neither client ends with the status 0, whatever comes then. The C client
says goodbye without looking at what comes back, so for it this holds up to the goodbye (`C.attempt`).
-/
import Retriever.Lib.Faults
import Retriever.Statuses

namespace Retriever

open Proc (Fragile Ends)

/-- The connection has failed, or the peer is gone. -/
def Sys.Fault : (o : Sys) → o.Ans → Prop
  | .recv n, .ok c => c = [] ∧ n ≠ 0
  | .recv _, .error _ => True
  | .send _, .ok _ => False
  | .send _, .error _ => True
  | .fs _, _ | .reserve _, _ | .discard _, _ => False

/-- The process does not end with 0. -/
def Exn.Fatal (e : Exn) : Prop := exitStatus (.error e) ≠ 0

/-! ## Python -/

/-- After a fault there is only an exception. -/
abbrev Upset {α : Type} (p : Py α) : Prop := p.Fragile Sys.Fault (fun _ => False) Exn.Fatal

/-- There is only an exception. -/
abbrev Doomed {α : Type} (p : Py α) : Prop := p.Ends (fun _ => False) Exn.Fatal

namespace Upset

variable {α β : Type}

theorem fatal_sys (e : SysErr) : (Exn.sys e).Fatal := Nat.one_ne_zero

theorem fatal_frame (reason : UInt8) (m : Text) : (Exn.frameError reason m).Fatal := Nat.one_ne_zero

theorem bind {p : Py α} {f : α → Py β} (hp : Upset p) (hf : ∀ a, Upset (f a)) : Upset (p >>= f) :=
  Fragile.bind hp (fun _ h => h.elim) hf

theorem doomed_fail {code : Nat} (h : code ≠ 0) (m : Text) : Doomed (fail code m : Py α) := h

theorem fail {code : Nat} (h : code ≠ 0) (m : Text) : Upset (fail code m : Py α) := h

theorem orRaise (x : Except SysErr α) : Upset (Py.orRaise x) := by
  cases x with
  | ok a => trivial
  | error e => exact fatal_sys e

/-- Programs that only look at the disk, or change it. -/
theorem fs (o : FsOp) (g : o.Ans → Except SysErr α) :
    Upset (Proc.perform (Sys.fs o) >>= fun a => Py.orRaise (g a)) :=
  fun a => ⟨fun h => h.elim, orRaise (g a)⟩

theorem stat (p : Bytes) : Upset (Py.stat p) := fun _ => ⟨fun h => h.elim, trivial⟩

theorem isfile (p : Bytes) : Upset (Py.isfile p) := (stat p).bind fun _ => trivial

theorem pathExists (p : Bytes) : Upset (Py.pathExists p) := (stat p).bind fun _ => trivial

theorem getsize (p : Bytes) : Upset (Py.getsize p) := by
  refine (stat p).bind fun st => ?_
  cases st with
  | none => exact fatal_sys _
  | some st => trivial

theorem readAll (i n fuel : Nat) (acc : Bytes) : Upset (Py.readAll i n fuel acc) := by
  induction fuel generalizing acc with
  | zero => exact fatal_sys _
  | succ fuel ih =>
    rw [Py.readAll]
    refine (fs (.read i acc.length n) id).bind fun chunk => ?_
    split
    · trivial
    · exact ih _

theorem sha256File (p : Bytes) : Upset (sha256File p) :=
  (fs (.openRb p) id).bind fun f => (readAll f _ _ _).bind fun _ => trivial

theorem ofExcept {r : Except Exn α} (h : ∀ e, r = .error e → e.Fatal) : Upset (Proc.ofExcept r) :=
  Proc.fragile_ofExcept h

/-! ### The connection -/

theorem sendall (b : Bytes) : Upset (Py.sendall b) := by
  intro a
  cases a with
  | ok u => exact ⟨fun h => h.elim, trivial⟩
  | error e => exact ⟨fun _ => fatal_sys e, fatal_sys e⟩

/-- A `recv` whose caller does not put up with nothing. -/
theorem recv {n : Nat} {f : Bytes → Py α} (hnil : Doomed (f [])) (hf : ∀ c, Upset (f c)) :
    Upset (Py.recv n >>= f) := by
  intro a
  cases a with
  | error e => exact ⟨fun _ => fatal_sys e, fatal_sys e⟩
  | ok c =>
    refine ⟨fun h => ?_, hf c⟩
    rw [show c = [] from h.1]
    exact hnil

theorem readExactLoop (n fuel : Nat) (data : Bytes) : Upset (readExactLoop n fuel data) := by
  induction fuel generalizing data with
  | zero => trivial
  | succ fuel ih =>
    rw [Retriever.readExactLoop]
    split
    · refine recv (fatal_sys _) fun c => ?_
      split
      · exact fatal_sys _
      · exact ih _
    · trivial

theorem readExactBytes (n : Nat) : Upset (readExactBytes n) := readExactLoop n n []

theorem fatal_parseHeader {header : Bytes} {e : Exn} (h : parseHeader header = .error e) : e.Fatal := by
  unfold parseHeader at h
  split at h
  · cases h
    exact fatal_frame _ _
  split at h
  · cases h
    exact fatal_frame _ _
  split at h
  · cases h
    exact fatal_frame _ _
  · cases h

theorem readFrameHeader : Upset readFrameHeader :=
  (readExactBytes _).bind fun _ => ofExcept fun _ => fatal_parseHeader

theorem readFrame : Upset readFrame := by
  refine readFrameHeader.bind fun (t, n) => ?_
  dsimp only
  split
  · exact fatal_frame _ _
  split
  · exact (readExactBytes n).bind fun _ => trivial
  · trivial

theorem fatal_toBytes {k n : Nat} {e : Exn} (h : toBytes k n = .error e) : e.Fatal := by
  unfold toBytes at h
  split at h
  · cases h
  · cases h
    exact Nat.one_ne_zero

theorem writeFrame (t : UInt8) (payload : Bytes) : Upset (writeFrame t payload) := by
  refine bind (ofExcept fun e h => ?_) fun _ => sendall _
  unfold frameHeader at h
  cases hlen : toBytes 8 payload.length with
  | error e' =>
    rw [hlen] at h
    cases h
    exact fatal_toBytes hlen
  | ok len =>
    rw [hlen] at h
    cases h

/-! ### Commands -/

theorem fatal_unpackError {payload : Bytes} {e : Exn} (h : unpackError payload = .error e) : e.Fatal := by
  rcases unpackError_cases payload with ⟨⟨x, hx⟩, -⟩ | ⟨hx, -⟩ | ⟨⟨reason, m, hx⟩, -⟩
  · rw [hx] at h
    cases h
  · rw [hx] at h
    cases h
    exact Nat.one_ne_zero
  · rw [hx] at h
    cases h
    exact fatal_frame _ _

/-- The server has refused. -/
theorem refuse {g : Text → Text} (payload : Bytes) :
    Upset (do let (_, message) ← Proc.ofExcept (unpackError payload)
              Retriever.fail EXIT_SERVER (g message) : Py α) :=
  (ofExcept fun _ => fatal_unpackError).bind fun _ => fail (by decide) _

theorem readReply : Upset readReply := by
  refine readFrame.bind fun f => ?_
  split
  · exact refuse (g := id) _
  · trivial

theorem connect : Upset connect := by
  refine (writeFrame _ _).bind fun _ => readFrame.bind fun f => ?_
  split
  · exact refuse _
  · trivial

theorem doList : Upset doList := by
  refine (writeFrame _ _).bind fun _ => readFrame.bind fun f => ?_
  split
  · exact refuse (g := id) _
  · refine bind (ofExcept fun e h => ?_) fun _ => trivial
    rcases decodeNames_ends f.payload with ⟨⟨names, hn⟩, -⟩ | ⟨hn, -⟩
    · rw [hn] at h
      cases h
    · rw [hn] at h
      cases h
      exact Nat.one_ne_zero

theorem fatal_encodePath {b : Bytes} {e : Exn} (h : encodePath b = .error e) : e.Fatal := by
  unfold encodePath at h
  split at h
  · cases h
  · cases h
    exact Nat.one_ne_zero

/-- The payload of a GET or a PUT cannot be made. -/
theorem fatal_pack {n : Nat} {name : Bytes} {g : Bytes → Bytes → Bytes → Bytes} {e : Exn}
    (h : (do let nameBytes ← encodePath name
             let n8 ← toBytes 8 n
             let len2 ← toBytes 2 nameBytes.length
             return g n8 len2 nameBytes : Except Exn Bytes) = .error e) : e.Fatal := by
  cases hname : encodePath name with
  | error e' =>
    rw [hname] at h
    cases h
    exact fatal_encodePath hname
  | ok nameBytes =>
    rw [hname] at h
    cases hn : toBytes 8 n with
    | error e' =>
      rw [hn] at h
      cases h
      exact fatal_toBytes hn
    | ok n8 =>
      rw [hn] at h
      cases hlen : toBytes 2 nameBytes.length with
      | error e' =>
        simp only [Bind.bind, Except.bind, hlen] at h
        cases h
        exact fatal_toBytes hlen
      | ok len2 =>
        simp only [Bind.bind, Except.bind, hlen] at h
        cases h

theorem uploadBody (f fuel pos remaining : Nat) : Upset (uploadBody f fuel pos remaining) := by
  induction fuel generalizing pos remaining with
  | zero => trivial
  | succ fuel ih =>
    rw [Retriever.uploadBody]
    split
    · refine (fs (.read f pos _) id).bind fun chunk => ?_
      split
      · trivial
      · exact (sendall _).bind fun _ => ih _ _
    · trivial

theorem doPut (filename : Bytes) (remoteName : Option Bytes) : Upset (doPut filename remoteName) := by
  refine (isfile filename).bind fun found => ?_
  split
  · exact fail (by decide) _
  refine (getsize filename).bind fun size => (sha256File filename).bind fun digest => ?_
  refine bind (ofExcept fun e h => fatal_pack h) fun payload => ?_
  refine (writeFrame _ _).bind fun _ => readReply.bind fun reply => ?_
  refine (fs (.openRb filename) id).bind fun f => bind ?_ fun _ => ?_
  · unfold seek
    split
    · trivial
    · exact Nat.one_ne_zero
  · exact (uploadBody _ _ _ _).bind fun _ => readReply.bind fun _ => trivial

theorem saveBody (f fuel remaining : Nat) : Upset (saveBody f fuel remaining) := by
  induction fuel generalizing remaining with
  | zero => trivial
  | succ fuel ih =>
    rw [Retriever.saveBody]
    split
    · refine recv (fatal_sys _) fun c => ?_
      split
      · exact fatal_sys _
      · exact (fs (.write f c) id).bind fun _ => ih _
    · trivial

theorem fetchBody (p : Bytes) (total start : Nat) : Upset (fetchBody p total start) := by
  refine Fragile.tryCatch (Y := Exn.Fatal) ?_ (fun _ _ => ?_) fun _ _ => ?_
  · dsimp only
    split
    · exact (fs (.openAb p) id).bind fun f => saveBody f _ _
    · exact (fs (.openWb p) id).bind fun f => saveBody f _ _
  · exact doomed_fail (by decide) _
  · exact fail (by decide) _

theorem verifyDownload (dest p digest : Bytes) : Upset (verifyDownload dest p digest) := by
  refine (sha256File p).bind fun actual => ?_
  split
  · exact (fs (.unlink p) id).bind fun _ => fail (by decide) _
  · exact fs (.rename p dest) id

theorem receiveDownload (dest : Bytes) (existing : Option Bytes) (metadata : Bytes) :
    Upset (receiveDownload dest existing metadata) := by
  unfold Retriever.receiveDownload
  dsimp only
  split
  · cases existing with
    | none => exact (fetchBody _ _ _).bind fun _ => verifyDownload _ _ _
    | some path =>
      exact (fs (.unlink path) id).bind fun _ => (fetchBody _ _ _).bind fun _ => verifyDownload _ _ _
  · exact (fetchBody _ _ _).bind fun _ => verifyDownload _ _ _

theorem receiveGetReply (dest : Bytes) (existing : Option Bytes) : Upset (receiveGetReply dest existing) := by
  refine readFrameHeader.bind fun (t, n) => ?_
  dsimp only
  split
  · refine bind ?_ fun _ => fail (by decide) _
    unfold readErrorPayload
    split
    · exact fatal_frame _ _
    · exact (readExactBytes n).bind fun _ => ofExcept fun _ => fatal_unpackError
  · exact (readExactBytes _).bind fun _ => receiveDownload _ _ _

theorem looks {p : Py α} (h : p.Uses Sys.Asks Exn.Fatal) : Upset p := by
  refine Proc.Uses.fragile h ?_
  rintro o a ⟨f, rfl, -⟩ hf
  exact hf

theorem doGet (filename : Bytes) (output : Option Bytes) : Upset (doGet filename output) := by
  refine (pathExists _).bind fun found => ?_
  split
  · exact fail (by decide) _
  refine bind (looks (findPartial_uses _)) fun existing => bind ?_ fun (offset, token) => ?_
  · cases existing with
    | none => trivial
    | some path => exact (getsize path).bind fun _ => trivial
  · refine bind (ofExcept fun e h => fatal_pack h) fun payload => ?_
    exact (writeFrame _ _).bind fun _ => receiveGetReply _ _

theorem printDone (filename target : Bytes) : Upset (printDone filename target) := by
  refine bind (ofExcept fun e h => fatal_encodePath h) fun _ => ?_
  exact bind (ofExcept fun e h => fatal_encodePath h) fun _ => trivial

theorem run (command : Command) : Upset command.run := by
  cases command with
  | list => exact doList.bind fun _ => trivial
  | get filename output => exact (doGet filename output).bind fun _ => printDone _ _
  | put filename remoteName => exact (doPut filename remoteName).bind fun _ => printDone _ _

theorem main (command : Command) : Upset (main command) := by
  refine connect.bind fun _ => Fragile.tryCatch (Y := Exn.Fatal) ?_ (fun e he => ?_) fun e he => ?_
  · exact (run command).bind fun _ => (writeFrame _ _).bind fun _ => readFrame.bind fun _ => trivial
  · split
    · exact doomed_fail (by decide) _
    · exact doomed_fail (by decide) _
    · exact doomed_fail (by decide) _
    · exact he
  · split
    · exact fail (by decide) _
    · exact fail (by decide) _
    · exact fail (by decide) _
    · exact he

end Upset

/-! ## C -/

namespace C

/-- After a fault there is only a result of kind `X`. -/
abbrev Upset {α : Type} (X : α → Prop) (p : CProg α) : Prop := p.Fragile Sys.Fault X fun _ => False

namespace Upset

variable {α β : Type} {X : α → Prop} {Z : β → Prop}

/-- A call to the filesystem. -/
theorem fs {o : FsOp} {f : o.Ans → CProg α} (hf : ∀ a, Upset X (f a)) :
    Upset X (Proc.perform (Sys.fs o) >>= f) :=
  fun a => ⟨fun h => h.elim, hf a⟩

theorem none_bind {p : CProg (Option α)} {f : Option α → CProg β} (hp : Upset (· = none) p)
    (hnone : (f none).Ends Z fun _ => False) (hf : ∀ a, Upset Z (f a)) : Upset Z (p >>= f) := by
  refine Fragile.bind hp ?_ hf
  rintro _ rfl
  exact hnone

theorem false_bind {p : CProg Bool} {f : Bool → CProg β} (hp : Upset (· = false) p)
    (hfalse : (f false).Ends Z fun _ => False) (hf : ∀ a, Upset Z (f a)) : Upset Z (p >>= f) := by
  refine Fragile.bind hp ?_ hf
  rintro _ rfl
  exact hfalse

theorem writeAll (buf : Bytes) : Upset (· = false) (writeAll buf) := by
  intro a
  cases a with
  | ok u => exact ⟨fun h => h.elim, trivial⟩
  | error e => exact ⟨fun _ => rfl, trivial⟩

theorem writeFrame (t : UInt8) (payload : Bytes) : Upset (· = false) (writeFrame t payload) := by
  refine false_bind (writeAll _) rfl fun ok => ?_
  split
  · trivial
  split
  · exact writeAll _
  · trivial

theorem readExactLoop (n fuel : Nat) (data : Bytes) : Upset (· = none) (readExactLoop n fuel data) := by
  induction fuel generalizing data with
  | zero => trivial
  | succ fuel ih =>
    rw [C.readExactLoop]
    split
    · intro a
      cases a with
      | error e => exact ⟨fun _ => rfl, trivial⟩
      | ok c =>
        refine ⟨fun h => ?_, ?_⟩
        · rw [show c = [] from h.1]
          exact rfl
        · show Upset _ (if c = [] then _ else _)
          split
          · trivial
          · exact ih _
    · trivial

theorem readExact (n : Nat) : Upset (· = none) (readExact n) := readExactLoop n n []

theorem readFrameHeader : Upset (· = none) readFrameHeader := by
  refine none_bind (readExact _) rfl fun header => ?_
  cases header with
  | none => trivial
  | some header =>
    dsimp only
    split
    · trivial
    split
    · trivial
    · trivial

theorem readFrame : Upset (· = none) readFrame := by
  refine none_bind readFrameHeader rfl fun header => ?_
  cases header with
  | none => trivial
  | some header =>
    obtain ⟨t, n⟩ := header
    dsimp only
    split
    · trivial
    split
    · trivial
    refine none_bind (readExact _) rfl fun payload => ?_
    cases payload <;> trivial

/-! ### Commands -/

theorem doHello : Upset (· = false) doHello := by
  refine false_bind (writeFrame _ _) rfl fun ok => ?_
  split
  · trivial
  refine none_bind readFrame rfl fun f => ?_
  cases f with
  | none => trivial
  | some f =>
    dsimp only
    split
    · trivial
    split <;> trivial

theorem doList : Upset (· = none) doList := by
  refine false_bind (writeFrame _ _) rfl fun ok => ?_
  split
  · trivial
  refine none_bind readFrame rfl fun f => ?_
  cases f with
  | none => trivial
  | some f =>
    dsimp only
    split
    · trivial
    split <;> trivial

theorem freadLoop {X : Option (List Bytes) → Prop} (f fuel : Nat) (chunks : List Bytes) :
    Upset X (freadLoop f fuel chunks) := by
  induction fuel generalizing chunks with
  | zero => trivial
  | succ fuel ih =>
    rw [C.freadLoop]
    refine fs fun a => ?_
    cases a with
    | error e => trivial
    | ok buf =>
      dsimp only
      split
      · trivial
      · exact ih _

theorem sha256File {X : Option Bytes → Prop} (path : Bytes) : Upset X (sha256File path) := by
  refine fs fun a => ?_
  cases a with
  | error e => trivial
  | ok f =>
    refine Fragile.bind (freadLoop (X := fun _ => False) f _ _) (fun _ h => h.elim) fun chunks => ?_
    cases chunks <;> trivial

theorem findPartial {X : Found → Prop} (dest : Bytes) : Upset X (findPartial dest) := by
  refine Proc.Uses.fragile (findPartial_uses dest) ?_
  rintro o a ⟨f, rfl, -⟩ h
  exact h

theorem saveBody (out fuel : Nat) (remaining : UInt64) : Upset (· = false) (saveBody out fuel remaining) := by
  induction fuel generalizing remaining with
  | zero => trivial
  | succ fuel ih =>
    rw [C.saveBody]
    split
    · refine none_bind (readExact _) rfl fun buf => ?_
      cases buf with
      | none => trivial
      | some buf =>
        refine fs fun a => ?_
        cases a with
        | error e => trivial
        | ok u => exact ih _
    · trivial

theorem verifyDownload {X : Bool → Prop} (dest p digest : Bytes) : Upset X (verifyDownload dest p digest) := by
  refine Fragile.bind (sha256File (X := fun _ => False) p) (fun _ h => h.elim) fun actual => ?_
  cases actual with
  | none => trivial
  | some actual =>
    dsimp only
    split
    · exact fs fun _ => trivial
    · refine fs fun a => ?_
      cases a <;> trivial

theorem fetchBody (dest p digest : Bytes) (start remaining : UInt64) :
    Upset (· = false) (fetchBody dest p digest start remaining) := by
  have hopen : Upset (fun _ => False) (fopenPartial p start) := by
    unfold fopenPartial
    split
    · exact fun _ => ⟨fun h => h.elim, trivial⟩
    · exact fun _ => ⟨fun h => h.elim, trivial⟩
  refine Fragile.bind hopen (fun _ h => h.elim) fun out => ?_
  cases out with
  | error e => trivial
  | ok out =>
    refine false_bind (saveBody _ _ _) rfl fun saved => ?_
    split
    · trivial
    · exact verifyDownload _ _ _

theorem receiveDownload (dest : Bytes) (existing : Found) (metadata : Bytes) :
    Upset (· = false) (receiveDownload dest existing metadata) := by
  unfold C.receiveDownload
  dsimp only
  split
  · trivial
  · have hfetch := fetchBody dest
    split
    · cases existing with
      | found path size token => exact fs fun _ => hfetch _ _ _ _
      | failed | absent => exact hfetch _ _ _ _
    · exact hfetch _ _ _ _

theorem receiveGetReply (dest : Bytes) (existing : Found) :
    Upset (· = false) (receiveGetReply dest existing) := by
  refine none_bind readFrameHeader rfl fun header => ?_
  cases header with
  | none => trivial
  | some header =>
    obtain ⟨t, n⟩ := header
    dsimp only
    split
    · split
      · trivial
      · exact none_bind (readExact _) rfl fun _ => trivial
    split
    · trivial
    refine none_bind (readExact _) rfl fun metadata => ?_
    cases metadata with
    | none => trivial
    | some metadata => exact receiveDownload _ _ _

theorem doGet (remoteName dest : Bytes) : Upset (· = false) (doGet remoteName dest) := by
  refine fs fun a => ?_
  show Upset _ (if a.isSome = true then _ else _)
  split
  · trivial
  refine Fragile.bind (findPartial (X := fun _ => False) dest) (fun _ h => h.elim) fun existing => ?_
  split
  · trivial
  refine false_bind (writeFrame _ _) rfl fun ok => ?_
  split
  · trivial
  · exact receiveGetReply _ _

theorem uploadBody (f fuel pos : Nat) (remaining : UInt64) :
    Upset (· = false) (uploadBody f fuel pos remaining) := by
  induction fuel generalizing pos remaining with
  | zero => trivial
  | succ fuel ih =>
    rw [C.uploadBody]
    generalize (if remaining < 65536 then remaining else 65536) = want
    split
    · refine fs fun a => ?_
      cases a with
      | error e => trivial
      | ok buf =>
        dsimp only
        split
        · trivial
        refine false_bind (writeAll _) rfl fun ok => ?_
        split
        · trivial
        · exact ih _ _
    · trivial

theorem receiveVerdict : Upset (· = false) receiveVerdict := by
  refine none_bind readFrame rfl fun f => ?_
  cases f with
  | none => trivial
  | some f =>
    dsimp only
    split <;> trivial

theorem sendUpload (localPath : Bytes) (fileSize resumeOffset : UInt64) :
    Upset (· = false) (sendUpload localPath fileSize resumeOffset) := by
  unfold C.sendUpload
  split
  · trivial
  refine fs fun a => ?_
  cases a with
  | error e => trivial
  | ok f =>
    refine false_bind (uploadBody _ _ _ _) rfl fun sent => ?_
    split
    · trivial
    · exact receiveVerdict

theorem doPut (localPath remoteName : Bytes) : Upset (· = false) (doPut localPath remoteName) := by
  refine fs fun a => ?_
  cases a with
  | none => trivial
  | some st =>
    dsimp only
    split
    · trivial
    refine Fragile.bind (sha256File (X := fun _ => False) localPath) (fun _ h => h.elim) fun digest => ?_
    cases digest with
    | none => trivial
    | some digest =>
      dsimp only
      split
      · trivial
      refine false_bind (writeFrame _ _) rfl fun ok => ?_
      split
      · trivial
      refine none_bind readFrame rfl fun f => ?_
      cases f with
      | none => trivial
      | some f =>
        dsimp only
        split
        · trivial
        split
        · trivial
        · exact sendUpload _ _ _

theorem runCommand (command : Command) : Upset (· = false) (runCommand command) := by
  cases command with
  | list => exact none_bind doList rfl fun _ => trivial
  | get name other => exact doGet _ _
  | put name other => exact doPut _ _

end Upset

/-- `main` up to the goodbye. -/
def attempt (command : Command) : CProg Nat := do
  if (← doHello) = false then return EXIT_CONN
  else if (← runCommand command) = false then return EXIT_SERVER
  else return 0

/-- The goodbye that is said after a command that has been carried out. -/
def farewell (status : Nat) : CProg Nat := do
  if status = 0 then do
    doQuit
    return 0
  else return status

theorem main_eq_attempt (command : Command) : main command = attempt command >>= farewell := by
  unfold main attempt
  rw [bind_assoc]
  refine bind_congr fun hello => ?_
  split
  · rfl
  rw [bind_assoc]
  refine bind_congr fun ok => ?_
  split <;> rfl

/-- After a fault the C client does not come to its goodbye. -/
theorem Upset.attempt (command : Command) : Upset (· ≠ 0) (attempt command) := by
  refine false_bind doHello (by exact Nat.succ_ne_zero _) fun ok => ?_
  split
  · trivial
  refine false_bind (runCommand command) (by exact Nat.succ_ne_zero _) fun ok => ?_
  split <;> trivial

end C

end Retriever
