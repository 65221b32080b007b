/-
# Retriever.CClient.Resources — the C client with what it allocates

`frame.c`, `transfer.c`, `main.c` and `sha256_file` once more, from `main` on, with the calls that take
memory, streams, directories and sockets and those that give them back. Every one of these calls may
fail. The reads and writes on the socket and the calls on paths are those of `Retriever.CClient`.

When the calls that are new here succeed, the client is the one modelled there
(`session_interp`).
-/
import Retriever.CClient.Main

namespace Retriever.C.Res

open Os (SLASH DOT)

/-- An address that `getaddrinfo` has found. -/
abbrev Addr := Nat

/-- The mode of `fopen`. -/
inductive Mode where
  | rb
  | ab
  | wb
  deriving DecidableEq, Repr

/-- The calls. A block of memory, a stream, a directory, a socket and a list of addresses are numbers.
`touch` is an access to a block. A `recv` or a `send` is on the socket `fd`. The entries that `readdir`
reports one after the other are part of the answer to `opendir`, as the list of addresses is of the
answer to `getaddrinfo`. -/
inductive Op where
  | sys (fd : Nat) (o : Sys)
  | malloc (n : Nat)
  | touch (p : Nat)
  | free (p : Nat)
  | fopen (path : Bytes) (mode : Mode)
  | fread (f pos n : Nat)
  | fwrite (f : Nat) (bs : Bytes)
  | fseeko (f pos : Nat)
  | fclose (f : Nat)
  | opendir (path : Bytes)
  | readdir (d : Nat)
  | closedir (d : Nat)
  | getaddrinfo (host port : Bytes)
  | freeaddrinfo (r : Nat)
  | socket (a : Addr)
  | connect (fd : Nat) (a : Addr)
  | close (fd : Nat)
  deriving DecidableEq, Repr

abbrev Op.Ans : Op → Type
  | .sys _ o => o.Ans
  | .malloc _ => Option Nat
  | .touch _ | .free _ | .readdir _ | .closedir _ | .freeaddrinfo _ | .close _ => Unit
  | .fopen _ _ => Except SysErr Nat
  | .fread _ _ _ => Except SysErr Bytes
  | .fwrite _ _ => Except SysErr Unit
  | .fseeko _ _ | .fclose _ | .connect _ _ => Bool
  | .opendir _ => Except SysErr (Nat × List Bytes)
  | .getaddrinfo _ _ => Option (Nat × List Addr)
  | .socket _ => Option Nat

abbrev Prog := Proc Op Op.Ans Empty

/-- A function that allocates nothing. -/
def lift {α : Type} (fd : Nat) (p : CProg α) : Prog α :=
  p.interp fun o => Proc.perform (Op.sys fd o)

/-! ## `frame.c` -/

/-- A frame that has been read: its type, its payload, which may be `NULL`, and what the payload
holds. -/
structure Reply where
  type : UInt8
  payload : Option Nat
  bytes : Bytes

/-- `free`, which does nothing for `NULL`. -/
def free : Option Nat → Prog Unit
  | none => pure ()
  | some p => Proc.perform (Op.free p)

/-- An access to the payload. -/
def touch : Option Nat → Prog Unit
  | none => pure ()
  | some p => Proc.perform (Op.touch p)

/-- `rtrv_read_frame` -/
def readFrame (fd : Nat) : Prog (Option Reply) := do
  match ← lift fd C.readFrameHeader with
  | none => return none
  | some (t, payloadLen) =>
    if payloadLen.toNat > PAYLOAD_CAP then return none
    else if payloadLen = 0 then return some ⟨t, none, []⟩
    else
      match ← Proc.perform (Op.malloc payloadLen.toNat) with
      | none => return none
      | some buf => do
        touch (some buf)
        match ← lift fd (C.readExact payloadLen.toNat) with
        | none => do
          free (some buf)
          return none
        | some bytes => return some ⟨t, some buf, bytes⟩

/-- `rtrv_report_error`: the payload is looked at when there is one. -/
def reportError (r : Reply) : Prog Unit := if r.bytes.length < 3 then pure () else touch r.payload

/-- The loop of `rtrv_connect`. -/
def tryAddresses : List Addr → Prog (Option Nat)
  | [] => return none
  | a :: rest => do
    match ← Proc.perform (Op.socket a) with
    | none => tryAddresses rest
    | some fd =>
      if ← Proc.perform (Op.connect fd a) then return some fd
      else do
        Proc.perform (Op.close fd)
        tryAddresses rest

/-- `rtrv_connect` -/
def connect (host port : Bytes) : Prog (Option Nat) := do
  match ← Proc.perform (Op.getaddrinfo host port) with
  | none => return none
  | some (results, addrs) => do
    let fd ← tryAddresses addrs
    Proc.perform (Op.freeaddrinfo results)
    return fd

/-! ## `sha256_file` -/

/-- The `fread` loop. -/
def freadLoop (f : Nat) : Nat → List Bytes → Prog (Option (List Bytes))
  | 0, _ => return none
  | fuel + 1, chunks => do
    match ← Proc.perform (Op.fread f chunks.flatten.length 65536) with
    | .error _ => return none
    | .ok buf => if buf = [] then return some chunks else freadLoop f fuel (chunks ++ [buf])

/-- `sha256_file`. What `fclose` returns is not looked at. -/
def sha256File (path : Bytes) : Prog (Option Bytes) := do
  match ← Proc.perform (Op.fopen path .rb) with
  | .error _ => return none
  | .ok f => do
    let read ← freadLoop f OFF_MAX []
    let _ ← Proc.perform (Op.fclose f)
    match read with
    | none => return none
    | some chunks =>
      let garbage := Vector.replicate 64 0
      return some (CSha.sha256Final
        (CSha.sha256Updates ⟨CSha.sha256Init garbage, CSha.sha256Init_valid garbage⟩ chunks))

/-! ## `transfer.c` -/

/-- The loop of `rtrv_find_partial`: how many entries are partials, and the last one. -/
def scanEntries (d : Nat) (front : Bytes) : List Bytes → Nat → Bytes → Prog (Nat × Bytes)
  | [], found, last => do
    Proc.perform (Op.readdir d)
    return (found, last)
  | entry :: rest, found, last => do
    Proc.perform (Op.readdir d)
    if isPartialOf front entry then scanEntries d front rest (found + 1) entry
    else scanEntries d front rest found last

/-- The end of `rtrv_find_partial`. -/
def describePartial (dest dir entry : Bytes) : CProg Found := do
  let path := if dir = [DOT] ∧ SLASH ∉ dest then entry else dir ++ [SLASH] ++ entry
  match ← Proc.perform (Sys.fs (.stat path)) with
  | none => return .absent
  | some st =>
    match scanToken entry with
    | none => return .absent
    | some token => return .found path (UInt64.ofNat st.size) token

/-- `rtrv_find_partial` -/
def findPartial (fd : Nat) (dest : Bytes) : Prog Found := do
  match splitPath dest DIR_MAX (MAX_NAME + 1) with
  | none => return .failed
  | some (dir, base) =>
    match ← Proc.perform (Op.opendir dir) with
    | .error _ => return .failed
    | .ok (d, entries) => do
      let (found, last) ← scanEntries d ([DOT] ++ base ++ [DOT]) entries 0 []
      Proc.perform (Op.closedir d)
      if found ≠ 1 then return .absent else lift fd (describePartial dest dir last)

/-- The loop that writes the body to the partial. It closes the stream when it fails. -/
def saveBody (fd out : Nat) : Nat → UInt64 → Prog Bool
  | 0, _ => return true
  | fuel + 1, remaining =>
    if remaining > 0 then do
      let want := if remaining < 65536 then remaining else 65536
      match ← lift fd (C.readExact want.toNat) with
      | none => do
        let _ ← Proc.perform (Op.fclose out)
        return false
      | some buf =>
        match ← Proc.perform (Op.fwrite out buf) with
        | .error _ => do
          let _ ← Proc.perform (Op.fclose out)
          return false
        | .ok _ => saveBody fd out fuel (remaining - want)
    else return true

/-- The end of `rtrv_do_get`. -/
def verifyDownload (fd : Nat) (dest partialPath digest : Bytes) : Prog Bool := do
  match ← sha256File partialPath with
  | none => return false
  | some actual =>
    if actual ≠ digest then do
      let _ ← Proc.perform (Op.sys fd (.fs (.remove partialPath)))
      return false
    else
      match ← Proc.perform (Op.sys fd (.fs (.rename partialPath dest))) with
      | .error _ => return false
      | .ok _ => return true

/-- The part of `rtrv_do_get` from `fopen` on. -/
def fetchBody (fd : Nat) (dest partialPath digest : Bytes) (start remaining : UInt64) : Prog Bool := do
  match ← Proc.perform (Op.fopen partialPath (if start > 0 then .ab else .wb)) with
  | .error _ => return false
  | .ok out =>
    if (← saveBody fd out remaining.toNat remaining) = false then return false
    else if (← Proc.perform (Op.fclose out)) = false then return false
    else verifyDownload fd dest partialPath digest

/-- `remove(existing)`, when the server offers a different file. -/
def dropExisting (start : UInt64) (existing : Found) : CProg Unit :=
  if start = 0 then
    match existing with
    | .found path _ _ => do let _ ← Proc.perform (Sys.fs (.remove path))
    | _ => pure ()
  else pure ()

/-- The part of `rtrv_do_get` after the metadata has been read. -/
def receiveDownload (fd : Nat) (dest : Bytes) (existing : Found) (metadata : Bytes) : Prog Bool := do
  let totalSize := getU64 metadata
  let start := getU64 (metadata.drop 8)
  let digest := metadata.drop 16
  match C.partialName dest digest with
  | none => return false
  | some partialPath => do
    lift fd (dropExisting start existing)
    fetchBody fd dest partialPath digest start (totalSize - start)

/-- The reply to a GET. -/
def receiveGetReply (fd : Nat) (dest : Bytes) (existing : Found) : Prog Bool := do
  match ← lift fd C.readFrameHeader with
  | none => return false
  | some (t, payloadLen) =>
    if t = T_ERROR then
      if payloadLen.toNat > PAYLOAD_CAP then return false
      else
        match ← Proc.perform (Op.malloc payloadLen.toNat) with
        | none => return false
        | some payload => do
          touch (some payload)
          match ← lift fd (C.readExact payloadLen.toNat) with
          | none => pure ()
          | some bytes => reportError ⟨t, some payload, bytes⟩
          free (some payload)
          return false
    else if t ≠ T_OK then return false
    else
      match ← lift fd (C.readExact GET_META) with
      | none => return false
      | some metadata => receiveDownload fd dest existing metadata

/-- `rtrv_do_get` -/
def doGet (fd : Nat) (remoteName dest : Bytes) : Prog Bool := do
  if ← lift fd (C.fileExists dest) then return false
  else do
    let existing ← findPartial fd dest
    if remoteName.length > MAX_NAME then return false
    else do
      let request := putU64 existing.offer.1 ++ existing.offer.2
        ++ putU16 (UInt16.ofNat remoteName.length) ++ remoteName
      if (← lift fd (C.writeFrame T_GET request)) = false then return false
      else receiveGetReply fd dest existing

/-- The loop that sends the body. It closes the stream when it fails. -/
def uploadBody (fd f : Nat) : Nat → Nat → UInt64 → Prog Bool
  | 0, _, _ => return true
  | fuel + 1, pos, remaining =>
    if remaining > 0 then do
      let want := if remaining < 65536 then remaining else 65536
      match ← Proc.perform (Op.fread f pos want.toNat) with
      | .error _ => do
        let _ ← Proc.perform (Op.fclose f)
        return false
      | .ok buf =>
        if buf.length ≠ want.toNat then do
          let _ ← Proc.perform (Op.fclose f)
          return false
        else if (← lift fd (C.writeAll buf)) = false then do
          let _ ← Proc.perform (Op.fclose f)
          return false
        else uploadBody fd f fuel (pos + buf.length) (remaining - want)
    else return true

/-- The verdict. -/
def receiveVerdict (fd : Nat) : Prog Bool := do
  match ← readFrame fd with
  | none => return false
  | some r =>
    if r.type = T_ERROR then do
      reportError r
      free r.payload
      return false
    else do
      free r.payload
      return r.type = T_OK

/-- The part of `rtrv_do_put` after the server has said where to resume. -/
def sendUpload (fd : Nat) (localPath : Bytes) (fileSize resumeOffset : UInt64) : Prog Bool := do
  if resumeOffset > fileSize then return false
  else
    match ← Proc.perform (Op.fopen localPath .rb) with
    | .error _ => return false
    | .ok f =>
      if (← Proc.perform (Op.fseeko f resumeOffset.toNat)) = false then do
        let _ ← Proc.perform (Op.fclose f)
        return false
      else if (← uploadBody fd f (fileSize - resumeOffset).toNat resumeOffset.toNat
          (fileSize - resumeOffset)) = false then return false
      else do
        let _ ← Proc.perform (Op.fclose f)
        receiveVerdict fd

/-- The reply to the first step of a PUT. -/
def receiveOffer (fd : Nat) (localPath : Bytes) (fileSize : UInt64) : Prog Bool := do
  match ← readFrame fd with
  | none => return false
  | some r =>
    if r.type = T_ERROR then do
      reportError r
      free r.payload
      return false
    else if r.type ≠ T_OK ∨ r.bytes.length < 8 then do
      free r.payload
      return false
    else do
      touch r.payload
      free r.payload
      sendUpload fd localPath fileSize (getU64 r.bytes)

/-- `rtrv_do_put` -/
def doPut (fd : Nat) (localPath remoteName : Bytes) : Prog Bool := do
  match ← Proc.perform (Op.sys fd (.fs (.stat localPath))) with
  | none => return false
  | some st =>
    if st.isReg = false then return false
    else
      match ← sha256File localPath with
      | none => return false
      | some digest =>
        if remoteName.length > MAX_NAME then return false
        else do
          let fileSize := UInt64.ofNat st.size
          let request := putU64 fileSize ++ digest
            ++ putU16 (UInt16.ofNat remoteName.length) ++ remoteName
          if (← lift fd (C.writeFrame T_PUT request)) = false then return false
          else receiveOffer fd localPath fileSize

/-! ## `main.c` -/

/-- `do_hello` -/
def doHello (fd : Nat) : Prog Bool := do
  if (← lift fd (C.writeFrame T_HELLO [])) = false then return false
  else
    match ← readFrame fd with
    | none => return false
    | some r =>
      if r.type = T_ERROR then do
        reportError r
        free r.payload
        return false
      else do
        free r.payload
        if r.type ≠ T_OK then return false else return true

/-- `do_list` -/
def doList (fd : Nat) : Prog (Option (List Bytes)) := do
  if (← lift fd (C.writeFrame T_LIST [])) = false then return none
  else
    match ← readFrame fd with
    | none => return none
    | some r =>
      if r.type = T_ERROR then do
        reportError r
        free r.payload
        return none
      else if r.type ≠ T_OK then do
        free r.payload
        return none
      else do
        touch r.payload
        free r.payload
        return some (listNames r.bytes 0 (List.range (r.bytes.length + 1)))

/-- `do_quit` -/
def doQuit (fd : Nat) : Prog Unit := do
  if (← lift fd (C.writeFrame T_QUIT [])) = true then
    match ← readFrame fd with
    | none => pure ()
    | some r => free r.payload
  else return ()

/-- The command that `main` carries out; `false` is -1. -/
def runCommand (fd : Nat) : Command → Prog Bool
  | .list => do return (← doList fd).isSome
  | .get name other => doGet fd name (other.getD (basenameOf name))
  | .put name other => doPut fd name (other.getD (basenameOf name))

/-- `main` while the socket is open. -/
def session (fd : Nat) (command : Command) : Prog Nat := do
  if (← doHello fd) = false then return EXIT_CONN
  else if (← runCommand fd command) = false then return EXIT_SERVER
  else do
    doQuit fd
    return 0

/-- `EXIT_LOCAL` of `main.c` -/
def EXIT_LOCAL : Nat := 2

/-- The arguments of `main`: host, port and command, unless the usage is wrong. The first argument is
the program. -/
def parseArgs (argv : List Bytes) : Option (Bytes × Bytes × Command) :=
  if argv.length < 4 then none
  else
    let host := argv.getD 1 []
    let port := argv.getD 2 []
    let command := argv.getD 3 []
    if command = ascii "list" then
      if argv.length ≠ 4 then none else some (host, port, .list)
    else if command = ascii "get" then
      if argv.length ≠ 5 ∧ argv.length ≠ 7 then none
      else if argv.length = 7 then
        if argv.getD 5 [] ≠ ascii "-o" then none
        else some (host, port, .get (argv.getD 4 []) (some (argv.getD 6 [])))
      else some (host, port, .get (argv.getD 4 []) none)
    else if command = ascii "put" then
      if argv.length ≠ 5 ∧ argv.length ≠ 6 then none
      else some (host, port, .put (argv.getD 4 [])
        (if argv.length = 6 then some (argv.getD 5 []) else none))
    else none

/-- `main` -/
def main (argv : List Bytes) : Prog Nat :=
  match parseArgs argv with
  | none => return EXIT_LOCAL
  | some (host, port, command) => do
    match ← connect host port with
    | none => return EXIT_CONN
    | some fd => do
      let status ← session fd command
      Proc.perform (Op.close fd)
      return status

/-! ## When everything is there -/

/-- The calls that are new here succeed, and the others are those of the client without them. -/
def succeed : (o : Op) → CProg o.Ans
  | .sys _ o => Proc.perform o
  | .malloc _ => pure (some 0)
  | .touch _ | .free _ | .readdir _ | .closedir _ | .freeaddrinfo _ | .close _ => pure ()
  | .fopen path .rb => Proc.perform (Sys.fs (.openRb path))
  | .fopen path .ab => Proc.perform (Sys.fs (.openAb path))
  | .fopen path .wb => Proc.perform (Sys.fs (.openWb path))
  | .fread f pos n => Proc.perform (Sys.fs (.read f pos n))
  | .fwrite f bs => Proc.perform (Sys.fs (.write f bs))
  | .fseeko _ _ | .fclose _ | .connect _ _ => pure true
  | .opendir path => do
    let entries ← Proc.perform (Sys.fs (.listdir path))
    return entries.map fun ns => (0, ns)
  | .getaddrinfo _ _ => pure (some (0, [0]))
  | .socket _ => pure (some 0)

section Interp

variable {α : Type} {fd : Nat}

@[simp] theorem interp_lift (p : CProg α) : (lift fd p).interp succeed = p := by
  rw [lift, Proc.interp_interp]
  simp only [Proc.interp_perform]
  exact Proc.interp_self p

@[simp] theorem interp_free (p : Option Nat) : (free p).interp succeed = pure () := by
  cases p <;> rfl

@[simp] theorem interp_touch (p : Option Nat) : (touch p).interp succeed = pure () := by
  cases p <;> rfl

@[simp] theorem interp_reportError (r : Reply) : (reportError r).interp succeed = pure () := by
  unfold reportError
  split
  · rfl
  · exact interp_touch r.payload

/-- A frame is read, and what follows does not depend on where its payload is. -/
theorem interp_readFrame_bind {k : Option Reply → Prog α} {k' : Option Frame → CProg α}
    (hnone : (k none).interp succeed = k' none)
    (hsome : ∀ r, (k (some r)).interp succeed = k' (some ⟨r.type, r.bytes⟩)) :
    (readFrame fd >>= k).interp succeed = C.readFrame >>= k' := by
  simp only [readFrame, C.readFrame, Proc.interp_bind, interp_lift, bind_assoc]
  refine congrArg _ (funext fun h => ?_)
  cases h with
  | none => exact hnone
  | some h =>
    obtain ⟨t, len⟩ := h
    dsimp only
    split
    · exact hnone
    · split
      · exact hsome ⟨t, none, []⟩
      · simp only [Proc.interp_bind, interp_lift, bind_assoc, Proc.interp_perform, succeed,
          interp_touch, pure_bind]
        refine congrArg _ (funext fun b => ?_)
        cases b with
        | none => simp [hnone]
        | some b => exact hsome ⟨t, some 0, b⟩

theorem interp_freadLoop (f fuel : Nat) (chunks : List Bytes) :
    (freadLoop f fuel chunks).interp succeed = C.freadLoop f fuel chunks := by
  induction fuel generalizing chunks with
  | zero => rfl
  | succ fuel ih =>
    simp only [freadLoop, C.freadLoop, Proc.interp_bind, Proc.interp_perform, succeed]
    refine congrArg _ (funext fun a => ?_)
    cases a with
    | error e => rfl
    | ok buf =>
      dsimp only
      split
      · rfl
      · exact ih _

@[simp] theorem interp_sha256File (path : Bytes) :
    (sha256File path).interp succeed = C.sha256File path := by
  simp only [sha256File, C.sha256File, Proc.interp_bind, Proc.interp_perform, succeed]
  refine congrArg _ (funext fun a => ?_)
  cases a with
  | error e => rfl
  | ok f =>
    simp only [Proc.interp_bind, Proc.interp_perform, succeed, interp_freadLoop, pure_bind]
    refine congrArg _ (funext fun chunks => ?_)
    cases chunks <;> rfl

/-- The loop over the entries finds those that the filter finds. -/
theorem interp_scanEntries (d : Nat) (front : Bytes) (entries : List Bytes) (found : Nat)
    (last : Bytes) : (scanEntries d front entries found last).interp succeed =
      pure (found + (entries.filter (isPartialOf front)).length,
        ((entries.filter (isPartialOf front)).getLast?).getD last) := by
  induction entries generalizing found last with
  | nil => rfl
  | cons entry rest ih =>
    simp only [scanEntries, Proc.interp_bind, Proc.interp_perform, succeed, pure_bind]
    by_cases h : isPartialOf front entry = true
    · rw [if_pos h, ih, List.filter_cons_of_pos h, List.length_cons, List.getLast?_cons,
        Nat.add_right_comm]
      rfl
    · rw [if_neg h, ih, List.filter_cons_of_neg h]

@[simp] theorem interp_findPartial (dest : Bytes) :
    (findPartial fd dest).interp succeed = C.findPartial dest := by
  unfold findPartial C.findPartial
  cases splitPath dest DIR_MAX (MAX_NAME + 1) with
  | none => rfl
  | some parts =>
    obtain ⟨dir, base⟩ := parts
    simp only [Proc.interp_bind, Proc.interp_perform, succeed, bind_assoc, pure_bind]
    refine congrArg _ (funext fun a => ?_)
    cases a with
    | error e => rfl
    | ok entries =>
      simp only [Except.map, Proc.interp_bind, Proc.interp_perform, succeed, interp_scanEntries,
        pure_bind, Nat.zero_add]
      split
      · next hmany =>
        split
        · next entry hone =>
          rw [hone] at hmany
          exact absurd rfl hmany
        · rfl
      · next hone =>
        obtain ⟨entry, hone⟩ := List.length_eq_one_iff.mp (not_not.mp hone)
        rw [hone, interp_lift]
        rfl

theorem interp_saveBody (out fuel : Nat) (remaining : UInt64) :
    (saveBody fd out fuel remaining).interp succeed = C.saveBody out fuel remaining := by
  induction fuel generalizing remaining with
  | zero => rfl
  | succ fuel ih =>
    rw [saveBody, C.saveBody]
    split
    · simp only [Proc.interp_bind, interp_lift]
      refine congrArg _ (funext fun b => ?_)
      cases b with
      | none => rfl
      | some b =>
        simp only [Proc.interp_bind, Proc.interp_perform, succeed]
        refine congrArg _ (funext fun a => ?_)
        cases a with
        | error e => rfl
        | ok x => exact ih _
    · rfl

@[simp] theorem interp_verifyDownload (dest partialPath digest : Bytes) :
    (verifyDownload fd dest partialPath digest).interp succeed =
      C.verifyDownload dest partialPath digest := by
  simp only [verifyDownload, C.verifyDownload, Proc.interp_bind, interp_sha256File]
  refine congrArg _ (funext fun a => ?_)
  cases a with
  | none => rfl
  | some actual =>
    dsimp only
    split
    · rfl
    · simp only [Proc.interp_bind, Proc.interp_perform, succeed]
      refine congrArg _ (funext fun x => ?_)
      cases x <;> rfl

@[simp] theorem interp_fetchBody (dest partialPath digest : Bytes) (start remaining : UInt64) :
    (fetchBody fd dest partialPath digest start remaining).interp succeed =
      C.fetchBody dest partialPath digest start remaining := by
  have hopen : succeed (.fopen partialPath (if start > 0 then .ab else .wb)) =
      C.fopenPartial partialPath start := by
    unfold C.fopenPartial
    by_cases h : start > 0
    · rw [if_pos h, if_pos h, succeed]
    · rw [if_neg h, if_neg h, succeed]
  simp only [fetchBody, C.fetchBody, Proc.interp_bind, Proc.interp_perform, hopen]
  refine congrArg _ (funext fun a => ?_)
  cases a with
  | error e => rfl
  | ok out =>
    simp only [Proc.interp_bind, interp_saveBody]
    refine congrArg _ (funext fun b => ?_)
    split
    · rfl
    · simp only [Proc.interp_bind, Proc.interp_perform, succeed, pure_bind, Bool.true_eq_false,
        if_false, interp_verifyDownload]

@[simp] theorem interp_receiveDownload (dest : Bytes) (existing : Found) (metadata : Bytes) :
    (receiveDownload fd dest existing metadata).interp succeed =
      C.receiveDownload dest existing metadata := by
  unfold receiveDownload C.receiveDownload
  dsimp only
  cases C.partialName dest (metadata.drop 16) with
  | none => rfl
  | some partialPath =>
    simp only [Proc.interp_bind, interp_lift, interp_fetchBody, dropExisting, C.fetchBody]
    by_cases h : getU64 (metadata.drop 8) = 0
    · rw [if_pos h, if_pos h]
      cases existing <;> simp only [bind_assoc, pure_bind]
    · rw [if_neg h, if_neg h]
      rfl

@[simp] theorem interp_receiveGetReply (dest : Bytes) (existing : Found) :
    (receiveGetReply fd dest existing).interp succeed = C.receiveGetReply dest existing := by
  simp only [receiveGetReply, C.receiveGetReply, Proc.interp_bind, interp_lift]
  refine congrArg _ (funext fun h => ?_)
  cases h with
  | none => rfl
  | some h =>
    obtain ⟨t, len⟩ := h
    dsimp only
    split
    · split
      · rfl
      · simp only [Proc.interp_bind, Proc.interp_perform, succeed, pure_bind, interp_lift,
          interp_touch]
        refine congrArg _ (funext fun b => ?_)
        cases b with
        | none => rfl
        | some b => simp
    · split
      · rfl
      · simp only [Proc.interp_bind, interp_lift]
        refine congrArg _ (funext fun b => ?_)
        cases b with
        | none => rfl
        | some b => exact interp_receiveDownload dest existing b

@[simp] theorem interp_doGet (remoteName dest : Bytes) :
    (doGet fd remoteName dest).interp succeed = C.doGet remoteName dest := by
  simp only [doGet, C.doGet, Proc.interp_bind, interp_lift]
  refine congrArg _ (funext fun b => ?_)
  split
  · rfl
  · simp only [Proc.interp_bind, interp_findPartial]
    refine congrArg _ (funext fun existing => ?_)
    split
    · rfl
    · simp only [Proc.interp_bind, interp_lift]
      refine congrArg _ (funext fun sent => ?_)
      split
      · rfl
      · exact interp_receiveGetReply dest existing

theorem interp_uploadBody (f fuel pos : Nat) (remaining : UInt64) :
    (uploadBody fd f fuel pos remaining).interp succeed = C.uploadBody f fuel pos remaining := by
  induction fuel generalizing pos remaining with
  | zero => rfl
  | succ fuel ih =>
    rw [uploadBody, C.uploadBody]
    split
    · simp only [Proc.interp_bind, Proc.interp_perform, succeed]
      refine congrArg _ (funext fun a => ?_)
      cases a with
      | error e => rfl
      | ok buf =>
        dsimp only
        generalize (if remaining < 65536 then remaining else 65536) = want
        split
        · rfl
        · simp only [Proc.interp_bind, interp_lift]
          refine congrArg _ (funext fun sent => ?_)
          split
          · rfl
          · exact ih _ _
    · rfl

@[simp] theorem interp_receiveVerdict : (receiveVerdict fd).interp succeed = C.receiveVerdict := by
  unfold receiveVerdict C.receiveVerdict
  refine interp_readFrame_bind rfl fun r => ?_
  dsimp only
  split <;> simp

@[simp] theorem interp_sendUpload (localPath : Bytes) (fileSize resumeOffset : UInt64) :
    (sendUpload fd localPath fileSize resumeOffset).interp succeed =
      C.sendUpload localPath fileSize resumeOffset := by
  unfold sendUpload C.sendUpload
  split
  · rfl
  · simp only [Proc.interp_bind, Proc.interp_perform, succeed]
    refine congrArg _ (funext fun a => ?_)
    cases a with
    | error e => rfl
    | ok f =>
      simp only [Proc.interp_bind, Proc.interp_perform, succeed, pure_bind, Bool.true_eq_false,
        if_false, interp_uploadBody]
      refine congrArg _ (funext fun sent => ?_)
      split
      · rfl
      · simp only [Proc.interp_bind, Proc.interp_perform, succeed, pure_bind, interp_receiveVerdict]

@[simp] theorem interp_doPut (localPath remoteName : Bytes) :
    (doPut fd localPath remoteName).interp succeed = C.doPut localPath remoteName := by
  simp only [doPut, C.doPut, Proc.interp_bind, Proc.interp_perform, succeed]
  refine congrArg _ (funext fun st => ?_)
  cases st with
  | none => rfl
  | some st =>
    dsimp only
    split
    · rfl
    · simp only [Proc.interp_bind, interp_sha256File]
      refine congrArg _ (funext fun digest => ?_)
      cases digest with
      | none => rfl
      | some digest =>
        dsimp only
        split
        · rfl
        · simp only [Proc.interp_bind, interp_lift]
          refine congrArg _ (funext fun sent => ?_)
          split
          · rfl
          · refine interp_readFrame_bind rfl fun r => ?_
            dsimp only
            split
            · simp
            · split <;> simp

@[simp] theorem interp_doHello : (doHello fd).interp succeed = C.doHello := by
  simp only [doHello, C.doHello, Proc.interp_bind, interp_lift]
  refine congrArg _ (funext fun sent => ?_)
  split
  · rfl
  · refine interp_readFrame_bind rfl fun r => ?_
    dsimp only
    split
    · simp
    · split <;> simp [*]

@[simp] theorem interp_doList : (doList fd).interp succeed = C.doList := by
  simp only [doList, C.doList, Proc.interp_bind, interp_lift]
  refine congrArg _ (funext fun sent => ?_)
  split
  · rfl
  · refine interp_readFrame_bind rfl fun r => ?_
    dsimp only
    split
    · simp
    · split <;> simp

@[simp] theorem interp_doQuit : (doQuit fd).interp succeed = C.doQuit := by
  simp only [doQuit, C.doQuit, Proc.interp_bind, interp_lift]
  refine congrArg _ (funext fun sent => ?_)
  split
  · exact interp_readFrame_bind rfl fun r => interp_free r.payload
  · rfl

end Interp

/-- **The client that allocates is the client that does not**, when what it allocates is there. -/
theorem session_interp (fd : Nat) (command : Command) :
    (session fd command).interp succeed = C.main command := by
  have hrun : (runCommand fd command).interp succeed = C.runCommand command := by
    cases command with
    | list => simp only [runCommand, C.runCommand, Proc.interp_bind, interp_doList]; rfl
    | get name other => exact interp_doGet _ _
    | put name other => exact interp_doPut _ _
  simp only [session, C.main, Proc.interp_bind, interp_doHello]
  refine congrArg _ (funext fun greeted => ?_)
  split
  · rfl
  · simp only [Proc.interp_bind, hrun]
    refine congrArg _ (funext fun ran => ?_)
    split
    · rfl
    · simp only [Proc.interp_bind, interp_doQuit]
      rfl

end Retriever.C.Res
