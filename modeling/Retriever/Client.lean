/-
# Retriever.Client — `client.py`

`do_list`, `do_get` and `do_put`, and `main` from the moment the socket is open. The standard output is
that of a UTF-8 locale, where `print` raises for a name that is not UTF-8. The listing, which has been
decoded, is kept as the result of `do_list`; the line that closes a transfer is `printDone`, after the
rest of `do_get` and `do_put`; the line of a resumed transfer names only what has been encoded already.
What `fail` prints is kept in the exception: a file name is shown with undecodable bytes replaced, and
the text of an `OSError`, which is the system's, is left out.
-/
import Retriever.Protocol
import Mathlib.Data.Char
import Mathlib.Data.List.Lex

namespace Retriever

/-- The server refused the request. -/
def EXIT_SERVER : Nat := 1

/-- A problem on our side of the disk. -/
def EXIT_LOCAL : Nat := 2

/-- A connection or protocol failure. -/
def EXIT_CONN : Nat := 3

def fail {α : Type} (code : Nat) (message : Text) : Py α := throw (.exit code message)

/-- `_read_error_payload` -/
def readErrorPayload (payloadLen : Nat) : Py (UInt8 × Text) := do
  if payloadLen > (payloadCaps T_ERROR).getD 0 then
    throw (.frameError E_MALFORMED "oversized error frame from server".toList)
  else do
    let payload ← readExactBytes payloadLen
    Proc.ofExcept (unpackError payload)

/-! ## LIST -/

/-- `sorted(names)`: by code points. -/
def sortNames (names : List Text) : List Text :=
  names.mergeSort fun a b => decide (a ≤ b)

/-- The names that are printed. -/
def doList : Py (List Text) := do
  writeFrame T_LIST []
  let f ← readFrame
  if f.type = T_ERROR then do
    let (_, message) ← Proc.ofExcept (unpackError f.payload)
    fail EXIT_SERVER message
  else do
    let names ← Proc.ofExcept (((f.payload.splitOn 0).filter (· ≠ [])).mapM decodeStrict)
    return sortNames names

/-! ## GET -/

/-- `output or os.path.basename(filename)` -/
def getDest (filename : Bytes) (output : Option Bytes) : Bytes :=
  match output with
  | none => Path.basename filename
  | some o => if o = [] then Path.basename filename else o

/-- `b"\0" * H.TOKEN_SIZE` -/
def noToken : Bytes := List.replicate TOKEN_SIZE 0

/-- What is offered to the server: the size of the leftover partial and the token in its name. -/
def offerOf (existing : Option Bytes) : Py (Nat × Bytes) :=
  match existing with
  | none => pure (0, noToken)
  | some path => do
    let offset ← Py.getsize path
    return (offset, (partialToken path).getD noToken)

/-- The payload of a GET. -/
def packGet (offset : Nat) (token filename : Bytes) : Except Exn Bytes := do
  let nameBytes ← encodePath filename
  let offset8 ← toBytes 8 offset
  let len2 ← toBytes 2 nameBytes.length
  return offset8 ++ token ++ len2 ++ nameBytes

/-- The loop that writes the body to the partial. Every round writes at least one byte. -/
def saveBody (f : Nat) : Nat → Nat → Py Unit
  | 0, _ => pure ()
  | fuel + 1, remaining =>
    if remaining > 0 then do
      let chunk ← Py.recv (min 65536 remaining)
      if chunk = [] then throw (.sys .connectionError)
      else do
        Py.write f chunk
        saveBody f fuel (remaining - chunk.length)
    else pure ()

/-- The `try` of `do_get`: everything that goes wrong in it ends the program. -/
def fetchBody (partialPath : Bytes) (totalSize start : Nat) : Py Unit :=
  (do
    let f ← if start ≠ 0 then Py.openAb partialPath else Py.openWb partialPath
    saveBody f (totalSize - start) (totalSize - start)).tryCatch fun _ =>
      fail EXIT_CONN "download interrupted (partial kept for resume)".toList

/-- The end of `do_get`: nothing is called `dest` before its hash checks out. -/
def verifyDownload (dest partialPath digest : Bytes) : Py Unit := do
  if (← sha256File partialPath) ≠ digest then do
    Py.remove partialPath
    fail EXIT_CONN "downloaded content did not match the server's hash".toList
  else Py.replace partialPath dest

/-- The part of `do_get` after the metadata has been read. -/
def receiveDownload (dest : Bytes) (existing : Option Bytes) (metadata : Bytes) : Py Unit := do
  let totalSize := ofBE (metadata.take 8)
  let start := ofBE ((metadata.drop 8).take 8)
  let digest := metadata.drop 16
  let partialPath := partialName dest digest
  -- a reply from the start is about a different file than the old bytes
  if start = 0 then
    match existing with
    | some path => Py.remove path
    | none => pure ()
  fetchBody partialPath totalSize start
  verifyDownload dest partialPath digest

/-- The reply to a GET: its header, and what follows. -/
def receiveGetReply (dest : Bytes) (existing : Option Bytes) : Py Unit := do
  let (t, payloadLen) ← readFrameHeader
  if t = T_ERROR then do
    let (_, message) ← readErrorPayload payloadLen
    fail EXIT_SERVER message
  else do
    let metadata ← readExactBytes GET_META
    receiveDownload dest existing metadata

/-- `do_get`, up to the line it prints at its end. -/
def doGet (filename : Bytes) (output : Option Bytes) : Py Unit := do
  let dest := getDest filename output
  if ← Py.pathExists dest then
    fail EXIT_LOCAL ("'".toList ++ decodeReplace dest
      ++ "' already exists locally, use -o to pick another name".toList)
  else do
    let existing ← findPartial dest
    let (offset, token) ← offerOf existing
    writeFrame T_GET (← Proc.ofExcept (packGet offset token filename))
    receiveGetReply dest existing

/-! ## PUT -/

/-- `remote_name or os.path.basename(filename)` -/
def putRemote (filename : Bytes) (remoteName : Option Bytes) : Bytes :=
  match remoteName with
  | none => Path.basename filename
  | some r => if r = [] then Path.basename filename else r

/-- The payload of a PUT. -/
def packPut (fileSize : Nat) (digest remote : Bytes) : Except Exn Bytes := do
  let nameBytes ← encodePath remote
  let size8 ← toBytes 8 fileSize
  let len2 ← toBytes 2 nameBytes.length
  return size8 ++ digest ++ len2 ++ nameBytes

/-- A frame of the server, where an ERROR ends the program: the payload of any other frame. -/
def readReply : Py Bytes := do
  let f ← readFrame
  if f.type = T_ERROR then do
    let (_, message) ← Proc.ofExcept (unpackError f.payload)
    fail EXIT_SERVER message
  else return f.payload

/-- The loop that sends the body from `pos` on. Every round sends at least one byte. -/
def uploadBody (f : Nat) : Nat → Nat → Nat → Py Unit
  | 0, _, _ => pure ()
  | fuel + 1, pos, remaining =>
    if remaining > 0 then do
      let chunk ← Py.read f pos (min 65536 remaining)
      if chunk = [] then pure ()
      else do
        Py.sendall chunk
        uploadBody f fuel (pos + chunk.length) (remaining - chunk.length)
    else pure ()

/-- `f.seek(offset)`: an offset that `off_t` cannot hold is a `ValueError`. `main` catches it as little as
an `OverflowError`, and it stands with these. -/
def seek (offset : Nat) : Py Unit := if offset < OFF_MAX then pure () else throw .overflowError

/-- `do_put`, up to the line it prints at its end. -/
def doPut (filename : Bytes) (remoteName : Option Bytes) : Py Unit := do
  if (← Py.isfile filename) = false then
    fail EXIT_LOCAL ("'".toList ++ decodeReplace filename ++ "' not found locally".toList)
  else do
    let fileSize ← Py.getsize filename
    let digest ← sha256File filename
    writeFrame T_PUT (← Proc.ofExcept (packPut fileSize digest (putRemote filename remoteName)))
    let payload ← readReply
    let resumeOffset := ofBE (payload.take 8)
    let f ← Py.openRb filename
    seek resumeOffset
    uploadBody f (fileSize - resumeOffset) resumeOffset (fileSize - resumeOffset)
    let _verdict ← readReply

/-! ## The program -/

/-- `connect`, once the socket is open. -/
def connect : Py Unit := do
  writeFrame T_HELLO []
  let f ← readFrame
  if f.type = T_ERROR then do
    let (_, message) ← Proc.ofExcept (unpackError f.payload)
    fail EXIT_SERVER ("server refused connection: ".toList ++ message)
  else pure ()

/-- A command line that the parser has accepted. -/
inductive Command where
  | list
  | get (filename : Bytes) (output : Option Bytes)
  | put (filename : Bytes) (remoteName : Option Bytes)
  deriving DecidableEq, Repr

/-- `print(f"downloaded '{filename}' ... -> {dest}")` and `print(f"uploaded '{filename}' ... -> {remote}")`:
both names have to be encoded. -/
def printDone (filename target : Bytes) : Py Unit := do
  let _filename ← Proc.ofExcept (encodePath filename)
  let _target ← Proc.ofExcept (encodePath target)

def Command.run : Command → Py Unit
  | .list => do let _printed ← doList
  | .get filename output => do
    doGet filename output
    printDone filename (getDest filename output)
  | .put filename remoteName => do
    doPut filename remoteName
    printDone filename (putRemote filename remoteName)

/-- The body of the `try` of `main`: the command and the goodbye. -/
def runAndQuit (command : Command) : Py Unit := do
  command.run
  writeFrame T_QUIT []
  let _reply ← readFrame

/-- `main`. The handshake is made before the `try`. -/
def main (command : Command) : Py Unit := do
  connect
  (runAndQuit command).tryCatch fun
    | .frameError _ message => fail EXIT_CONN ("protocol error: ".toList ++ message)
    | .sys .timeout => fail EXIT_CONN "server stopped responding".toList
    | .sys _ => fail EXIT_CONN "connection failed".toList
    | e => throw e

/-- The exit status of the process. An exception that leaves `main` is reported with a traceback, and the
status is 1. -/
def exitStatus : Except Exn Unit → Nat
  | .ok _ => 0
  | .error (.exit code _) => code
  | .error _ => 1

end Retriever
