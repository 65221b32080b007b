/-
# Retriever.Server — `server.py`

The command handlers and one client session. Logging is left out; it changes nothing the programs
compute. A `str` name that has passed `check_filename` is ASCII and is used as the path made of the
same bytes.

`handle_client` runs for as long as its client likes, so a session is a machine: a mode, which
says where in `handle_client` it stands, with the program that is left to run there. A finished
program hands over to the next mode (`settle…`), an exception goes to the `except` clauses
(`onError`).
-/
import Retriever.Protocol

namespace Retriever

def sendError (reason : UInt8) (message : Text) : Py Unit := do
  writeFrame T_ERROR (← Proc.ofExcept (packError reason message))

/-! ## Request payloads -/

def parseName (payload : Bytes) : Except Exn (Text × Bytes) :=
  if payload.length < 2 then
    .error (.frameError E_MALFORMED "payload too short for a name length".toList)
  else
    let nameLen := ofBE (payload.take 2)
    if payload.length < 2 + nameLen then
      .error (.frameError E_MALFORMED "payload shorter than its name_len claims".toList)
    else .ok (decodeReplace ((payload.drop 2).take nameLen), payload.drop (2 + nameLen))

structure GetRequest where
  offset : Nat
  token : Bytes
  name : Text
  deriving DecidableEq, Repr

/-- The field parsing of `handle_get`. -/
def parseGet (payload : Bytes) : Except Exn GetRequest :=
  if payload.length < GET_PREFIX then
    .error (.frameError E_MALFORMED "GET payload shorter than its fixed fields".toList)
  else
    match parseName (payload.drop 16) with
    | .error e => .error e
    | .ok (name, rest) =>
      if rest ≠ [] then .error (.frameError E_MALFORMED "trailing bytes after GET name".toList)
      else .ok ⟨ofBE (payload.take 8), (payload.drop 8).take 8, name⟩

structure PutRequest where
  fileSize : Nat
  digest : Bytes
  name : Text
  deriving DecidableEq, Repr

/-- The path `os` calls get for the name. -/
def PutRequest.path (r : PutRequest) : Bytes := encode r.name

/-- `partial` in `handle_put`. -/
def PutRequest.partialPath (r : PutRequest) : Bytes := partialName r.path r.digest

/-- The field parsing of `handle_put`. -/
def parsePut (payload : Bytes) : Except Exn PutRequest :=
  if payload.length < PUT_PREFIX then
    .error (.frameError E_MALFORMED "PUT payload shorter than its fixed fields".toList)
  else
    match parseName (payload.drop (8 + HASH_SIZE)) with
    | .error e => .error e
    | .ok (name, rest) =>
      if rest ≠ [] then .error (.frameError E_MALFORMED "trailing bytes after PUT name".toList)
      else .ok ⟨ofBE (payload.take 8), (payload.drop 8).take HASH_SIZE, name⟩

/-! ## LIST and GET -/

/-- `b"\0".join(...)` -/
def joinNul (names : List Bytes) : Bytes := List.intercalate [0] names

def handleList : Py Unit := do
  let names ← Py.listdir [Os.DOT]
  let encoded ← Proc.ofExcept (names.mapM encodePath)
  writeFrame T_OK (joinNul encoded)

/-- The loop that sends the body. Every round sends at least one byte. -/
def sendBody (f : Nat) : Nat → Nat → Nat → Py Unit
  | 0, _, _ => pure ()
  | fuel + 1, pos, remaining =>
    if remaining > 0 then do
      let chunk ← Py.read f pos (min 65536 remaining)
      if chunk = [] then pure ()
      else do
        Py.sendall chunk
        sendBody f fuel (pos + chunk.length) (remaining - chunk.length)
    else pure ()

/-- Where a reply starts: the offset is honoured only for the file the token belongs to. -/
def startOffset (offset : Nat) (token digest : Bytes) : Nat :=
  if offset ≠ 0 ∧ token = digest.take TOKEN_SIZE then offset else 0

/-- The part of `handle_get` after the name has been checked. -/
def serveFile (path : Bytes) (offset : Nat) (token : Bytes) : Py Unit := do
  let size ← Py.getsize path
  if offset > size then
    throw (.frameError E_MALFORMED "GET offset is past the end of the file".toList)
  else do
    let digest ← sha256File path
    let start := startOffset offset token digest
    let bodyLen := size - start
    writeFrameHeader T_OK (GET_META + bodyLen)
    let size8 ← Proc.ofExcept (toBytes 8 size)
    let start8 ← Proc.ofExcept (toBytes 8 start)
    Py.sendall (size8 ++ start8 ++ digest)
    let f ← Py.openRb path
    sendBody f bodyLen start bodyLen

def handleGet (payload : Bytes) : Py Unit := do
  let req ← Proc.ofExcept (parseGet payload)
  if checkFilename req.name = false then sendError E_BAD_NAME "invalid filename".toList
  else if (← Py.isfile (encode req.name)) = false then
    sendError E_NOT_FOUND "not found on server".toList
  else serveFile (encode req.name) req.offset req.token

/-! ## PUT -/

/-- The loop that receives the body, from `written` bytes on. Every round adds at least one byte. -/
def receiveBody (out fileSize : Nat) : Nat → Nat → Py Unit
  | 0, _ => pure ()
  | fuel + 1, written =>
    if written < fileSize then do
      let chunk ← Py.recv (min 65536 (fileSize - written))
      if chunk = [] then
        throw (.sys .connectionError)
      else do
        Py.write out chunk
        receiveBody out fileSize fuel (written + chunk.length)
    else pure ()

/-- How many bytes of the upload the server holds; a partial that is too long is removed. -/
def resumeOffset (partialPath : Bytes) (fileSize : Nat) : Py Nat := do
  let held ← if ← Py.pathExists partialPath then Py.getsize partialPath else pure 0
  if held > fileSize then do
    Py.remove partialPath
    return 0
  else return held

/-- The part of `_receive_upload` after the hash has been checked. -/
def publish (name partialPath : Bytes) : Py Unit := do
  -- the first eight bytes are looked at for a warning in the log only
  let f ← Py.openRb partialPath
  let _head ← Py.read f 0 8
  let linked ← (do Py.link partialPath name; return true).tryCatch fun
    | .sys .fileExists => return false
    | e => throw e
  if linked = false then do
    Py.remove partialPath
    sendError E_ALREADY_EXISTS "file already exists on server".toList
  else do
    Py.remove partialPath
    writeFrame T_OK []

/-- `_receive_upload` -/
def receiveUpload (name partialPath : Bytes) (fileSize : Nat) (digest : Bytes) : Py Unit := do
  let offset ← resumeOffset partialPath fileSize
  let offset8 ← Proc.ofExcept (toBytes 8 offset)
  writeFrame T_OK offset8
  let out ← Py.openAb partialPath
  receiveBody out fileSize (fileSize - offset) offset
  if (← sha256File partialPath) ≠ digest then do
    Py.remove partialPath
    sendError E_CORRUPT "content did not match the stated hash".toList
  else publish name partialPath

def handlePut (payload : Bytes) : Py Unit := do
  let req ← Proc.ofExcept (parsePut payload)
  if checkFilename req.name = false then sendError E_BAD_NAME "invalid filename".toList
  else if req.fileSize > MAX_FILE_SIZE then
    sendError E_TOO_LARGE
      ("file exceeds the ".toList ++ Nat.toDigits 10 MAX_FILE_SIZE ++ " byte limit".toList)
  else if ← Py.pathExists req.path then
    sendError E_ALREADY_EXISTS "file already exists on server".toList
  -- the rejection is sent before the lock is released; it touches nothing the lock guards
  else if (← Py.reserve req.partialPath) = false then
    sendError E_ALREADY_EXISTS "an upload of this file is in progress".toList
  else
    Proc.ensure (Py.discard req.partialPath)
      (receiveUpload req.path req.partialPath req.fileSize req.digest)

/-! ## A session -/

def greet : Py Unit := do
  let f ← readFrame
  if f.type ≠ T_HELLO then
    throw (.frameError E_MALFORMED "expected HELLO before any command".toList)
  else writeFrame T_OK []

/-- The top of the loop: the next command frame, or nothing when the client has closed. -/
def nextFrame : Py (Option Frame) :=
  (do return some (← readFrame)).tryCatch fun
    | .sys .connectionError => return none
    | e => throw e

/-- The rest of the loop body; `false` leaves the loop. -/
def dispatch (f : Frame) : Py Bool :=
  if f.type = T_QUIT then do writeFrame T_OK []; return false
  else if f.type = T_LIST then do handleList; return true
  else if f.type = T_GET then do handleGet f.payload; return true
  else if f.type = T_PUT then do handlePut f.payload; return true
  else throw (.frameError E_MALFORMED "expected a command frame".toList)

/-- The `except` clauses of `handle_client`. What escapes from here ends the thread, as returning
does. -/
def onError : Exn → Py Unit
  | .frameError reason message => sendError reason message
  | .sys .timeout | .sys .connectionError => pure ()
  | _ => sendError E_INTERNAL "internal server error".toList

/-- A request of a session: its number, counted from the greeting, and its frame. -/
abbrev Request := Nat × Frame

inductive Session where
  | greeting (p : Py Unit)
  | awaiting (n : Nat) (p : Py (Option Frame))
  | serving (r : Request) (p : Py Bool)
  | failing (r : Option Request) (p : Py Unit)
  | closed

namespace Session

def settleFailing (r : Option Request) : Py Unit → Session
  | .done _ | .raise _ => closed
  | .call o k => failing r (.call o k)

def fail (r : Option Request) (e : Exn) : Session := settleFailing r (onError e)

def settleServing (r : Request) : Py Bool → Session
  | .done true => awaiting (r.1 + 1) nextFrame
  | .done false => closed
  | .raise e => fail (some r) e
  | .call o k => serving r (.call o k)

def settleAwaiting (n : Nat) : Py (Option Frame) → Session
  | .done (some f) => settleServing (n, f) (dispatch f)
  | .done none => closed
  | .raise e => fail none e
  | .call o k => awaiting n (.call o k)

def settleGreeting : Py Unit → Session
  | .done _ => awaiting 0 nextFrame
  | .raise e => fail none e
  | .call o k => greeting (.call o k)

/-- A connection that has just been accepted. -/
def accepted : Session := greeting greet

/-- The operation a session performs next and what becomes of it with the answer. -/
def next : Session → Option ((o : Sys) × (o.Ans → Session))
  | greeting (.call o k) => some ⟨o, fun a => settleGreeting (k a)⟩
  | awaiting n (.call o k) => some ⟨o, fun a => settleAwaiting n (k a)⟩
  | serving r (.call o k) => some ⟨o, fun a => settleServing r (k a)⟩
  | failing r (.call o k) => some ⟨o, fun a => settleFailing r (k a)⟩
  | _ => none

/-- The request a session is busy with. -/
def request : Session → Option Request
  | serving r _ => some r
  | failing r _ => r
  | _ => none

end Session

end Retriever
