/-
# Retriever.Protocol — `protocol.py`

Frames, error payloads, partial files and file names, as the server and the Python client share
them. The functions that talk to a socket or to the disk are programs over `Sys`; the others are
functions on bytes.
-/
import Retriever.PyLib
import Retriever.Sha256.Fips180

namespace Retriever

/-! ## Constants -/

/-- `b"RTRV"` -/
def MAGIC : Bytes := [0x52, 0x54, 0x52, 0x56]
def VERSION : UInt8 := 3
def HEADER_SIZE : Nat := 14
def HASH_SIZE : Nat := 32
def TOKEN_SIZE : Nat := 8
def GET_PREFIX : Nat := 8 + TOKEN_SIZE + 2
def GET_META : Nat := 8 + 8 + HASH_SIZE
def PUT_PREFIX : Nat := 8 + HASH_SIZE + 2

def T_LIST : UInt8 := 0x00
def T_GET : UInt8 := 0x01
def T_PUT : UInt8 := 0x02
def T_HELLO : UInt8 := 0x10
def T_QUIT : UInt8 := 0x11
def T_OK : UInt8 := 0x80
def T_ERROR : UInt8 := 0x81

def E_BAD_NAME : UInt8 := 1
def E_NOT_FOUND : UInt8 := 2
def E_ALREADY_EXISTS : UInt8 := 3
def E_MALFORMED : UInt8 := 4
def E_UNSUPPORTED_VERSION : UInt8 := 5
def E_INTERNAL : UInt8 := 6
def E_TOO_LARGE : UInt8 := 7
def E_CORRUPT : UInt8 := 8

/-- 1 GiB -/
def MAX_FILE_SIZE : Nat := 1024 ^ 3

/-- `PAYLOAD_CAPS.get(t)` -/
def payloadCaps (t : UInt8) : Option Nat :=
  if t = T_HELLO ∨ t = T_QUIT ∨ t = T_LIST then some 0
  else if t = T_GET ∨ t = T_PUT ∨ t = T_OK ∨ t = T_ERROR then some (64 * 1024)
  else none

structure Frame where
  type : UInt8
  payload : Bytes
  deriving DecidableEq, Repr

/-- `f"{t:02X}"` -/
def hex02X (t : UInt8) : Text :=
  (Nat.toDigits 16 t.toNat).map Char.toUpper |>.leftpad 2 '0'

/-! ## Frames -/

/-- `MAGIC + bytes([VERSION, t]) + n.to_bytes(8, "big")` -/
def frameHeader (t : UInt8) (n : Nat) : Except Exn Bytes :=
  (toBytes 8 n).map fun len => MAGIC ++ [VERSION, t] ++ len

def writeFrameHeader (t : UInt8) (payloadLen : Nat) : Py Unit := do
  Py.sendall (← Proc.ofExcept (frameHeader t payloadLen))

def writeFrame (t : UInt8) (payload : Bytes) : Py Unit := do
  let header ← Proc.ofExcept (frameHeader t payload.length)
  Py.sendall (header ++ payload)

/-- The loop of `read_exact_bytes`. Every round adds at least one byte, so `n` rounds are enough. -/
def readExactLoop (n : Nat) : Nat → Bytes → Py Bytes
  | 0, data => pure data
  | fuel + 1, data =>
    if data.length < n then do
      let chunk ← Py.recv (n - data.length)
      if chunk = [] then throw (.sys .connectionError)
      else readExactLoop n fuel (data ++ chunk)
    else pure data

def readExactBytes (n : Nat) : Py Bytes := readExactLoop n n []

/-- The checks of `read_frame_header` on the 14 bytes. -/
def parseHeader (header : Bytes) : Except Exn (UInt8 × Nat) :=
  if header.take 4 ≠ MAGIC then
    .error (.frameError E_UNSUPPORTED_VERSION "bad magic: not a retriever v2 peer".toList)
  else if header.getD 4 0 ≠ VERSION then
    .error (.frameError E_UNSUPPORTED_VERSION
      ("unsupported version ".toList ++ Nat.toDigits 10 (header.getD 4 0).toNat))
  else if payloadCaps (header.getD 5 0) = none then
    .error (.frameError E_MALFORMED ("unknown frame type 0x".toList ++ hex02X (header.getD 5 0)))
  else .ok (header.getD 5 0, ofBE ((header.drop 6).take 8))

def readFrameHeader : Py (UInt8 × Nat) := do
  let header ← readExactBytes HEADER_SIZE
  Proc.ofExcept (parseHeader header)

def readFrame : Py Frame := do
  let (t, n) ← readFrameHeader
  if n > (payloadCaps t).getD 0 then
    throw (.frameError E_MALFORMED ("payload of ".toList ++ Nat.toDigits 10 n
      ++ " bytes exceeds cap for type 0x".toList ++ hex02X t))
  else do
    let payload ← if n ≠ 0 then readExactBytes n else pure []
    return ⟨t, payload⟩

/-- An ERROR payload: reason, message length, message. -/
def packError (reason : UInt8) (message : Text) : Except Exn Bytes :=
  (toBytes 2 (encode message).length).map fun len => [reason] ++ len ++ encode message

def unpackError (payload : Bytes) : Except Exn (UInt8 × Text) :=
  if payload.length < 3 then
    .error (.frameError E_MALFORMED "error payload shorter than 3 bytes".toList)
  else if payload.length ≠ 3 + ofBE ((payload.drop 1).take 2) then
    .error (.frameError E_MALFORMED "error payload length does not match msg_len".toList)
  else (decodeStrict (payload.drop 3)).map fun message => (payload.getD 0 0, message)

/-! ## Integrity and resume -/

/-- `hashlib.sha256(data).digest()` -/
def sha256 (data : Bytes) : Bytes := Fips180.sha256 data

/-- The hash object is fed chunk by chunk; its digest is the one of the chunks joined. -/
def sha256File (p : Bytes) : Py Bytes := do
  let f ← Py.openRb p
  let data ← Py.readAll f (1024 * 1024) OFF_MAX []
  return sha256 data

/-- `".{}.{}.part".format(base, digest[:TOKEN_SIZE].hex())` -/
def partialBase (base digest : Bytes) : Bytes :=
  [Os.DOT] ++ base ++ [Os.DOT] ++ hex (digest.take TOKEN_SIZE) ++ ascii ".part"

def partialName (name digest : Bytes) : Bytes :=
  Path.join (Path.split name).1 (partialBase (Path.split name).2 digest)

def partialToken (path : Bytes) : Option Bytes :=
  let parts := (Path.basename path).splitOn Os.DOT
  if parts.length < 4 ∨ parts.getLast? ≠ some (ascii "part") then none
  else
    match fromHex (parts.getD (parts.length - 2) []) with
    | none => none
    | some token => if token.length = TOKEN_SIZE then some token else none

/-- The pattern `find_partial` looks for. -/
def partialPattern (name : Bytes) : Bytes :=
  Path.join (Path.split name).1
    ([Os.DOT] ++ Glob.escape (Path.split name).2 ++ ascii ".*.part")

def findPartial (name : Bytes) : Py (Option Bytes) := do
  match ← Glob.glob (partialPattern name) with
  | [m] => return some m
  | _ => return none

/-- The body of the loop of `sweep_partials`: what is added to `removed`. A file that has vanished or is
not ours is passed over. -/
def sweepOne {T : Type} [Sub T] [LT T] [DecidableLT T] (now maxAge : T)
    (getmtime : Bytes → Except SysErr T) (path : Bytes) : Py Nat :=
  (do
    let mtime ← Py.orRaise (getmtime path)
    if now - mtime > maxAge then do
      Py.remove path
      return 1
    else return 0).tryCatch fun
    | .sys _ => pure 0
    | e => throw e

def sweepLoop {T : Type} [Sub T] [LT T] [DecidableLT T] (now maxAge : T)
    (getmtime : Bytes → Except SysErr T) : Nat → List Bytes → Py Nat
  | removed, [] => pure removed
  | removed, path :: paths => do
    let n ← sweepOne now maxAge getmtime path
    sweepLoop now maxAge getmtime (removed + n) paths

/-- `sweep_partials`. The clock and the modification times are not part of `Sys`: `now` is what
`time.time()` gives, `getmtime` is what the system reports during the sweep. Points in time are of any
type that can be subtracted and compared. -/
def sweepPartials {T : Type} [Sub T] [LT T] [DecidableLT T] (now maxAge : T)
    (getmtime : Bytes → Except SysErr T) : Py Nat := do
  let paths ← Glob.glob (ascii ".*.part")
  sweepLoop now maxAge getmtime 0 paths

/-! ## File names -/

/-- `".." in name` -/
def hasDotDot : Text → Bool
  | '.' :: '.' :: _ => true
  | _ :: rest => hasDotDot rest
  | [] => false

def checkFilename (name : Text) : Bool :=
  if name.isEmpty || name.length > 255 then false
  else if name.contains '/' || name.contains '\\' || hasDotDot name then false
  else name.all fun ch => 32 ≤ ch.toNat && ch.toNat < 127

end Retriever
