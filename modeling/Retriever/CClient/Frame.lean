/-
# Retriever.CClient.Frame — `frame.c`

Byte packing, exact reads and writes, and frames, in C. A function that fills in its arguments and
returns 0 or -1 is a program with an optional result. A call that a signal interrupts is made
again, so `recv` here is the first one that is not interrupted, and `send` is the whole loop of
`rtrv_write_all`, which goes on until everything is out. `malloc` succeeds.
-/
import Retriever.Protocol

namespace Retriever.C

/-! ## Byte packing -/

/-- `rtrv_put_u16` -/
def putU16 (value : UInt16) : Bytes := [((value >>> 8) &&& 0xFF).toUInt8, (value &&& 0xFF).toUInt8]

/-- `rtrv_put_u64`: one shift and mask per byte. -/
def putU64 (value : UInt64) : Bytes :=
  (List.range 8).map fun i => ((value >>> UInt64.ofNat (56 - 8 * i)) &&& 0xFF).toUInt8

/-- `rtrv_get_u16` -/
def getU16 (src : Bytes) : UInt16 := ((src.getD 0 0).toUInt16 <<< 8) ||| (src.getD 1 0).toUInt16

/-- `rtrv_get_u64` -/
def getU64 (src : Bytes) : UInt64 :=
  (List.range 8).foldl (fun value i => (value <<< 8) ||| (src.getD i 0).toUInt64) 0

/-! ## Socket helpers -/

/-- The loop of `rtrv_read_exact`. Every round adds at least one byte, so `n` rounds are enough. -/
def readExactLoop (n : Nat) : Nat → Bytes → CProg (Option Bytes)
  | 0, buf => pure (some buf)
  | fuel + 1, buf =>
    if buf.length < n then do
      match ← Proc.perform (Sys.recv (n - buf.length)) with
      | .error _ => return none
      | .ok chunk => if chunk = [] then return none else readExactLoop n fuel (buf ++ chunk)
    else pure (some buf)

/-- `rtrv_read_exact` -/
def readExact (n : Nat) : CProg (Option Bytes) := readExactLoop n n []

/-- `rtrv_write_all`; `false` is -1. -/
def writeAll (buf : Bytes) : CProg Bool := do
  match ← Proc.perform (Sys.send buf) with
  | .ok _ => return true
  | .error _ => return false

/-! ## Frames -/

/-- `RTRV_PAYLOAD_CAP` -/
def PAYLOAD_CAP : Nat := 64 * 1024

/-- `rtrv_write_frame`: the header and the payload in two writes. -/
def writeFrame (t : UInt8) (payload : Bytes) : CProg Bool := do
  if (← writeAll (MAGIC ++ [VERSION, t] ++ putU64 (UInt64.ofNat payload.length))) = false then
    return false
  else if payload.length > 0 then writeAll payload
  else return true

/-- `rtrv_read_frame_header` -/
def readFrameHeader : CProg (Option (UInt8 × UInt64)) := do
  match ← readExact HEADER_SIZE with
  | none => return none
  | some header =>
    if header.take 4 ≠ MAGIC then return none
    else if header.getD 4 0 ≠ VERSION then return none
    else return some (header.getD 5 0, getU64 (header.drop 6))

/-- `rtrv_read_frame` -/
def readFrame : CProg (Option Frame) := do
  match ← readFrameHeader with
  | none => return none
  | some (t, payloadLen) =>
    if payloadLen.toNat > PAYLOAD_CAP then return none
    else if payloadLen = 0 then return some ⟨t, []⟩
    else
      match ← readExact payloadLen.toNat with
      | none => return none
      | some payload => return some ⟨t, payload⟩

/-! ## `printf` -/

/-- At most `n` bytes of a string, up to its zero byte; `none` when that is a read past the end of the
object. -/
def readString : Nat → Bytes → Option Bytes
  | 0, _ => some []
  | _ + 1, [] => none
  | n + 1, b :: bs => if b = 0 then some [] else (readString n bs).map (b :: ·)

/-- `"%.*s"` with a pointer to `mem`, the bytes up to the end of the object. A negative precision is taken
as if it were not there. -/
def printString (precision : Int) (mem : Bytes) : Option Bytes :=
  if precision < 0 then readString (mem.length + 1) mem else readString precision.toNat mem

/-- What `rtrv_report_error` prints. -/
inductive Report where
  | malformed
  | wrongLength
  | message (reason : UInt8) (message : Bytes)
  deriving DecidableEq, Repr

/-- `rtrv_report_error`; `none` when it reads outside the payload. -/
def reportError (payload : Bytes) : Option Report :=
  if payload.length < 3 then some .malformed
  else
    let reason := payload.getD 0 0
    let messageLen := getU16 (payload.drop 1)
    if messageLen.toNat + 3 > payload.length then some .wrongLength
    else (printString messageLen.toNat (payload.drop 3)).map fun message => .message reason message

end Retriever.C
