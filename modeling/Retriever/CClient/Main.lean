/-
# Retriever.CClient.Main — `main.c`

The listing, and `main` from the moment the socket is open. What is printed on `stderr` is left out; the
names `do_list` prints on `stdout` are its result, -1 is `none`. The result of `main` is the exit status.
-/
import Retriever.Client
import Retriever.CClient.Transfer

namespace Retriever.C

/-- The loop over the payload, from a given list of values of `i` on: a name ends at a zero byte or
at the end of the payload. -/
def listNames (payload : Bytes) (start : Nat) : List Nat → List Bytes
  | [] => []
  | i :: is =>
    if i = payload.length ∨ payload.getD i 0 = 0 then
      (if i > start then [(payload.drop start).take (i - start)] else [])
        ++ listNames payload (i + 1) is
    else listNames payload start is

/-- `(int)x` -/
def toInt (x : UInt64) : Int := x.toUInt32.toInt32.toInt

/-- `i == payload_len || payload[i] == 0`; `none` when it reads outside the payload. -/
def nameEnds (payload : Bytes) (payloadLen i : UInt64) : Option Bool :=
  if i = payloadLen then some true else payload[i.toNat]?.map fun b => decide (b = 0)

/-- What is printed at the end of a name. -/
def printName (payload : Bytes) (start i : UInt64) : Option (List Bytes) :=
  if i > start then (printString (toInt (i - start)) (payload.drop start.toNat)).map ([·]) else some []

/-- The loop over the payload with its counters, from `i` and `start` on: what is printed, and `none` when
it reads outside the payload or does not come to an end. -/
def printNames (payload : Bytes) (payloadLen : UInt64) : Nat → UInt64 → UInt64 → Option (List Bytes)
  | 0, _, _ => none
  | fuel + 1, i, start =>
    if i ≤ payloadLen then do
      if ← nameEnds payload payloadLen i then do
        let printed ← printName payload start i
        let others ← printNames payload payloadLen fuel (i + 1) (i + 1)
        return printed ++ others
      else printNames payload payloadLen fuel (i + 1) start
    else some []

/-- `do_list` -/
def doList : CProg (Option (List Bytes)) := do
  if (← writeFrame T_LIST []) = false then return none
  else
    match ← readFrame with
    | none => return none
    | some f =>
      if f.type = T_ERROR then return none
      else if f.type ≠ T_OK then return none
      else return some (listNames f.payload 0 (List.range (f.payload.length + 1)))

/-- `EXIT_SERVER` of `main.c` -/
def EXIT_SERVER : Nat := 1

/-- `EXIT_CONN` of `main.c` -/
def EXIT_CONN : Nat := 3

/-- `do_hello`; `false` is -1. -/
def doHello : CProg Bool := do
  if (← writeFrame T_HELLO []) = false then return false
  else
    match ← readFrame with
    | none => return false
    | some f =>
      if f.type = T_ERROR then return false
      else if f.type ≠ T_OK then return false
      else return true

/-- `do_quit` -/
def doQuit : CProg Unit := do
  if (← writeFrame T_QUIT []) = true then
    let _ ← readFrame
  else return ()

/-- `basename_of` -/
def basenameOf (path : Bytes) : Bytes := Path.tail path

/-- The command that `main` carries out; `false` is -1. -/
def runCommand : Command → CProg Bool
  | .list => do return (← doList).isSome
  | .get name other => doGet name (other.getD (basenameOf name))
  | .put name other => doPut name (other.getD (basenameOf name))

/-- `main` -/
def main (command : Command) : CProg Nat := do
  if (← doHello) = false then return EXIT_CONN
  else if (← runCommand command) = false then return EXIT_SERVER
  else do
    doQuit
    return 0

end Retriever.C
