/-
# Retriever.CClient.Socket — `frame.c`, call by call

`rtrv_read_exact` and `rtrv_write_all` with every `recv` and `send` they make, and the frames on top of
them. A call gives a count, is interrupted by a signal, or fails; `recv` also reports the end of the
stream. Here the calls of a loop are bounded by `rounds`. A function that has used them up has not
returned yet, which is the exception of these programs.
-/
import Retriever.CClient.Frame

namespace Retriever.C.Sock

/-- `recv(fd, p + off, len, 0)` with a buffer `p` of `size` bytes, and `send(fd, p + off, len, 0)` with a
buffer `p` that holds the bytes given. -/
inductive Op where
  | recv (size off len : Nat)
  | send (p : Bytes) (off len : Nat)
  deriving DecidableEq, Repr

/-- What `recv` returns: a positive count with the bytes that were stored, 0, or -1. -/
inductive Recv where
  | got (bs : Bytes)
  | closed
  | eintr
  | failed
  deriving DecidableEq, Repr

/-- What `send` returns: a count, or -1. -/
inductive Sent where
  | took (k : Nat)
  | eintr
  | failed
  deriving DecidableEq, Repr

abbrev Op.Ans : Op → Type
  | .recv _ _ _ => Recv
  | .send _ _ _ => Sent

/-- A function of `frame.c`; the exception stands for one that has not returned. -/
abbrev Prog := Proc Op Op.Ans Unit

/-- A buffer after `bs` has been stored at an offset. -/
def store (buf : Bytes) (off : Nat) (bs : Bytes) : Bytes :=
  buf.take off ++ bs ++ buf.drop (off + bs.length)

/-- The loop of `rtrv_read_exact`. -/
def readExactLoop (n : Nat) : Nat → Nat → Bytes → Prog (Option Bytes)
  | rounds, got, buf =>
    if got < n then
      match rounds with
      | 0 => throw ()
      | rounds + 1 => do
        match ← Proc.perform (Op.recv n got (n - got)) with
        | .eintr => readExactLoop n rounds got buf
        | .failed => return none
        | .closed => return none
        | .got bs => readExactLoop n rounds (got + bs.length) (store buf got bs)
    else return some buf

/-- `rtrv_read_exact`: the buffer when it returns 0, and `none` for -1. -/
def readExact (rounds n : Nat) (buf : Bytes) : Prog (Option Bytes) := readExactLoop n rounds 0 buf

/-- The loop of `rtrv_write_all`. -/
def writeAllLoop (p : Bytes) (n : Nat) : Nat → Nat → Prog Bool
  | rounds, sent =>
    if sent < n then
      match rounds with
      | 0 => throw ()
      | rounds + 1 => do
        match ← Proc.perform (Op.send p sent (n - sent)) with
        | .eintr => writeAllLoop p n rounds sent
        | .failed => return false
        | .took k => writeAllLoop p n rounds (sent + k)
    else return true

/-- `rtrv_write_all`: `true` is 0, `false` is -1. -/
def writeAll (rounds : Nat) (p : Bytes) (n : Nat) : Prog Bool := writeAllLoop p n rounds 0

/-- `rtrv_write_frame` -/
def writeFrame (rounds : Nat) (t : UInt8) (payload : Bytes) : Prog Bool := do
  let header := MAGIC ++ [VERSION, t] ++ putU64 (UInt64.ofNat payload.length)
  if (← writeAll rounds header header.length) = false then return false
  else if payload.length > 0 then writeAll rounds payload payload.length
  else return true

/-- `rtrv_read_frame_header`. The buffer is not initialised in C; here it is zero. -/
def readFrameHeader (rounds : Nat) : Prog (Option (UInt8 × UInt64)) := do
  match ← readExact rounds HEADER_SIZE (List.replicate HEADER_SIZE 0) with
  | none => return none
  | some header =>
    if header.take 4 ≠ MAGIC then return none
    else if header.getD 4 0 ≠ VERSION then return none
    else return some (header.getD 5 0, getU64 (header.drop 6))

/-- `rtrv_read_frame`. What `malloc` returns is not initialised in C; here it is zero. -/
def readFrame (rounds : Nat) : Prog (Option Frame) := do
  match ← readFrameHeader rounds with
  | none => return none
  | some (t, payloadLen) =>
    if payloadLen.toNat > PAYLOAD_CAP then return none
    else if payloadLen = 0 then return some ⟨t, []⟩
    else
      match ← readExact rounds payloadLen.toNat (List.replicate payloadLen.toNat 0) with
      | none => return none
      | some payload => return some ⟨t, payload⟩

/-! ## The channel -/

/-- One end of a connection: what is on its way to us, what has been sent, and how many calls have been
interrupted and have failed. -/
structure Link where
  input : Bytes
  output : Bytes
  signals : Nat
  failures : Nat
  deriving DecidableEq, Repr

/-- What a call may give. A buffer is only used where it is, and in every other respect the channel is
free: any count up to the request, a signal or a failure at any time, the end after the last byte. -/
def Link.env : Proc.Env Op Op.Ans Link where
  may _
    | .recv size off len => off + len ≤ size
    | .send p off len => off + len ≤ p.length
  gives s
    | .recv _ _ len, a, s' =>
      match a with
      | .got bs => 0 < bs.length ∧ bs.length ≤ len ∧ s.input = bs ++ s'.input ∧
          s' = { s with input := s'.input }
      | .closed => s.input = [] ∧ s' = s
      | .eintr => s' = { s with signals := s.signals + 1 }
      | .failed => s' = { s with failures := s.failures + 1 }
    | .send p off len, a, s' =>
      match a with
      | .took k => 0 < k ∧ k ≤ len ∧ s' = { s with output := s.output ++ (p.drop off).take k }
      | .eintr => s' = { s with signals := s.signals + 1 }
      | .failed => s' = { s with failures := s.failures + 1 }

end Retriever.C.Sock
