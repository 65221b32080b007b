/-
# Retriever.PyLib — what the Python programs use of the standard library

UTF-8 (`bytes.decode` with its error handlers, `str.encode`), `os.path.split` and `os.path.join`,
`glob` with `fnmatch`, `int.to_bytes`, and the calls of `os`, `socket` and files as programs over
`Sys`.

A path that reaches the kernel is a byte string, and Python's `str` paths correspond to these one
to one (`os.fsencode` with the `surrogateescape` handler), so the functions on paths are given on
the bytes. `glob` matches characters: there the bytes are decoded first, an undecodable byte `b`
being the code point `0xDC00 + b`.
-/
import Retriever.Sys

namespace Retriever

/-! ## UTF-8 -/

/-- The decoder between two bytes: the bytes of an unfinished sequence, how many more it needs, the
range the next one has to be in, and the value so far. -/
structure Utf8State where
  pending : Bytes
  need : Nat
  lo : Nat
  hi : Nat
  cp : Nat

def Utf8State.start : Utf8State := ⟨[], 0, 0, 0, 0⟩

/-- The first byte of a sequence. A decoded unit is a character or the bytes of an error. -/
def utf8Lead (b : UInt8) : List (Except Bytes Char) × Utf8State :=
  let n := b.toNat
  if n < 0x80 then ([.ok (Char.ofNat n)], .start)
  else if 0xC2 ≤ n ∧ n ≤ 0xDF then ([], ⟨[b], 1, 0x80, 0xBF, n - 0xC0⟩)
  else if 0xE0 ≤ n ∧ n ≤ 0xEF then
    ([], ⟨[b], 2, if n = 0xE0 then 0xA0 else 0x80, if n = 0xED then 0x9F else 0xBF, n - 0xE0⟩)
  else if 0xF0 ≤ n ∧ n ≤ 0xF4 then
    ([], ⟨[b], 3, if n = 0xF0 then 0x90 else 0x80, if n = 0xF4 then 0x8F else 0xBF, n - 0xF0⟩)
  else ([.error [b]], .start)

def utf8Feed (s : Utf8State) (b : UInt8) : List (Except Bytes Char) × Utf8State :=
  let n := b.toNat
  if s.need = 0 then utf8Lead b
  else if s.lo ≤ n ∧ n ≤ s.hi then
    if s.need = 1 then ([.ok (Char.ofNat (s.cp * 64 + (n - 0x80)))], .start)
    else ([], ⟨s.pending ++ [b], s.need - 1, 0x80, 0xBF, s.cp * 64 + (n - 0x80)⟩)
  else
    -- the broken sequence is one error and the byte starts over
    let (out, s') := utf8Lead b
    (.error s.pending :: out, s')

def utf8DecodeFrom (s : Utf8State) : Bytes → List (Except Bytes Char)
  | [] => if s.need = 0 then [] else [.error s.pending]
  | b :: bs => (utf8Feed s b).1 ++ utf8DecodeFrom (utf8Feed s b).2 bs

def utf8Decode (bs : Bytes) : List (Except Bytes Char) := utf8DecodeFrom .start bs

/-- `bs.decode("utf-8", errors="replace")` -/
def decodeReplace (bs : Bytes) : Text :=
  (utf8Decode bs).map fun
    | .ok c => c
    | .error _ => Char.ofNat 0xFFFD

/-- `bs.decode("utf-8")` -/
def decodeStrict (bs : Bytes) : Except Exn Text :=
  (utf8Decode bs).mapM fun
    | .ok c => .ok c
    | .error _ => .error .unicodeError

/-- `os.fsdecode`, to code points. -/
def fsdecode (bs : Bytes) : List Nat :=
  (utf8Decode bs).flatMap fun
    | .ok c => [c.toNat]
    | .error bad => bad.map fun b => 0xDC00 + b.toNat

/-- `text.encode("utf-8")` -/
def encode (t : Text) : Bytes := t.flatMap String.utf8EncodeChar

/-- `s.encode("utf-8")` for the `str` whose `os.fsencode` is `bs`. -/
def encodePath (bs : Bytes) : Except Exn Bytes :=
  if (utf8Decode bs).all (·.isOk) then .ok bs else .error .unicodeError

/-- The bytes of a text in the source. -/
def ascii (s : String) : Bytes := encode s.toList

/-! ## Numbers -/

/-- `n.to_bytes(k, "big")` -/
def toBytes (k n : Nat) : Except Exn Bytes :=
  if n < 256 ^ k then .ok (toBE k n) else .error .overflowError

/-- One hexadecimal digit, lower case. -/
def hexDigit (n : Nat) : UInt8 := if n < 10 then UInt8.ofNat (48 + n) else UInt8.ofNat (87 + n)

/-- `bs.hex()` -/
def hex (bs : Bytes) : Bytes :=
  bs.flatMap fun b => [hexDigit (b.toNat / 16), hexDigit (b.toNat % 16)]

def hexValue (b : UInt8) : Option Nat :=
  let n := b.toNat
  if 48 ≤ n ∧ n ≤ 57 then some (n - 48)
  else if 65 ≤ n ∧ n ≤ 70 then some (n - 55)
  else if 97 ≤ n ∧ n ≤ 102 then some (n - 87)
  else none

/-- ASCII white space, which `bytes.fromhex` skips between bytes. -/
def isSpace (b : UInt8) : Bool := b.toNat = 32 || (9 ≤ b.toNat && b.toNat ≤ 13)

/-- `bytes.fromhex(s)`, `none` for `ValueError`. -/
def fromHex : Bytes → Option Bytes
  | [] => some []
  | [b] => if isSpace b then some [] else none
  | b :: c :: rest =>
    if isSpace b then fromHex (c :: rest)
    else
      match hexValue b, hexValue c with
      | some x, some y => (fromHex rest).map (UInt8.ofNat (16 * x + y) :: ·)
      | _, _ => none

/-! ## Paths -/

namespace Path

open Os (SLASH DOT)

/-- The last component: what follows the last slash. -/
def tail (p : Bytes) : Bytes := (p.reverse.takeWhile (· ≠ SLASH)).reverse

/-- What stands up to the last slash, slash included. -/
def head (p : Bytes) : Bytes := p.take (p.length - (tail p).length)

/-- `head.rstrip("/")` -/
def rstrip (p : Bytes) : Bytes := (p.reverse.dropWhile (· = SLASH)).reverse

/-- `os.path.split` -/
def split (p : Bytes) : Bytes × Bytes :=
  let h := head p
  (if h.all (· = SLASH) then h else rstrip h, tail p)

/-- `os.path.basename` -/
def basename (p : Bytes) : Bytes := (split p).2

/-- `os.path.join` with two arguments. -/
def join (a b : Bytes) : Bytes :=
  if b.head? = some SLASH then b
  else if a = [] ∨ a.getLast? = some SLASH then a ++ b
  else a ++ SLASH :: b

end Path

/-! ## Programs over the operating system -/

namespace Py

/-- A call whose failure is raised. -/
def orRaise {α : Type} : Except SysErr α → Py α
  | .ok a => pure a
  | .error e => throw (.sys e)

def recv (n : Nat) : Py Bytes := Proc.perform (Sys.recv n) >>= orRaise

def sendall (bs : Bytes) : Py Unit := Proc.perform (Sys.send bs) >>= orRaise

def stat (p : Bytes) : Py (Option Stat) := Proc.perform (Sys.fs (.stat p))

def openRb (p : Bytes) : Py Nat := Proc.perform (Sys.fs (.openRb p)) >>= orRaise

def openAb (p : Bytes) : Py Nat := Proc.perform (Sys.fs (.openAb p)) >>= orRaise

def openWb (p : Bytes) : Py Nat := Proc.perform (Sys.fs (.openWb p)) >>= orRaise

def read (i pos n : Nat) : Py Bytes := Proc.perform (Sys.fs (.read i pos n)) >>= orRaise

def write (i : Nat) (bs : Bytes) : Py Unit := Proc.perform (Sys.fs (.write i bs)) >>= orRaise

/-- `os.remove` -/
def remove (p : Bytes) : Py Unit := Proc.perform (Sys.fs (.unlink p)) >>= orRaise

def link (src dst : Bytes) : Py Unit := Proc.perform (Sys.fs (.link src dst)) >>= orRaise

/-- `os.replace` -/
def replace (src dst : Bytes) : Py Unit := Proc.perform (Sys.fs (.rename src dst)) >>= orRaise

def listdir (p : Bytes) : Py (List Bytes) := Proc.perform (Sys.fs (.listdir p)) >>= orRaise

def reserve (p : Bytes) : Py Bool := Proc.perform (Sys.reserve p)

def discard (p : Bytes) : Py Unit := Proc.perform (Sys.discard p)

/-- `os.path.exists` -/
def pathExists (p : Bytes) : Py Bool := do
  return (← stat p).isSome

/-- `os.path.isfile` -/
def isfile (p : Bytes) : Py Bool := do
  return (← stat p).any Stat.isReg

/-- `os.path.isdir` -/
def isdir (p : Bytes) : Py Bool := do
  return (← stat p).any fun st => !st.isReg

/-- `os.path.getsize` -/
def getsize (p : Bytes) : Py Nat := do
  match ← stat p with
  | some st => pure st.size
  | none => throw (.sys .osError)

/-- `while True: chunk = f.read(n); if not chunk: break`, the chunks joined. The position of the
next read is the number of bytes read so far, which cannot pass `OFF_MAX`. -/
def readAll (i n : Nat) : Nat → Bytes → Py Bytes
  | 0, _ => throw (.sys .osError)
  | fuel + 1, acc => do
    let chunk ← read i acc.length n
    if chunk = [] then pure acc else readAll i n fuel (acc ++ chunk)

end Py

/-! ## `fnmatch` and `glob` -/

namespace Glob

open Os (SLASH DOT)

/-- A parsed pattern: `*`, `?`, a character, `[...]` or `[!...]` with its ranges. -/
inductive Pat where
  | star
  | any
  | lit (c : Nat)
  | set (neg : Bool) (ranges : List (Nat × Nat))
  deriving DecidableEq, Repr

def Pat.accepts : Pat → Nat → Bool
  | .star, _ => false
  | .any, _ => true
  | .lit c, x => x = c
  | .set neg rs, x => (rs.any fun r => r.1 ≤ x ∧ x ≤ r.2) != neg

/-- The inside of brackets: characters and ranges `a-b`. -/
def ranges : List Nat → List (Nat × Nat)
  | a :: 45 :: b :: rest => (a, b) :: ranges rest
  | a :: rest => (a, a) :: ranges rest
  | [] => []

/-- Up to the closing bracket, which does not count in the first place: the inside and the rest. -/
def closing (cs : List Nat) : Option (List Nat × List Nat) :=
  let first := cs.take 1
  let others := cs.drop 1
  if 93 ∈ others then some (first ++ others.takeWhile (· ≠ 93), (others.dropWhile (· ≠ 93)).drop 1)
  else none

/-- `fnmatch.translate`, on code points. -/
def parse : Nat → List Nat → List Pat
  | 0, _ => []
  | _ + 1, [] => []
  | fuel + 1, c :: cs =>
    if c = 42 then .star :: parse fuel cs
    else if c = 63 then .any :: parse fuel cs
    else if c = 91 then
      match cs with
      | 33 :: cs' =>
        match closing cs' with
        | some (inside, rest) => .set true (ranges inside) :: parse fuel rest
        | none => .lit c :: parse fuel cs
      | _ =>
        match closing cs with
        | some (inside, rest) => .set false (ranges inside) :: parse fuel rest
        | none => .lit c :: parse fuel cs
    else .lit c :: parse fuel cs

def matches? : List Pat → List Nat → Bool
  | [], s => s.isEmpty
  | .star :: ps, s => s.tails.any (matches? ps)
  | _ :: _, [] => false
  | p :: ps, c :: s => p.accepts c && matches? ps s

/-- `fnmatch.fnmatch(name, pattern)` -/
def fnmatch (name pattern : Bytes) : Bool :=
  let pat := fsdecode pattern
  matches? (parse pat.length pat) (fsdecode name)

def isMagic (b : UInt8) : Bool := b = 42 || b = 63 || b = 91

/-- `glob.has_magic` -/
def hasMagic (p : Bytes) : Bool := p.any isMagic

/-- `glob.escape` -/
def escape (p : Bytes) : Bytes := p.flatMap fun b => if isMagic b then [91, b, 93] else [b]

def isHidden (p : Bytes) : Bool := p.head? = some DOT

/-- `_listdir`: the entries of a directory, none when it cannot be read, optionally the
directories only. -/
def listdir (dirname : Bytes) (dironly : Bool) : Py (List Bytes) := do
  let names ← (Py.listdir (if dirname = [] then [DOT] else dirname)).tryCatch fun _ => pure []
  if dironly then names.filterM fun n => Py.isdir (Path.join dirname n) else pure names

/-- `_glob1`: the entries that match a pattern. -/
def glob1 (dirname pattern : Bytes) (dironly : Bool) : Py (List Bytes) := do
  let names ← listdir dirname dironly
  let names := if isHidden pattern then names else names.filter fun n => !isHidden n
  return names.filter fun n => fnmatch n pattern

/-- `_glob0`: the one entry of that name. -/
def glob0 (dirname base : Bytes) : Py (List Bytes) := do
  if base ≠ [] then
    return if ← Py.pathExists (Path.join dirname base) then [base] else []
  else
    return if ← Py.isdir dirname then [base] else []

/-- `_iglob`. The directory part is shorter than the path, so as much fuel as the path has bytes
is enough. -/
def iglob : Nat → Bytes → Bool → Py (List Bytes)
  | 0, _, _ => pure []
  | fuel + 1, pathname, dironly => do
    let (dirname, base) := Path.split pathname
    if hasMagic pathname = false then
      if base ≠ [] then
        return if ← Py.pathExists pathname then [pathname] else []
      else
        return if ← Py.isdir dirname then [pathname] else []
    else if dirname = [] then
      glob1 dirname base dironly
    else do
      let dirs ← if dirname ≠ pathname ∧ hasMagic dirname then iglob fuel dirname true
        else pure [dirname]
      let found ← dirs.mapM fun d => do
        let names ← if hasMagic base then glob1 d base dironly else glob0 d base
        return names.map (Path.join d)
      return found.flatten

/-- `glob.glob` -/
def glob (pathname : Bytes) : Py (List Bytes) := iglob (pathname.length + 1) pathname false

end Glob

end Retriever
