/-
# Retriever.Sys — the operating system the programs talk to

The server and both clients are programs over one set of operations: the socket calls `recv` and
`sendall`, the filesystem calls of POSIX, and the two sections of the server that hold
`_in_flight_lock`. This module fixes the operations, the type of their answers, and what the
filesystem calls do.

A path is the byte string handed to the kernel. `Os.locate` resolves it against the working
directory, one component at a time, to a location: the list of components from the root. Every
component but the last has to be a directory, `.` and empty components stay, `..` goes up. There
are no symbolic links and no permissions. Whether the filesystem can create an entry of a given
name (most refuse more than 255 bytes) is `Os.accepts`; it is asked when an entry is created. A
file is shorter than `OFF_MAX`, the limit of `off_t`, and a write that would pass the limit fails.

An open file is its inode number. Reads name the position they start from; writes go to the end of
the file and take effect at once.
-/
import Retriever.Lib.BigEndian
import Retriever.Lib.Proc
import Retriever.Lib.Store

namespace Retriever

/-- Python text, as the list of its code points. -/
abbrev Text := List Char

/-- How a call can fail. In Python these are `ConnectionError`, `socket.timeout`, `FileExistsError`
and every other `OSError`; in C they are values of `errno`. -/
inductive SysErr where
  | connectionError
  | timeout
  | fileExists
  | osError
  deriving DecidableEq, Repr

/-- The exceptions of the Python programs. `sys` is an `OSError` of any kind, `exit` is
`SystemExit` after `fail`. -/
inductive Exn where
  | frameError (reason : UInt8) (message : Text)
  | sys (e : SysErr)
  | overflowError
  | unicodeError
  | exit (code : Nat) (message : Text)
  deriving DecidableEq, Repr

/-- What `stat` reports of an entry: its kind and `st_size`. -/
inductive Stat where
  | regular (size : Nat)
  | directory (size : Nat)
  deriving DecidableEq, Repr

def Stat.size : Stat → Nat
  | .regular n => n
  | .directory n => n

def Stat.isReg : Stat → Bool
  | .regular _ => true
  | .directory _ => false

/-! ## Filesystem calls -/

inductive FsOp where
  | stat (p : Bytes)
  | openRb (p : Bytes)
  | openAb (p : Bytes)
  | openWb (p : Bytes)
  | read (i pos n : Nat)
  | write (i : Nat) (bs : Bytes)
  | unlink (p : Bytes)
  | remove (p : Bytes)
  | link (src dst : Bytes)
  | rename (src dst : Bytes)
  | listdir (p : Bytes)
  deriving DecidableEq, Repr

abbrev FsOp.Ans : FsOp → Type
  | .stat _ => Option Stat
  | .openRb _ | .openAb _ | .openWb _ => Except SysErr Nat
  | .read _ _ _ => Except SysErr Bytes
  | .write _ _ | .unlink _ | .remove _ | .link _ _ | .rename _ _ => Except SysErr Unit
  | .listdir _ => Except SysErr (List Bytes)

/-- A location: the components of an absolute path. -/
abbrev Loc := List Bytes

/-- The first length a file cannot have. -/
def OFF_MAX : Nat := 2 ^ 63

structure Os where
  cwd : Loc
  store : Store Loc UInt8
  accepts : Bytes → Bool
  dirSize : Nat
  small : ∀ i, (store.data i).length < OFF_MAX
  dirSmall : dirSize < OFF_MAX

namespace Os

/-- An empty directory, on a filesystem with names of up to 255 bytes. -/
def empty : Os where
  cwd := []
  store := ⟨∅, fun _ => [], 0, by simp⟩
  accepts := fun c => c.length ≤ 255
  dirSize := 4096
  small := fun _ => Nat.two_pow_pos 63
  dirSmall := by decide

/-- What stands at a location. The directories that lead to the working directory are there
whatever the store says. -/
def slot (os : Os) (l : Loc) : Option Slot :=
  if l <+: os.cwd then some .subdir else os.store.lookup l

def isDir (os : Os) (l : Loc) : Bool := os.slot l = some .subdir

/-- `/` -/
def SLASH : UInt8 := 47

/-- `.` -/
def DOT : UInt8 := 46

/-- One component further. -/
def enter (l : Loc) (c : Bytes) : Loc :=
  if c = [] ∨ c = [DOT] then l else if c = [DOT, DOT] then l.dropLast else l ++ [c]

def walk (os : Os) (l : Loc) : List Bytes → Option Loc
  | [] => some l
  | c :: cs => if os.isDir l then os.walk (enter l c) cs else none

/-- Path resolution. -/
def locate (os : Os) (p : Bytes) : Option Loc :=
  match p with
  | [] => none
  | b :: rest => if b = SLASH then os.walk [] (rest.splitOn SLASH) else os.walk os.cwd (p.splitOn SLASH)

/-- The slot a path leads to. -/
def at? (os : Os) (p : Bytes) : Option Slot := (os.locate p).bind os.slot

/-- The bytes of the file in a slot. -/
def bytesOf (os : Os) : Option Slot → Option Bytes
  | some (.file i) => some (os.store.data i)
  | _ => none

/-- The bytes an observer reads under a path. -/
def content (os : Os) (p : Bytes) : Option Bytes := os.bytesOf (os.at? p)

/-- Change the names only. -/
def rebind (os : Os) (st : Store Loc UInt8) (h : st.data = os.store.data) : Os :=
  { os with store := st, small := by intro i; rw [h]; exact os.small i }

def statAt (os : Os) (p : Bytes) : Option Stat :=
  match os.at? p with
  | some (.file i) => some (.regular (os.store.data i).length)
  | some .subdir => some (.directory os.dirSize)
  | none => none

/-- Bind a location to a new empty file. -/
def createAt (os : Os) (l : Loc) : Os :=
  { os with
    store := os.store.create l
    small := by
      intro i
      rw [Store.create_data]
      split
      · exact Nat.pos_of_ne_zero (by decide)
      · exact os.small i }

/-- Empty a file. -/
def truncate (os : Os) (i : Nat) : Os :=
  { os with
    store := os.store.setData i []
    small := by
      intro j
      rw [Store.setData_data]
      split
      · exact Nat.pos_of_ne_zero (by decide)
      · exact os.small j }

/-- Add bytes at the end of a file. -/
def appendTo (os : Os) (i : Nat) (bs : Bytes)
    (h : (os.store.data i).length + bs.length < OFF_MAX) : Os :=
  { os with
    store := os.store.append i bs
    small := by
      intro j
      rw [Store.append_data]
      split
      · simpa using h
      · exact os.small j }

/-- Whether a new entry can be made at a location: its name is the last component. -/
def creatable (os : Os) (l : Loc) : Bool :=
  match l.getLast? with
  | some c => os.accepts c
  | none => false

/-- `open` for writing: the file is made when it is missing. -/
def openNew (os : Os) (p : Bytes) (existing : Nat → Os) : Except SysErr Nat × Os :=
  match os.locate p with
  | none => (.error .osError, os)
  | some l =>
    match os.slot l with
    | some (.file i) => (.ok i, existing i)
    | some .subdir => (.error .osError, os)
    | none => if os.creatable l then (.ok os.store.next, os.createAt l) else (.error .osError, os)

def removeAt (os : Os) (l : Loc) : Os := os.rebind (os.store.remove l) rfl

/-- The filesystem after a second name has been given to the file at `s`. -/
def linked (os : Os) (s d : Loc) : Os := os.rebind (os.store.bind d s) (os.store.bind_data d s)

/-- The filesystem after the file at `s` has been moved to `d`. -/
def renamed (os : Os) (s d : Loc) : Os := os.rebind (os.store.rename s d) (os.store.rename_data s d)

/-- No entry lies below a location. -/
def emptyDir (os : Os) (l : Loc) : Bool :=
  os.store.dir.keys.all fun k => decide ¬ (l <+: k ∧ k ≠ l)

/-- The names in a directory, in the order the directory keeps them. -/
def entries (os : Os) (l : Loc) : List Bytes :=
  os.store.dir.keys.filterMap fun k =>
    match k.getLast? with
    | some c => if k.dropLast = l then some c else none
    | none => none

/-- **What a filesystem call answers and leaves behind.** -/
def run (os : Os) : (o : FsOp) → o.Ans × Os
  | .stat p => (os.statAt p, os)
  | .openRb p =>
    match os.at? p with
    | some (.file i) => (.ok i, os)
    | _ => (.error .osError, os)
  | .openAb p => os.openNew p fun _ => os
  | .openWb p => os.openNew p fun i => os.truncate i
  | .read i pos n => (.ok (((os.store.data i).drop pos).take n), os)
  | .write i bs =>
    if h : (os.store.data i).length + bs.length < OFF_MAX then (.ok (), os.appendTo i bs h)
    else (.error .osError, os)
  | .unlink p =>
    match os.locate p with
    | none => (.error .osError, os)
    | some l =>
      match os.slot l with
      | some (.file _) => (.ok (), os.removeAt l)
      | _ => (.error .osError, os)
  -- C's `remove`: a directory goes too when it is empty and not in use as the working directory
  | .remove p =>
    match os.locate p with
    | none => (.error .osError, os)
    | some l =>
      match os.slot l with
      | some (.file _) => (.ok (), os.removeAt l)
      | some .subdir =>
        if os.emptyDir l ∧ ¬ l <+: os.cwd then (.ok (), os.removeAt l) else (.error .osError, os)
      | none => (.error .osError, os)
  | .link src dst =>
    match os.locate src, os.locate dst with
    | some s, some d =>
      match os.slot s, os.slot d with
      | some (.file _), some _ => (.error .fileExists, os)
      | some (.file _), none =>
        if os.creatable d then (.ok (), os.rebind (os.store.bind d s) (os.store.bind_data d s))
        else (.error .osError, os)
      | _, _ => (.error .osError, os)
    | _, _ => (.error .osError, os)
  -- only files are moved by the programs, so moving a directory is not carried out
  | .rename src dst =>
    match os.locate src, os.locate dst with
    | some s, some d =>
      match os.slot s, os.slot d with
      | some (.file i), some (.file j) =>
        if i = j then (.ok (), os)
        else (.ok (), os.rebind (os.store.rename s d) (os.store.rename_data s d))
      | some (.file _), none =>
        if os.creatable d then (.ok (), os.rebind (os.store.rename s d) (os.store.rename_data s d))
        else (.error .osError, os)
      | _, _ => (.error .osError, os)
    | _, _ => (.error .osError, os)
  | .listdir p =>
    match os.locate p with
    | some l => if os.isDir l then (.ok (os.entries l), os) else (.error .osError, os)
    | none => (.error .osError, os)

end Os

/-! ## All operations -/

/-- The operations of the programs. `reserve` and `discard` are the two sections under
`_in_flight_lock`: test and add, and discard. -/
inductive Sys where
  | recv (n : Nat)
  | send (bs : Bytes)
  | fs (o : FsOp)
  | reserve (p : Bytes)
  | discard (p : Bytes)
  deriving DecidableEq, Repr

abbrev Sys.Ans : Sys → Type
  | .recv _ => Except SysErr Bytes
  | .send _ => Except SysErr Unit
  | .fs o => o.Ans
  | .reserve _ => Bool
  | .discard _ => Unit

/-- A Python program. -/
abbrev Py := Proc Sys Sys.Ans Exn

/-- A C program: errors are part of the result, nothing is raised. -/
abbrev CProg := Proc Sys Sys.Ans Empty

end Retriever
