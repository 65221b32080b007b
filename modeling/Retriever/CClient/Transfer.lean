/-
# Retriever.CClient.Transfer — `transfer.c`

Paths and partial files, `rtrv_do_get` and `rtrv_do_put`, on a connection that is already open. A C
string is the list of its bytes, without the zero byte at the end. What is printed is left out, and
a function that returns 0 or -1 is a program with the result `true` or `false`.

Writes to a file take effect at once, so `fclose` has nothing left to do and does not fail. `readdir`
also reports `.` and `..`, which are too short to be partials.
-/
import Retriever.CClient.Frame
import Retriever.Sha256.Stream

namespace Retriever.C

open Os (SLASH DOT)

/-- `RTRV_MAX_NAME` -/
def MAX_NAME : Nat := 255

/-- `RTRV_DIR_MAX` -/
def DIR_MAX : Nat := 512

/-- `RTRV_PATH_MAX` -/
def PATH_MAX : Nat := 1024

/-! ## Paths and partial files -/

/-- `rtrv_split_path`: the directory and the last component, unless one of them does not fit. -/
def splitPath (path : Bytes) (dirSize baseSize : Nat) : Option (Bytes × Bytes) :=
  let name := Path.tail path
  if name.length ≥ baseSize then none
  else if SLASH ∉ path then if dirSize < 2 then none else some ([DOT], name)
  else
    let slash := path.length - name.length - 1
    -- the path "/file" lives in "/"
    let dirLen := if slash = 0 then 1 else slash
    if dirLen ≥ dirSize then none else some (path.take dirLen, name)

/-- `hex[n]` of `sha256_hex` -/
def hexChar (n : UInt8) : UInt8 := (ascii "0123456789abcdef").getD n.toNat 0

/-- `sha256_hex` -/
def sha256Hex (digest : Bytes) (len : Nat) : Bytes :=
  (List.range len).flatMap fun i =>
    [hexChar ((digest.getD i 0 >>> 4) &&& 0x0F), hexChar (digest.getD i 0 &&& 0x0F)]

/-- `rtrv_partial_name` -/
def partialName (dest digest : Bytes) : Option Bytes :=
  match splitPath dest DIR_MAX (MAX_NAME + 1) with
  | none => none
  | some (dir, base) =>
    let token := sha256Hex digest TOKEN_SIZE
    let name := [DOT] ++ base ++ [DOT] ++ token ++ ascii ".part"
    let out := if SLASH ∉ dest then name else dir ++ [SLASH] ++ name
    if out.length ≥ PATH_MAX then none else some out

/-- `sscanf(s, "%2x", &value)` and the conversion of `value` to `unsigned char`. White space is
skipped, a sign counts as one of the two characters, and `0x` is not a number. -/
def scanHex2 (s : Bytes) : Option UInt8 :=
  let s := s.dropWhile isSpace
  let sign := s.head? = some 43 ∨ s.head? = some 45
  let field := if sign then (s.drop 1).take 1 else s.take 2
  if field = ascii "0x" ∨ field = ascii "0X" then none
  else
    match field.takeWhile fun b => (hexValue b).isSome with
    | [] => none
    | digits =>
      let value := UInt8.ofNat (digits.foldl (fun v b => 16 * v + (hexValue b).getD 0) 0)
      some (if s.head? = some 45 then 0 - value else value)

/-- What `rtrv_find_partial` reports: -1, 0, or 1 with its outputs filled in. -/
inductive Found where
  | failed
  | absent
  | found (path : Bytes) (size : UInt64) (token : Bytes)
  deriving DecidableEq, Repr

/-- An entry the loop of `rtrv_find_partial` counts: `front`, 16 characters, `.part`. -/
def isPartialOf (front entry : Bytes) : Bool :=
  entry.length = front.length + TOKEN_SIZE * 2 + 5 && entry.take front.length = front
    && entry.drop (entry.length - 5) = ascii ".part"

/-- The token in the name of a partial: the 16 characters before `.part`. -/
def scanToken (entry : Bytes) : Option Bytes :=
  let digits := entry.drop (entry.length - 5 - TOKEN_SIZE * 2)
  (List.range TOKEN_SIZE).mapM fun i => scanHex2 (digits.drop (i * 2))

/-- `rtrv_find_partial`. None or too many to choose between is 0. -/
def findPartial (dest : Bytes) : CProg Found := do
  match splitPath dest DIR_MAX (MAX_NAME + 1) with
  | none => return .failed
  | some (dir, base) =>
    match ← Proc.perform (Sys.fs (.listdir dir)) with
    | .error _ => return .failed
    | .ok entries =>
      match entries.filter (isPartialOf ([DOT] ++ base ++ [DOT])) with
      | [entry] =>
        let path := if dir = [DOT] ∧ SLASH ∉ dest then entry else dir ++ [SLASH] ++ entry
        match ← Proc.perform (Sys.fs (.stat path)) with
        | none => return .absent
        | some st =>
          match scanToken entry with
          | none => return .absent
          | some token => return .found path (UInt64.ofNat st.size) token
      | _ => return .absent

/-- `file_exists` -/
def fileExists (path : Bytes) : CProg Bool := do
  return (← Proc.perform (Sys.fs (.stat path))).isSome

/-! ## `sha256_file` -/

/-- The `fread` loop. A file has less than `OFF_MAX` bytes, so as many rounds are enough. -/
def freadLoop (f : Nat) : Nat → List Bytes → CProg (Option (List Bytes))
  | 0, _ => return none
  | fuel + 1, chunks => do
    match ← Proc.perform (Sys.fs (.read f chunks.flatten.length 65536)) with
    | .error _ => return none
    | .ok buf => if buf = [] then return some chunks else freadLoop f fuel (chunks ++ [buf])

/-- `sha256_file`. The buffer of the context is not initialised in C; here it is zero. -/
def sha256File (path : Bytes) : CProg (Option Bytes) := do
  match ← Proc.perform (Sys.fs (.openRb path)) with
  | .error _ => return none
  | .ok f =>
    match ← freadLoop f OFF_MAX [] with
    | none => return none
    | some chunks =>
      let garbage := Vector.replicate 64 0
      return some (CSha.sha256Final
        (CSha.sha256Updates ⟨CSha.sha256Init garbage, CSha.sha256Init_valid garbage⟩ chunks))

/-! ## GET -/

/-- What is offered to the server: the size of the partial and its token. -/
def Found.offer : Found → UInt64 × Bytes
  | .found _ size token => (size, token)
  | _ => (0, List.replicate TOKEN_SIZE 0)

/-- The loop that writes the body to the partial. Every round writes at least one byte. -/
def saveBody (out : Nat) : Nat → UInt64 → CProg Bool
  | 0, _ => return true
  | fuel + 1, remaining =>
    if remaining > 0 then do
      let want := if remaining < 65536 then remaining else 65536
      match ← readExact want.toNat with
      | none => return false
      | some buf =>
        match ← Proc.perform (Sys.fs (.write out buf)) with
        | .error _ => return false
        | .ok _ => saveBody out fuel (remaining - want)
    else return true

/-- The end of `rtrv_do_get`: nothing is called `dest` before its hash checks out. -/
def verifyDownload (dest partialPath digest : Bytes) : CProg Bool := do
  match ← sha256File partialPath with
  | none => return false
  | some actual =>
    if actual ≠ digest then do
      let _ ← Proc.perform (Sys.fs (.remove partialPath))
      return false
    else
      match ← Proc.perform (Sys.fs (.rename partialPath dest)) with
      | .error _ => return false
      | .ok _ => return true

/-- `fopen(path, start > 0 ? "ab" : "wb")` -/
def fopenPartial (path : Bytes) (start : UInt64) : CProg (Except SysErr Nat) :=
  if start > 0 then Proc.perform (Sys.fs (.openAb path)) else Proc.perform (Sys.fs (.openWb path))

/-- The part of `rtrv_do_get` from the opening of the partial on, as `receiveDownload` has it below. -/
def fetchBody (dest partialPath digest : Bytes) (start remaining : UInt64) : CProg Bool := do
  match ← fopenPartial partialPath start with
  | .error _ => return false
  | .ok out =>
    if (← saveBody out remaining.toNat remaining) = false then return false
    else verifyDownload dest partialPath digest

/-- The part of `rtrv_do_get` after the metadata has been read. -/
def receiveDownload (dest : Bytes) (existing : Found) (metadata : Bytes) : CProg Bool := do
  let totalSize := getU64 metadata
  let start := getU64 (metadata.drop 8)
  let digest := metadata.drop 16
  match partialName dest digest with
  | none => return false
  | some partialPath =>
    -- the server offered a different file: the old bytes are useless
    if start = 0 then
      match existing with
      | .found path _ _ => let _ ← Proc.perform (Sys.fs (.remove path))
      | _ => pure ()
    match ← fopenPartial partialPath start with
    | .error _ => return false
    | .ok out =>
      if (← saveBody out (totalSize - start).toNat (totalSize - start)) = false then return false
      else verifyDownload dest partialPath digest

/-- The reply to a GET: its header, and what follows. -/
def receiveGetReply (dest : Bytes) (existing : Found) : CProg Bool := do
  match ← readFrameHeader with
  | none => return false
  | some (t, payloadLen) =>
    if t = T_ERROR then
      if payloadLen.toNat > PAYLOAD_CAP then return false
      else do
        let _report ← readExact payloadLen.toNat
        return false
    else if t ≠ T_OK then return false
    else
      match ← readExact GET_META with
      | none => return false
      | some metadata => receiveDownload dest existing metadata

/-- `rtrv_do_get` -/
def doGet (remoteName dest : Bytes) : CProg Bool := do
  if ← fileExists dest then return false
  else do
    let existing ← findPartial dest
    if remoteName.length > MAX_NAME then return false
    else do
      let request := putU64 existing.offer.1 ++ existing.offer.2
        ++ putU16 (UInt16.ofNat remoteName.length) ++ remoteName
      if (← writeFrame T_GET request) = false then return false
      else receiveGetReply dest existing

/-! ## PUT -/

/-- The loop that sends the body from `pos` on. Every round sends at least one byte. -/
def uploadBody (f : Nat) : Nat → Nat → UInt64 → CProg Bool
  | 0, _, _ => return true
  | fuel + 1, pos, remaining =>
    if remaining > 0 then do
      let want := if remaining < 65536 then remaining else 65536
      match ← Proc.perform (Sys.fs (.read f pos want.toNat)) with
      | .error _ => return false
      | .ok buf =>
        if buf.length ≠ want.toNat then return false
        else if (← writeAll buf) = false then return false
        else uploadBody f fuel (pos + buf.length) (remaining - want)
    else return true

/-- The verdict: the server has hashed what it stored. -/
def receiveVerdict : CProg Bool := do
  match ← readFrame with
  | none => return false
  | some f => if f.type = T_ERROR then return false else return f.type = T_OK

/-- The part of `rtrv_do_put` after the server has said where to resume. -/
def sendUpload (localPath : Bytes) (fileSize resumeOffset : UInt64) : CProg Bool := do
  if resumeOffset > fileSize then return false
  else
    match ← Proc.perform (Sys.fs (.openRb localPath)) with
    | .error _ => return false
    | .ok f =>
      if (← uploadBody f (fileSize - resumeOffset).toNat resumeOffset.toNat
          (fileSize - resumeOffset)) = false then return false
      else receiveVerdict

/-- `rtrv_do_put` -/
def doPut (localPath remoteName : Bytes) : CProg Bool := do
  match ← Proc.perform (Sys.fs (.stat localPath)) with
  | none => return false
  | some st =>
    if st.isReg = false then return false
    else
      match ← sha256File localPath with
      | none => return false
      | some digest =>
        if remoteName.length > MAX_NAME then return false
        else do
          let fileSize := UInt64.ofNat st.size
          let request := putU64 fileSize ++ digest
            ++ putU16 (UInt16.ofNat remoteName.length) ++ remoteName
          if (← writeFrame T_PUT request) = false then return false
          else
            match ← readFrame with
            | none => return false
            | some f =>
              if f.type = T_ERROR then return false
              else if f.type ≠ T_OK ∨ f.payload.length < 8 then return false
              else sendUpload localPath fileSize (getU64 f.payload)

end Retriever.C
