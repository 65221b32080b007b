/-
# Retriever.CClient.Releases — the C client gives back what it takes

C has no garbage collector: whoever takes a block, a stream, a directory or a socket has to give it back
once, on every path. Here the account is kept for the whole of `main`, whatever the arguments are,
whatever the server sends and whichever call fails (`main_balanced`).
-/
import Retriever.CClient.Resources
import Retriever.Lib.Resources

namespace Retriever.C.Res

/-- What the client can hold. -/
inductive Resource where
  | memory (p : Nat)
  | stream (f : Nat)
  | dir (d : Nat)
  | addresses (r : Nat)
  | socket (fd : Nat)
  deriving DecidableEq, Repr

/-- What the calls need, give back and take. `fclose` gives its stream back also when it fails. -/
def usage : Usage Op Op.Ans Resource where
  needs
    | .sys fd (.recv _) | .sys fd (.send _) | .connect fd _ => {.socket fd}
    | .touch p => {.memory p}
    | .fread f _ _ | .fwrite f _ | .fseeko f _ => {.stream f}
    | .readdir d => {.dir d}
    | _ => ∅
  returns
    | .free p => {.memory p}
    | .fclose f => {.stream f}
    | .closedir d => {.dir d}
    | .freeaddrinfo r => {.addresses r}
    | .close fd => {.socket fd}
    | _ => ∅
  takes
    | .malloc _, some p => {.memory p}
    | .fopen _ _, .ok f => {.stream f}
    | .opendir _, .ok (d, _) => {.dir d}
    | .getaddrinfo _ _, some (r, _) => {.addresses r}
    | .socket _, some fd => {.socket fd}
    | _, _ => ∅

section

variable {α β : Type} {F : Finset Resource} {fd : Nat}

/-- What does not allocate needs the socket. -/
theorem balanced_lift (p : CProg α) : Balanced usage {.socket fd} (lift fd p) := by
  induction p with
  | done a => exact owns_done rfl
  | raise e => exact e.elim
  | call o k ih =>
    refine owns_call ?_ (Finset.empty_subset _) fun a => ?_
    · cases o <;> simp [usage]
    · have hsame : (∅ : Finset Resource) \ usage.returns (.sys fd o) ∪ usage.takes (.sys fd o) a = ∅ :=
        rfl
      rw [hsame]
      exact ih a

/-- What belongs to a frame that has been read. -/
def Reply.owned (r : Reply) : Finset Resource := r.payload.elim ∅ fun p => {.memory p}

/-- What belongs to the result of `rtrv_read_frame`. -/
def ownedBy (r : Option Reply) : Finset Resource := r.elim ∅ Reply.owned

theorem owns_free_bind {p : Option Nat} {k : Unit → Prog α} {H : α → Finset Resource}
    (hk : Owns usage F ∅ (k ()) H) :
    Owns usage F (p.elim ∅ fun p => {.memory p}) (free p >>= k) H := by
  cases p with
  | none => exact hk
  | some p => exact owns_returns rfl rfl (fun _ => rfl) fun _ => hk

theorem balanced_touch (p : Option Nat) :
    Balanced usage (p.elim ∅ fun p => {.memory p}) (touch p) := by
  cases p with
  | none => exact owns_done rfl
  | some p => exact balanced_perform (Finset.Subset.refl _) rfl fun _ => rfl

theorem balanced_reportError (r : Reply) : Balanced usage r.owned (reportError r) := by
  unfold reportError
  split
  · exact owns_done rfl
  · exact balanced_touch r.payload

/-- `rtrv_read_frame` gives its caller the payload. -/
theorem owns_readFrame : Owns usage {.socket fd} ∅ (readFrame fd) ownedBy := by
  unfold readFrame
  refine owns_bind (balanced_lift _) fun h => ?_
  cases h with
  | none => exact owns_done rfl
  | some h =>
    obtain ⟨t, len⟩ := h
    dsimp only
    split
    · exact owns_done rfl
    split
    · exact owns_done rfl
    refine owns_takes rfl rfl fun a => ?_
    cases a with
    | none => exact owns_done rfl
    | some buf =>
      refine Balanced.bind ((balanced_touch (some buf)).mono Finset.subset_union_right) fun _ => ?_
      refine Balanced.bind ((balanced_lift _).mono Finset.subset_union_left) fun b => ?_
      cases b with
      | none => exact owns_free_bind (p := some buf) (owns_done rfl)
      | some b => exact owns_done rfl

/-- A frame is read, and what follows gives its payload back. -/
theorem readFrame_bind {k : Option Reply → Prog α}
    (hnone : Balanced usage {.socket fd} (k none))
    (hsome : ∀ r : Reply, Owns usage {.socket fd} r.owned (k (some r)) fun _ => ∅) :
    Balanced usage {.socket fd} (readFrame fd >>= k) := by
  refine owns_bind owns_readFrame fun r => ?_
  cases r with
  | none => exact hnone
  | some r => exact hsome r

/-- An ERROR frame is reported and given back. -/
theorem owns_report {r : Reply} {k : Unit → Prog α} (hk : Balanced usage F (k ())) :
    Owns usage F r.owned (reportError r >>= fun _ => free r.payload >>= k) fun _ => ∅ :=
  Balanced.bind ((balanced_reportError r).mono Finset.subset_union_right) fun _ => owns_free_bind hk

/-! ## `sha256_file` -/

theorem balanced_freadLoop (f fuel : Nat) (chunks : List Bytes) :
    Balanced usage {.stream f} (freadLoop f fuel chunks) := by
  induction fuel generalizing chunks with
  | zero => exact owns_done rfl
  | succ fuel ih =>
    refine owns_bind (balanced_perform (Finset.Subset.refl _) rfl fun _ => rfl) fun a => ?_
    cases a with
    | error e => exact owns_done rfl
    | ok buf =>
      dsimp only
      split
      · exact owns_done rfl
      · exact ih _

theorem balanced_sha256File (path : Bytes) : Balanced usage F (sha256File path) := by
  unfold sha256File
  refine owns_takes rfl rfl fun a => ?_
  cases a with
  | error e => exact owns_done rfl
  | ok f =>
    refine Balanced.bind ((balanced_freadLoop f _ _).mono Finset.subset_union_right) fun read => ?_
    refine owns_returns rfl rfl (fun _ => rfl) fun _ => ?_
    cases read <;> exact owns_done rfl

/-! ## `transfer.c` -/

theorem balanced_scanEntries (d : Nat) (front : Bytes) (entries : List Bytes) (found : Nat)
    (last : Bytes) : Balanced usage {.dir d} (scanEntries d front entries found last) := by
  have hread : Balanced usage {.dir d} (Proc.perform (Op.readdir d)) :=
    balanced_perform (Finset.Subset.refl _) rfl fun _ => rfl
  induction entries generalizing found last with
  | nil => exact owns_bind hread fun _ => owns_done rfl
  | cons entry rest ih =>
    refine owns_bind hread fun _ => ?_
    split
    · exact ih _ _
    · exact ih _ _

theorem balanced_findPartial (dest : Bytes) : Balanced usage {.socket fd} (findPartial fd dest) := by
  unfold findPartial
  split
  · exact owns_done rfl
  refine owns_takes rfl rfl fun a => ?_
  cases a with
  | error e => exact owns_done rfl
  | ok a =>
    obtain ⟨d, entries⟩ := a
    refine Balanced.bind ((balanced_scanEntries d _ _ _ _).mono Finset.subset_union_right)
      fun scanned => ?_
    refine owns_returns rfl rfl (fun _ => rfl) fun _ => ?_
    split
    · exact owns_done rfl
    · exact balanced_lift _

/-- The stream is open while the body is written, and closed when that fails. -/
theorem owns_saveBody (out fuel : Nat) (remaining : UInt64) :
    Owns usage {.socket fd} {.stream out} (saveBody fd out fuel remaining) fun saved =>
      if saved then {.stream out} else ∅ := by
  have hfail : Owns usage {.socket fd} {.stream out}
      (Proc.perform (Op.fclose out) >>= fun _ => (pure false : Prog Bool)) fun saved =>
        if saved then {.stream out} else ∅ :=
    owns_returns rfl rfl (fun _ => rfl) fun _ => owns_done rfl
  induction fuel generalizing remaining with
  | zero => exact owns_done rfl
  | succ fuel ih =>
    rw [saveBody]
    split
    · refine Balanced.bind ((balanced_lift _).mono Finset.subset_union_left) fun b => ?_
      cases b with
      | none => exact hfail
      | some b =>
        refine Balanced.bind (balanced_perform Finset.subset_union_right rfl fun _ => rfl) fun a => ?_
        cases a with
        | error e => exact hfail
        | ok x => exact ih _
    · exact owns_done rfl

theorem balanced_verifyDownload (dest partialPath digest : Bytes) :
    Balanced usage {.socket fd} (verifyDownload fd dest partialPath digest) := by
  unfold verifyDownload
  refine owns_bind (balanced_sha256File _) fun a => ?_
  cases a with
  | none => exact owns_done rfl
  | some actual =>
    dsimp only
    split
    · exact owns_bind (balanced_perform (Finset.empty_subset _) rfl fun _ => rfl) fun _ => owns_done rfl
    · refine owns_bind (balanced_perform (Finset.empty_subset _) rfl fun _ => rfl) fun a => ?_
      cases a <;> exact owns_done rfl

theorem balanced_fetchBody (dest partialPath digest : Bytes) (start remaining : UInt64) :
    Balanced usage {.socket fd} (fetchBody fd dest partialPath digest start remaining) := by
  unfold fetchBody
  refine owns_takes rfl rfl fun a => ?_
  cases a with
  | error e => exact owns_done rfl
  | ok out =>
    refine owns_bind (owns_saveBody out _ _) fun saved => ?_
    cases saved with
    | false => exact owns_done rfl
    | true =>
      refine owns_returns rfl rfl (fun _ => rfl) fun closed => ?_
      split
      · exact owns_done rfl
      · exact balanced_verifyDownload _ _ _

theorem balanced_receiveGetReply (dest : Bytes) (existing : Found) :
    Balanced usage {.socket fd} (receiveGetReply fd dest existing) := by
  unfold receiveGetReply
  refine owns_bind (balanced_lift _) fun h => ?_
  cases h with
  | none => exact owns_done rfl
  | some h =>
    obtain ⟨t, len⟩ := h
    dsimp only
    split
    · split
      · exact owns_done rfl
      · refine owns_takes rfl rfl fun a => ?_
        cases a with
        | none => exact owns_done rfl
        | some payload =>
          refine Balanced.bind ((balanced_touch (some payload)).mono Finset.subset_union_right) fun _ => ?_
          refine Balanced.bind ((balanced_lift _).mono Finset.subset_union_left) fun b => ?_
          cases b with
          | none => exact owns_free_bind (p := some payload) (owns_done rfl)
          | some b => exact owns_report (r := ⟨t, some payload, b⟩) (owns_done rfl)
    · split
      · exact owns_done rfl
      · refine owns_bind (balanced_lift _) fun b => ?_
        cases b with
        | none => exact owns_done rfl
        | some metadata =>
          dsimp only [receiveDownload]
          split
          · exact owns_done rfl
          · exact owns_bind (balanced_lift _) fun _ => balanced_fetchBody _ _ _ _ _

theorem balanced_doGet (remoteName dest : Bytes) :
    Balanced usage {.socket fd} (doGet fd remoteName dest) := by
  unfold doGet
  refine owns_bind (balanced_lift _) fun there => ?_
  split
  · exact owns_done rfl
  refine owns_bind (balanced_findPartial dest) fun existing => ?_
  split
  · exact owns_done rfl
  refine owns_bind (balanced_lift _) fun sent => ?_
  split
  · exact owns_done rfl
  · exact balanced_receiveGetReply _ _

/-- The stream is open while the body is sent, and closed when that fails. -/
theorem owns_uploadBody (f fuel pos : Nat) (remaining : UInt64) :
    Owns usage {.socket fd} {.stream f} (uploadBody fd f fuel pos remaining) fun sent =>
      if sent then {.stream f} else ∅ := by
  have hfail : Owns usage {.socket fd} {.stream f}
      (Proc.perform (Op.fclose f) >>= fun _ => (pure false : Prog Bool)) fun sent =>
        if sent then {.stream f} else ∅ :=
    owns_returns rfl rfl (fun _ => rfl) fun _ => owns_done rfl
  induction fuel generalizing pos remaining with
  | zero => exact owns_done rfl
  | succ fuel ih =>
    rw [uploadBody]
    split
    · refine Balanced.bind (balanced_perform Finset.subset_union_right rfl fun _ => rfl) fun a => ?_
      cases a with
      | error e => exact hfail
      | ok buf =>
        dsimp only
        generalize (if remaining < 65536 then remaining else 65536) = want
        split
        · exact hfail
        · refine Balanced.bind ((balanced_lift _).mono Finset.subset_union_left) fun sent => ?_
          split
          · exact hfail
          · exact ih _ _
    · exact owns_done rfl

theorem balanced_receiveVerdict : Balanced usage {.socket fd} (receiveVerdict fd) := by
  refine readFrame_bind (owns_done rfl) fun r => ?_
  dsimp only
  split
  · exact owns_report (owns_done rfl)
  · exact owns_free_bind (owns_done rfl)

theorem balanced_sendUpload (localPath : Bytes) (fileSize resumeOffset : UInt64) :
    Balanced usage {.socket fd} (sendUpload fd localPath fileSize resumeOffset) := by
  unfold sendUpload
  split
  · exact owns_done rfl
  refine owns_takes rfl rfl fun a => ?_
  cases a with
  | error e => exact owns_done rfl
  | ok f =>
    refine Balanced.bind (balanced_perform Finset.subset_union_right rfl fun _ => rfl) fun sought => ?_
    split
    · exact owns_returns rfl rfl (fun _ => rfl) fun _ => owns_done rfl
    refine owns_bind (owns_uploadBody f _ _ _) fun sent => ?_
    cases sent with
    | false => exact owns_done rfl
    | true => exact owns_returns rfl rfl (fun _ => rfl) fun _ => balanced_receiveVerdict

theorem balanced_doPut (localPath remoteName : Bytes) :
    Balanced usage {.socket fd} (doPut fd localPath remoteName) := by
  unfold doPut
  refine owns_bind (balanced_perform (Finset.empty_subset _) rfl fun _ => rfl) fun st => ?_
  cases st with
  | none => exact owns_done rfl
  | some st =>
    dsimp only
    split
    · exact owns_done rfl
    refine owns_bind (balanced_sha256File _) fun digest => ?_
    cases digest with
    | none => exact owns_done rfl
    | some digest =>
      dsimp only
      split
      · exact owns_done rfl
      refine owns_bind (balanced_lift _) fun sent => ?_
      split
      · exact owns_done rfl
      refine readFrame_bind (owns_done rfl) fun r => ?_
      dsimp only
      split
      · exact owns_report (owns_done rfl)
      split
      · exact owns_free_bind (owns_done rfl)
      · refine Balanced.bind ((balanced_touch r.payload).mono Finset.subset_union_right) fun _ => ?_
        exact owns_free_bind (balanced_sendUpload _ _ _)

/-! ## `main.c` -/

theorem balanced_doHello : Balanced usage {.socket fd} (doHello fd) := by
  refine owns_bind (balanced_lift _) fun sent => ?_
  split
  · exact owns_done rfl
  refine readFrame_bind (owns_done rfl) fun r => ?_
  dsimp only
  split
  · exact owns_report (owns_done rfl)
  · refine owns_free_bind ?_
    split <;> exact owns_done rfl

theorem balanced_doList : Balanced usage {.socket fd} (doList fd) := by
  refine owns_bind (balanced_lift _) fun sent => ?_
  split
  · exact owns_done rfl
  refine readFrame_bind (owns_done rfl) fun r => ?_
  dsimp only
  split
  · exact owns_report (owns_done rfl)
  split
  · exact owns_free_bind (owns_done rfl)
  · refine Balanced.bind ((balanced_touch r.payload).mono Finset.subset_union_right) fun _ => ?_
    exact owns_free_bind (owns_done rfl)

theorem balanced_doQuit : Balanced usage {.socket fd} (doQuit fd) := by
  refine owns_bind (balanced_lift _) fun sent => ?_
  split
  · refine readFrame_bind (owns_done rfl) fun r => ?_
    show Owns usage _ r.owned (free r.payload) _
    rw [← bind_pure (free r.payload)]
    exact owns_free_bind (owns_done rfl)
  · exact owns_done rfl

theorem balanced_session (command : Command) : Balanced usage {.socket fd} (session fd command) := by
  have hrun : Balanced usage {.socket fd} (runCommand fd command) := by
    cases command with
    | list => exact owns_bind balanced_doList fun _ => owns_done rfl
    | get name other => exact balanced_doGet _ _
    | put name other => exact balanced_doPut _ _
  refine owns_bind balanced_doHello fun greeted => ?_
  split
  · exact owns_done rfl
  refine owns_bind hrun fun ran => ?_
  split
  · exact owns_done rfl
  · exact owns_bind balanced_doQuit fun _ => owns_done rfl

/-- What belongs to the result of `rtrv_connect`. -/
def connected (fd : Option Nat) : Finset Resource := fd.elim ∅ fun fd => {.socket fd}

theorem owns_tryAddresses (addrs : List Addr) :
    Owns usage F ∅ (tryAddresses addrs) connected := by
  induction addrs with
  | nil => exact owns_done rfl
  | cons a rest ih =>
    refine owns_takes rfl rfl fun x => ?_
    cases x with
    | none => exact ih
    | some fd =>
      refine Balanced.bind (balanced_perform Finset.subset_union_right rfl fun _ => rfl) fun ok => ?_
      cases ok with
      | true => exact owns_done rfl
      | false => exact owns_returns rfl rfl (fun _ => rfl) fun _ => ih

theorem owns_connect (host port : Bytes) : Owns usage F ∅ (connect host port) connected := by
  unfold connect
  refine owns_takes rfl rfl fun a => ?_
  cases a with
  | none => exact owns_done rfl
  | some a =>
    obtain ⟨results, addrs⟩ := a
    have hframe := (owns_tryAddresses (F := F ∪ {.addresses results}) addrs).frame
      (Finset.disjoint_empty_left {Resource.addresses results})
    rw [Finset.empty_union] at hframe
    refine owns_bind hframe fun fd => ?_
    refine owns_call (Finset.empty_subset _) Finset.subset_union_right fun _ => owns_done ?_
    cases fd <;> simp [usage, connected]

/-- **The C client gives back everything it takes.** Whatever its arguments, whatever the server sends and
whichever call fails: `main` makes no call with a block, a stream, a directory or a socket that it does
not hold, gives nothing back twice, and holds nothing when it returns. -/
theorem main_balanced (argv : List Bytes) :
    Proc.Allowed usage.env (main argv) ∅ ∧
      ∀ r held, Proc.Runs usage.env (main argv) ∅ r held → held = ∅ := by
  have hmain : Balanced usage ∅ (main argv) := by
    unfold main
    split
    · exact owns_done rfl
    · refine owns_bind (owns_connect _ _) fun fd => ?_
      cases fd with
      | none => exact owns_done rfl
      | some fd =>
        refine Balanced.bind ((balanced_session _).mono Finset.subset_union_right) fun status => ?_
        exact owns_returns rfl rfl (fun _ => rfl) fun _ => owns_done rfl
  exact hmain.runs (Finset.Subset.refl _)

end

end Retriever.C.Res
