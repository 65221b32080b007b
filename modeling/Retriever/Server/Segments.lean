/-
# Retriever.Server.Segments — how the bytes arrive does not matter

A lone session against a client whose bytes are fixed (`Net.wire`). Every program of the server is
determinate: whatever the splitting of the client's bytes over the `recv` calls, it ends with the
same result in the same state. The reads of frames are so because they are exact, everything that
does not read is so because its answers are functions of the directory, and the body of an upload is
so because writing it in pieces is writing it at once (`receiveBody_yields`). The session then ends,
and always in the same state (`session_segmentation`).
-/
import Retriever.Codec
import Retriever.Paths

namespace Retriever

open Proc (Determinate Yields)

/-! ## The body of an upload -/

/-- The machine after `k` bytes of the input have gone to the file `i`. -/
def Machine.absorb (m : Machine Wire) (i k : Nat) : Machine Wire :=
  { m with
    os := m.os.extend i (m.net.input.take k)
    net := ⟨m.net.input.drop k, m.net.output⟩ }

theorem Machine.absorb_zero (m : Machine Wire) (i : Nat) : m.absorb i 0 = m := by
  rw [Machine.absorb, List.take_zero, List.drop_zero, Os.extend_nil]

/-- **The body of an upload arrives as a whole**, in whatever pieces it comes. -/
theorem receiveBody_yields (out fileSize fuel written : Nat) (m : Machine Wire)
    (hfuel : fileSize ≤ written + fuel)
    (hsmall : (m.os.store.data out).length + (fileSize - written) < OFF_MAX) :
    Yields Net.wire.env (receiveBody out fileSize fuel written) m
      (if fileSize - written ≤ m.net.input.length then .ok () else .error (.sys .connectionError))
      (m.absorb out (fileSize - written)) := by
  induction fuel generalizing written m with
  | zero =>
    rw [receiveBody, if_pos (by omega), show fileSize - written = 0 by omega, Machine.absorb_zero]
    exact Proc.yields_done _ _
  | succ fuel ih =>
    rw [receiveBody]
    by_cases hlt : written < fileSize
    · rw [if_pos hlt]
      refine Proc.wp_bind.mpr (Py.wpm_recv.mpr ⟨trivial, fun a w hw => ?_⟩)
      rcases wire_recv_cases (by omega) hw with ⟨hin, rfl, rfl⟩ | ⟨c, hc, hle, rfl, hin, hout⟩
      · -- the client has closed
        rw [if_neg (by simp [hin]; omega), Machine.absorb, hin, List.take_nil, List.drop_nil,
          Os.extend_nil]
        refine ⟨rfl, ?_⟩
        rw [← hin]
      · have hpos := List.length_pos_iff.mpr hc
        have hroom : (m.os.store.data out).length + c.length < OFF_MAX := by omega
        simp only [Outcome, if_neg hc]
        refine Proc.wp_bind.mpr (Py.wpm_write.mpr ?_)
        rw [show ({ m with net := w } : Machine Wire).os = m.os from rfl, Os.run_write hroom]
        -- what is left to do for the rest
        have hnext := ih (written + c.length)
          { m with os := m.os.extend out c, net := w } (by omega)
          (by rw [Os.extend_data hroom, List.length_append]; omega)
        have hrest : fileSize - (written + c.length) = fileSize - written - c.length := by omega
        have htake : m.net.input.take (fileSize - written) =
            c ++ w.input.take (fileSize - written - c.length) := by
          rw [hin, List.take_append, List.take_of_length_le (by omega)]
        have hdrop : m.net.input.drop (fileSize - written) =
            w.input.drop (fileSize - written - c.length) := by
          rw [hin, List.drop_append, List.drop_of_length_le (by omega), List.nil_append]
        have hcond : (fileSize - written - c.length ≤ w.input.length) =
            (fileSize - written ≤ m.net.input.length) := by
          rw [hin, List.length_append]
          exact propext ⟨fun _ => by omega, fun _ => by omega⟩
        have hos : (m.os.extend out c).extend out (w.input.take (fileSize - written - c.length)) =
            m.os.extend out (m.net.input.take (fileSize - written)) := by
          rw [htake]
          apply Os.extend_extend
          rw [List.length_append, List.length_take]
          omega
        simp only [Machine.absorb, hcond, hrest, hos, ← hdrop, hout] at hnext
        exact hnext
    · rw [if_neg hlt, if_pos (by omega), show fileSize - written = 0 by omega, Machine.absorb_zero]
      exact Proc.yields_done _ _

/-! ## Every program of the server is determinate -/

namespace Py

theorem determinate_stat (p : Bytes) : Determinate Net.wire.env (stat p) := determinate_fs _

theorem determinate_pathExists (p : Bytes) : Determinate Net.wire.env (pathExists p) :=
  (determinate_stat p).bind fun _ => .done _

theorem determinate_isfile (p : Bytes) : Determinate Net.wire.env (isfile p) :=
  (determinate_stat p).bind fun _ => .done _

theorem determinate_getsize (p : Bytes) : Determinate Net.wire.env (getsize p) := by
  refine (determinate_stat p).bind fun st => ?_
  cases st with
  | none => exact .raise _
  | some st => exact .done _

theorem determinate_openRb (p : Bytes) : Determinate Net.wire.env (openRb p) :=
  (determinate_fs _).bind determinate_orRaise

theorem determinate_read (i pos n : Nat) : Determinate Net.wire.env (read i pos n) :=
  (determinate_fs _).bind determinate_orRaise

theorem determinate_remove (p : Bytes) : Determinate Net.wire.env (remove p) :=
  (determinate_fs _).bind determinate_orRaise

theorem determinate_link (p q : Bytes) : Determinate Net.wire.env (link p q) :=
  (determinate_fs _).bind determinate_orRaise

theorem determinate_listdir (p : Bytes) : Determinate Net.wire.env (listdir p) :=
  (determinate_fs _).bind determinate_orRaise

theorem determinate_reserve (p : Bytes) : Determinate Net.wire.env (reserve p) := by
  refine Determinate.perform fun m => ⟨trivial, decide (p ∉ m.inFlight),
    { m with inFlight := insert p m.inFlight }, ?_⟩
  rintro a t ⟨rfl, rfl⟩
  exact ⟨rfl, rfl⟩

theorem yields_discard (p : Bytes) (m : Machine Wire) : Yields Net.wire.env (discard p) m (.ok ())
    { m with inFlight := m.inFlight.erase p } := by
  apply Net.call_discard.mpr
  exact ⟨rfl, rfl⟩

theorem determinate_readAll (i n fuel : Nat) (acc : Bytes) :
    Determinate Net.wire.env (readAll i n fuel acc) := by
  induction fuel generalizing acc with
  | zero => exact .raise _
  | succ fuel ih =>
    rw [readAll]
    refine (determinate_read i _ n).bind fun chunk => ?_
    split
    · exact .done _
    · exact ih _

end Py

theorem determinate_sha256File (p : Bytes) : Determinate Net.wire.env (sha256File p) :=
  (Py.determinate_openRb p).bind fun _ => (Py.determinate_readAll _ _ _ _).bind fun _ => .done _

theorem determinate_writeFrame (t : UInt8) (p : Bytes) : Determinate Net.wire.env (writeFrame t p) :=
  (Determinate.ofExcept _).bind fun _ => determinate_sendall _

theorem determinate_sendError (reason : UInt8) (message : Text) :
    Determinate Net.wire.env (sendError reason message) :=
  (Determinate.ofExcept _).bind fun _ => determinate_writeFrame _ _

theorem determinate_readFrame : Determinate Net.wire.env readFrame := fun m =>
  ⟨_, _, readFrame_yields m.net.input m.net.output⟩

theorem determinate_handleList : Determinate Net.wire.env handleList :=
  (Py.determinate_listdir _).bind fun _ => (Determinate.ofExcept _).bind fun _ =>
    determinate_writeFrame _ _

theorem determinate_sendBody (f fuel pos remaining : Nat) :
    Determinate Net.wire.env (sendBody f fuel pos remaining) := by
  induction fuel generalizing pos remaining with
  | zero => exact .done _
  | succ fuel ih =>
    rw [sendBody]
    split
    · refine (Py.determinate_read _ _ _).bind fun chunk => ?_
      split
      · exact .done _
      · exact (determinate_sendall _).bind fun _ => ih _ _
    · exact .done _

theorem determinate_serveFile (path : Bytes) (offset : Nat) (token : Bytes) :
    Determinate Net.wire.env (serveFile path offset token) := by
  refine (Py.determinate_getsize path).bind fun size => ?_
  split
  · exact .raise _
  · exact (determinate_sha256File path).bind fun _ =>
      ((Determinate.ofExcept _).bind fun _ => determinate_sendall _).bind fun _ =>
        (Determinate.ofExcept _).bind fun _ => (Determinate.ofExcept _).bind fun _ =>
          (determinate_sendall _).bind fun _ => (Py.determinate_openRb _).bind fun _ =>
            determinate_sendBody _ _ _ _

theorem determinate_handleGet (payload : Bytes) : Determinate Net.wire.env (handleGet payload) := by
  refine (Determinate.ofExcept _).bind fun req => ?_
  split
  · exact determinate_sendError _ _
  · refine (Py.determinate_isfile _).bind fun b => ?_
    split
    · exact determinate_sendError _ _
    · exact determinate_serveFile _ _ _

theorem determinate_publish (name partialPath : Bytes) :
    Determinate Net.wire.env (publish name partialPath) := by
  refine (Py.determinate_openRb _).bind fun f => (Py.determinate_read _ _ _).bind fun _ => ?_
  refine Determinate.bind (Determinate.tryCatch
    ((Py.determinate_link _ _).bind fun _ => .done _) fun e => ?_) fun linked => ?_
  · split
    · exact .done _
    · exact .raise _
  · split
    · exact (Py.determinate_remove _).bind fun _ => determinate_sendError _ _
    · exact (Py.determinate_remove _).bind fun _ => determinate_writeFrame _ _

/-! ### The partial that is opened is the one that was measured -/

theorem resumeOffset_eq (p : Bytes) (fileSize : Nat) : resumeOffset p fileSize =
    (Py.pathExists p >>= fun b => if b = true then Py.getsize p else pure 0) >>= fun held =>
      if held > fileSize then Py.remove p >>= fun _ => pure 0 else pure held := by
  unfold resumeOffset
  rw [bind_assoc]
  congr 1
  funext b
  cases b <;> rfl

/-- `resume_offset` and what it leaves behind: the size of the file that is there, or 0 for a file
that is missing then. -/
theorem resumeOffset_yields (p : Bytes) (fileSize : Nat) (m : Machine Wire) :
    (m.os.at? p = some .subdir ∧
      Yields Net.wire.env (resumeOffset p fileSize) m (.error (.sys .osError)) m) ∨
    (m.os.at? p = some .subdir ∧ m.os.dirSize ≤ fileSize ∧
      Yields Net.wire.env (resumeOffset p fileSize) m (.ok m.os.dirSize) m) ∨
    (∃ i, m.os.at? p = some (.file i) ∧ (m.os.store.data i).length ≤ fileSize ∧
      Yields Net.wire.env (resumeOffset p fileSize) m (.ok (m.os.store.data i).length) m) ∨
    (∃ i l, m.os.locate p = some l ∧ m.os.slot l = some (.file i) ∧
      fileSize < (m.os.store.data i).length ∧
      Yields Net.wire.env (resumeOffset p fileSize) m (.ok 0) { m with os := m.os.removeAt l }) ∨
    (m.os.at? p = none ∧ Yields Net.wire.env (resumeOffset p fileSize) m (.ok 0) m) := by
  have hexists : Yields Net.wire.env (Py.pathExists p) m (.ok (m.os.statAt p).isSome) m :=
    Py.wpm_pathExists.mpr ⟨rfl, rfl⟩
  have hsize : ∀ st, m.os.statAt p = some st →
      Yields Net.wire.env (Py.getsize p) m (.ok st.size) m := fun st hst =>
    (Py.wpm_getsize hst).mpr ⟨rfl, rfl⟩
  rw [resumeOffset_eq]
  cases hat : m.os.at? p with
  | none =>
    refine .inr (.inr (.inr (.inr ⟨rfl, ?_⟩)))
    rw [Os.statAt_none hat] at hexists
    have hheld := hexists.bind (f := fun b => if b = true then Py.getsize p else pure 0)
      (Proc.yields_done 0 m)
    apply hheld.bind
    rw [if_neg (by omega)]
    exact Proc.yields_done _ _
  | some sl =>
    cases sl with
    | subdir =>
      have hst := Os.statAt_dir hat
      rw [hst] at hexists
      have hheld := hexists.bind (f := fun b => if b = true then Py.getsize p else pure 0)
        (by simpa using hsize _ hst)
      by_cases hbig : m.os.dirSize > fileSize
      · left
        refine ⟨rfl, hheld.bind ?_⟩
        rw [Stat.size, if_pos hbig]
        apply Yields.bind_error
        apply Py.wpm_remove.mpr
        rw [Os.run_unlink_dir hat]
        exact ⟨rfl, rfl⟩
      · refine .inr (.inl ⟨rfl, Nat.le_of_not_lt hbig, hheld.bind ?_⟩)
        rw [Stat.size, if_neg hbig]
        exact Proc.yields_done _ _
    | file i =>
      have hst := Os.statAt_file hat
      rw [hst] at hexists
      have hheld := hexists.bind (f := fun b => if b = true then Py.getsize p else pure 0)
        (by simpa using hsize _ hst)
      by_cases hbig : (m.os.store.data i).length > fileSize
      · obtain ⟨l, hl, hs⟩ := Os.at?_eq_some.mp hat
        refine .inr (.inr (.inr (.inl ⟨i, l, hl, hs, hbig, hheld.bind ?_⟩)))
        rw [Stat.size, if_pos hbig]
        refine Yields.bind (a := ()) (?_ : Yields Net.wire.env (Py.remove p) m (.ok ())
          { m with os := m.os.removeAt l }) ?_
        · apply Py.wpm_remove.mpr
          rw [Os.run_unlink_at hl hs]
          exact ⟨rfl, rfl⟩
        · exact Proc.yields_done _ _
      · refine .inr (.inr (.inl ⟨i, rfl, by omega, hheld.bind ?_⟩))
        rw [Stat.size, if_neg hbig]
        exact Proc.yields_done _ _

/-- The file that is opened next has as many bytes as the offset says. -/
theorem resumeOffset_opens {p : Bytes} {fileSize offset out : Nat} {m m' : Machine Wire}
    (h : Yields Net.wire.env (resumeOffset p fileSize) m (.ok offset) m')
    (hopen : (m'.os.run (.openAb p)).1 = .ok out) :
    offset ≤ fileSize ∧ ((m'.os.run (.openAb p)).2.store.data out).length = offset := by
  obtain ⟨r, m₁, hrun⟩ := Proc.exists_runs Net.wire_live (resumeOffset p fileSize) m
  have hmine := h.unique hrun
  -- a file that is missing is opened empty
  have hnew : ∀ os : Os, os.at? p = none → (os.run (.openAb p)).1 = .ok out →
      ((os.run (.openAb p)).2.store.data out).length = 0 := by
    intro os hnone hok
    rcases Os.run_openAb_none hnone with hrun | ⟨l, -, -, -, hrun⟩
    · rw [hrun] at hok
      cases hok
    · rw [hrun] at hok ⊢
      cases hok
      simp
  rcases resumeOffset_yields p fileSize m with ⟨-, hy⟩ | ⟨hat, -, hy⟩ | ⟨i, hat, hle, hy⟩ |
    ⟨i, l, hl, hs, hlt, hy⟩ | ⟨hat, hy⟩
  · cases (hy.unique hrun).1.symm.trans hmine.1
  · obtain ⟨h1, h2⟩ := hy.unique hrun
    cases h1.symm.trans hmine.1
    obtain rfl : m = m' := h2.symm.trans hmine.2
    rw [Os.run_openAb_dir hat] at hopen
    cases hopen
  · obtain ⟨h1, h2⟩ := hy.unique hrun
    cases h1.symm.trans hmine.1
    obtain rfl : m = m' := h2.symm.trans hmine.2
    rw [Os.run_openAb_file hat] at hopen ⊢
    cases hopen
    exact ⟨hle, rfl⟩
  · obtain ⟨h1, h2⟩ := hy.unique hrun
    cases h1.symm.trans hmine.1
    obtain rfl : { m with os := m.os.removeAt l } = m' := h2.symm.trans hmine.2
    refine ⟨Nat.zero_le _, hnew _ ?_ hopen⟩
    refine Os.at?_eq_none.mpr fun l' hl' => ?_
    rw [Os.locate_removeAt hs, hl] at hl'
    cases hl'
    rw [Os.removeAt_slot (Os.not_prefix_of_slot (by rw [hs]; simp)), if_pos rfl]
  · obtain ⟨h1, h2⟩ := hy.unique hrun
    cases h1.symm.trans hmine.1
    obtain rfl : m = m' := h2.symm.trans hmine.2
    exact ⟨Nat.zero_le _, hnew _ hat hopen⟩

theorem determinate_resumeOffset (p : Bytes) (fileSize : Nat) :
    Determinate Net.wire.env (resumeOffset p fileSize) := by
  intro m
  rcases resumeOffset_yields p fileSize m with ⟨-, h⟩ | ⟨-, -, h⟩ | ⟨i, -, -, h⟩ |
    ⟨i, l, -, -, -, h⟩ | ⟨-, h⟩
  · exact ⟨_, _, h⟩
  · exact ⟨_, _, h⟩
  · exact ⟨_, _, h⟩
  · exact ⟨_, _, h⟩
  · exact ⟨_, _, h⟩

theorem yields_writeFrame {t : UInt8} {p : Bytes} (hp : p.length < 256 ^ 8) (m : Machine Wire) :
    Yields Net.wire.env (writeFrame t p) m (.ok ())
      (m.wired m.net.input (m.net.output ++ frameBytes t p)) := by
  rw [writeFrame_eq hp]
  exact yields_sendall _ m

/-- What follows the body: the hash, and the verdict. -/
def settleUpload (name partialPath digest : Bytes) : Py Unit := do
  if (← sha256File partialPath) ≠ digest then do
    Py.remove partialPath
    sendError E_CORRUPT "content did not match the stated hash".toList
  else publish name partialPath

theorem determinate_settleUpload (name partialPath digest : Bytes) :
    Determinate Net.wire.env (settleUpload name partialPath digest) := by
  refine (determinate_sha256File _).bind fun d => ?_
  split
  · exact (Py.determinate_remove _).bind fun _ => determinate_sendError _ _
  · exact determinate_publish _ _

theorem determinate_receiveUpload {name p digest : Bytes} {fileSize : Nat}
    (hsize : fileSize ≤ MAX_FILE_SIZE) :
    Determinate Net.wire.env (receiveUpload name p fileSize digest) := by
  intro m
  obtain ⟨r, m₁, hres⟩ := determinate_resumeOffset p fileSize m
  unfold receiveUpload
  cases r with
  | error e => exact ⟨_, _, hres.bind_error⟩
  | ok offset =>
    cases h8 : toBytes 8 offset with
    | error e =>
      have hraise : Yields Net.wire.env (Proc.ofExcept (toBytes 8 offset)) m₁ (.error e) m₁ := by
        rw [h8]
        exact Proc.yields_raise _ _
      exact ⟨_, _, hres.bind hraise.bind_error⟩
    | ok offset8 =>
      have hdone : Yields Net.wire.env (Proc.ofExcept (toBytes 8 offset)) m₁ (.ok offset8) m₁ := by
        rw [h8]
        exact Proc.yields_done _ _
      obtain ⟨r₂, m₂, hwrite⟩ := determinate_writeFrame T_OK offset8 m₁
      have hos : r₂ = .ok () → m₂.os = m₁.os := by
        have hlen : offset8.length < 256 ^ 8 := by
          unfold toBytes at h8
          split at h8
          · cases h8
            simp
          · cases h8
        obtain ⟨r', m', hrun⟩ := Proc.exists_runs Net.wire_live (writeFrame T_OK offset8) m₁
        obtain ⟨-, hm⟩ := hwrite.unique hrun
        obtain ⟨-, hm'⟩ := (yields_writeFrame hlen m₁).unique hrun
        intro _
        rw [← hm, hm']
        rfl
      cases r₂ with
      | error e =>
        exact ⟨_, _, hres.bind (hdone.bind hwrite.bind_error)⟩
      | ok u =>
        -- the file that is opened now is as long as the offset
        have hopen : Yields Net.wire.env (Proc.perform (Sys.fs (.openAb p)) : Py _) m₂
            (.ok (m₂.os.run (.openAb p)).1) { m₂ with os := (m₂.os.run (.openAb p)).2 } :=
          yields_fs (.openAb p) m₂
        cases ho : (m₂.os.run (.openAb p)).1 with
        | error e =>
          rw [ho] at hopen
          have hopen' : Yields Net.wire.env (Py.openAb p) m₂ (.error (.sys e)) _ :=
            hopen.bind (Proc.yields_raise _ _)
          exact ⟨_, _, hres.bind (hdone.bind
            (hwrite.bind hopen'.bind_error))⟩
        | ok out =>
          have hopens := resumeOffset_opens hres (by rw [← hos rfl]; exact ho)
          rw [← hos rfl] at hopens
          rw [ho] at hopen
          have hopen' : Yields Net.wire.env (Py.openAb p) m₂ (.ok out) _ :=
            hopen.bind (Proc.yields_done _ _)
          have hmax : MAX_FILE_SIZE < OFF_MAX := by decide
          have hbody := receiveBody_yields out fileSize (fileSize - offset) offset
            { m₂ with os := (m₂.os.run (.openAb p)).2 } (by omega)
            (by rw [hopens.2]; omega)
          have hrest : ∃ r m', Yields Net.wire.env
              (receiveBody out fileSize (fileSize - offset) offset >>= fun _ =>
                settleUpload name p digest) { m₂ with os := (m₂.os.run (.openAb p)).2 } r m' := by
            split at hbody
            · obtain ⟨r, m', h⟩ := determinate_settleUpload name p digest _
              exact ⟨r, m', hbody.bind h⟩
            · exact ⟨_, _, hbody.bind_error⟩
          obtain ⟨r, m', hrest⟩ := hrest
          exact ⟨r, m', hres.bind (hdone.bind
            (hwrite.bind (hopen'.bind hrest)))⟩

theorem determinate_handlePut (payload : Bytes) : Determinate Net.wire.env (handlePut payload) := by
  refine (Determinate.ofExcept _).bind fun req => ?_
  split
  · exact determinate_sendError _ _
  · split
    · exact determinate_sendError _ _
    · next hsize =>
      refine (Py.determinate_pathExists _).bind fun b => ?_
      split
      · exact determinate_sendError _ _
      · refine (Py.determinate_reserve _).bind fun b => ?_
        split
        · exact determinate_sendError _ _
        · intro m
          obtain ⟨r, m', h⟩ := determinate_receiveUpload (Nat.not_lt.mp hsize) m
          exact ⟨r, _, h.ensure (Py.yields_discard _ m')⟩

theorem determinate_dispatch (f : Frame) : Determinate Net.wire.env (dispatch f) := by
  unfold dispatch
  split
  · exact (determinate_writeFrame _ _).bind fun _ => .done _
  · split
    · exact determinate_handleList.bind fun _ => .done _
    · split
      · exact (determinate_handleGet _).bind fun _ => .done _
      · split
        · exact (determinate_handlePut _).bind fun _ => .done _
        · exact .raise _

theorem determinate_onError (e : Exn) : Determinate Net.wire.env (onError e) := by
  unfold onError
  split
  · exact determinate_sendError _ _
  · exact .done _
  · exact .done _
  · exact determinate_sendError _ _

theorem determinate_greet : Determinate Net.wire.env greet := by
  refine determinate_readFrame.bind fun f => ?_
  split
  · exact .raise _
  · exact determinate_writeFrame _ _

/-! ## The session -/

/-- However the calls are answered, the session comes to its end, and that is in the state `m'`. -/
inductive Session.Ends (m' : Machine Wire) : Session → Machine Wire → Prop
  | closed : Session.Ends m' .closed m'
  | step {l : Session} {m : Machine Wire} {o : Sys} {k : o.Ans → Session} :
      l.next = some ⟨o, k⟩ → (∀ a m₁, Net.wire.env.gives m o a m₁ → Session.Ends m' (k a) m₁) →
      Session.Ends m' l m

namespace Session

variable {m m₁ m' : Machine Wire}

theorem ends_failing {r : Option Request} {p : Py Unit} {x : Except Exn Unit}
    (h : Yields Net.wire.env p m x m') : Ends m' (settleFailing r p) m := by
  induction p generalizing m with
  | done a =>
    obtain ⟨-, rfl⟩ := h
    exact .closed
  | raise e =>
    obtain ⟨-, rfl⟩ := h
    exact .closed
  | call o k ih => exact .step rfl fun a m₁ ha => ih a (h.2 a m₁ ha)

theorem ends_fail (r : Option Request) (e : Exn) (m : Machine Wire) :
    ∃ m', Ends m' (fail r e) m := by
  obtain ⟨x, m', h⟩ := determinate_onError e m
  exact ⟨m', ends_failing h⟩

/-- A program of the session runs to its end, and the session goes on from there. -/
theorem ends_serving {r : Request} {p : Py Bool} {x : Except Exn Bool}
    (h : Yields Net.wire.env p m x m₁) (hrest : Ends m' (settleServing r (Proc.ofExcept x)) m₁) :
    Ends m' (settleServing r p) m := by
  induction p generalizing m with
  | done a =>
    obtain ⟨rfl, rfl⟩ := h
    exact hrest
  | raise e =>
    obtain ⟨rfl, rfl⟩ := h
    exact hrest
  | call o k ih => exact .step rfl fun a m₂ ha => ih a (h.2 a m₂ ha)

theorem ends_awaiting {n : Nat} {p : Py (Option Frame)} {x : Except Exn (Option Frame)}
    (h : Yields Net.wire.env p m x m₁) (hrest : Ends m' (settleAwaiting n (Proc.ofExcept x)) m₁) :
    Ends m' (settleAwaiting n p) m := by
  induction p generalizing m with
  | done a =>
    obtain ⟨rfl, rfl⟩ := h
    exact hrest
  | raise e =>
    obtain ⟨rfl, rfl⟩ := h
    exact hrest
  | call o k ih => exact .step rfl fun a m₂ ha => ih a (h.2 a m₂ ha)

theorem ends_greeting {p : Py Unit} {x : Except Exn Unit}
    (h : Yields Net.wire.env p m x m₁) (hrest : Ends m' (settleGreeting (Proc.ofExcept x)) m₁) :
    Ends m' (settleGreeting p) m := by
  induction p generalizing m with
  | done a =>
    obtain ⟨rfl, rfl⟩ := h
    exact hrest
  | raise e =>
    obtain ⟨rfl, rfl⟩ := h
    exact hrest
  | call o k ih => exact .step rfl fun a m₂ ha => ih a (h.2 a m₂ ha)

end Session

/-- Nothing is put back into the input. -/
theorem wire_suffix {α : Type} {p : Py α} {m m' : Machine Wire} {r : Except Exn α}
    (h : Proc.Runs Net.wire.env p m r m') : m'.net.input <:+ m.net.input := by
  induction h with
  | done a s => exact List.suffix_refl _
  | raise e s => exact List.suffix_refl _
  | @call o k s s' s'' a r hx _ ih =>
    apply ih.trans
    cases o with
    | recv n =>
      obtain ⟨w, ⟨c, -, -, -, hin, -⟩, rfl⟩ := hx
      rw [hin]
      exact List.suffix_append _ _
    | send b =>
      obtain ⟨w, ⟨-, rfl⟩, rfl⟩ := hx
      exact List.suffix_refl _
    | fs o =>
      obtain ⟨-, rfl⟩ := hx
      exact List.suffix_refl _
    | reserve p =>
      obtain ⟨-, rfl⟩ := hx
      exact List.suffix_refl _
    | discard p =>
      obtain rfl := hx
      exact List.suffix_refl _

theorem yields_suffix {α : Type} {p : Py α} {m m' : Machine Wire} {r : Except Exn α}
    (h : Yields Net.wire.env p m r m') : m'.net.input <:+ m.net.input := by
  obtain ⟨r', m₁, hrun⟩ := Proc.exists_runs Net.wire_live p m
  obtain ⟨-, rfl⟩ := h.unique hrun
  exact wire_suffix hrun

/-- A frame takes at least its header. -/
theorem scanFrame_shorter {s rest : Bytes} {f : Frame} (h : scanFrame s = (.ok f, rest)) :
    rest.length < s.length := by
  obtain ⟨rfl, -⟩ := scanFrame_eq_ok.mp h
  rw [List.length_append, frameBytes_length]
  exact Nat.lt_add_of_pos_left (Nat.add_pos_left (by decide) _)

/-- What the loop makes of a frame, or of the reason why there is none. -/
def nextOf : Except Exn Frame → Except Exn (Option Frame)
  | .ok f => .ok (some f)
  | .error (.sys .connectionError) => .ok none
  | .error e => .error e

theorem nextOf_error {e : Exn} (h : e ≠ .sys .connectionError) : nextOf (.error e) = .error e := by
  unfold nextOf
  split
  · next hok => cases hok
  · next hc =>
    cases hc
    exact absurd rfl h
  · next hc =>
    cases hc
    rfl

theorem nextOf_some {x : Except Exn Frame × Bytes} {f : Frame} (h : nextOf x.1 = .ok (some f)) :
    x = (.ok f, x.2) := by
  obtain ⟨r, rest⟩ := x
  unfold nextOf at h
  split at h
  · next hr =>
    cases h
    rw [← hr]
  · cases h
  · cases h

theorem nextOf_none {x : Except Exn Frame} (h : nextOf x = .ok none) :
    x = .error (.sys .connectionError) := by
  unfold nextOf at h
  split at h
  · cases h
  · rfl
  · cases h

theorem nextOf_raises {x : Except Exn Frame} {e : Exn} (h : nextOf x = .error e) :
    x = .error e ∧ e ≠ .sys .connectionError := by
  unfold nextOf at h
  split at h
  · cases h
  · cases h
  · next e' hne =>
    cases h
    exact ⟨rfl, hne⟩

theorem nextFrame_yields (m : Machine Wire) :
    Yields Net.wire.env nextFrame m (nextOf (scanFrame m.net.input).1)
      (m.wired (scanFrame m.net.input).2 m.net.output) := by
  have h := readFrame_yields (m := m) m.net.input m.net.output
  rw [Machine.wired_self] at h
  cases hs : (scanFrame m.net.input).1 with
  | ok f =>
    rw [hs] at h
    have hsome := h.bind (f := fun f => (pure (some f) : Py (Option Frame)))
      (Proc.yields_done (some f) _)
    exact hsome.tryCatch
  | error e =>
    rw [hs] at h
    have he := h.bind_error (f := fun f => (pure (some f) : Py (Option Frame)))
    apply he.tryCatch_error
    by_cases hc : e = .sys .connectionError
    · subst hc
      exact Proc.yields_done _ _
    · rw [nextOf_error hc]
      split
      · exact absurd rfl hc
      · exact Proc.yields_raise _ _

/-- The loop of `handle_client` comes to an end. -/
theorem Session.awaiting_ends (n : Nat) (m : Machine Wire) :
    ∃ m', Session.Ends m' (.awaiting n nextFrame) m := by
  -- every round takes a frame off the input
  induction hlen : m.net.input.length using Nat.strong_induction_on generalizing n m with
  | _ k ih =>
    have hcall : Session.awaiting n nextFrame = Session.settleAwaiting n nextFrame := rfl
    rw [hcall]
    have hy := nextFrame_yields m
    cases hs : nextOf (scanFrame m.net.input).1 with
    | error e =>
      rw [hs] at hy
      obtain ⟨m', h⟩ := Session.ends_fail none e (m.wired (scanFrame m.net.input).2 m.net.output)
      exact ⟨m', Session.ends_awaiting hy h⟩
    | ok o =>
    rw [hs] at hy
    cases o with
    | none => exact ⟨_, Session.ends_awaiting hy .closed⟩
    | some f =>
      obtain ⟨r, m₂, hd⟩ := determinate_dispatch f (m.wired (scanFrame m.net.input).2 m.net.output)
      have hshort : m₂.net.input.length < k := by
        have h1 := (yields_suffix hd).length_le
        have h2 := scanFrame_shorter (nextOf_some hs)
        change m₂.net.input.length ≤ (scanFrame m.net.input).2.length at h1
        omega
      have hgo : ∃ m', Session.Ends m' (Session.settleServing (n, f) (Proc.ofExcept r)) m₂ := by
        cases r with
        | ok b =>
          cases b with
          | true => exact ih _ hshort (n + 1) m₂ rfl
          | false => exact ⟨m₂, .closed⟩
        | error e => exact Session.ends_fail _ _ _
      obtain ⟨m', hgo⟩ := hgo
      exact ⟨m', Session.ends_awaiting hy (Session.ends_serving hd hgo)⟩

theorem Session.accepted_ends (m : Machine Wire) : ∃ m', Session.Ends m' Session.accepted m := by
  have hcall : Session.accepted = Session.settleGreeting greet := rfl
  rw [hcall]
  obtain ⟨r, m₁, hy⟩ := determinate_greet m
  have hgo : ∃ m', Session.Ends m' (Session.settleGreeting (Proc.ofExcept r)) m₁ := by
    cases r with
    | ok u => exact Session.awaiting_ends 0 m₁
    | error e => exact Session.ends_fail _ _ _
  obtain ⟨m', hgo⟩ := hgo
  exact ⟨m', Session.ends_greeting hy hgo⟩

/-! ## Runs -/

/-- One call of a lone session. -/
inductive Session.Step : Session × Machine Wire → Session × Machine Wire → Prop
  | mk {l : Session} {m m₁ : Machine Wire} {o : Sys} {k : o.Ans → Session} {a : o.Ans} :
      l.next = some ⟨o, k⟩ → Net.wire.env.gives m o a m₁ → Session.Step (l, m) (k a, m₁)

abbrev Session.Run : Session × Machine Wire → Session × Machine Wire → Prop :=
  Relation.ReflTransGen Session.Step

theorem Session.Ends.run {m' : Machine Wire} {c c₁ : Session × Machine Wire}
    (h : Session.Ends m' c.1 c.2) (hr : Session.Run c c₁) : Session.Ends m' c₁.1 c₁.2 := by
  induction hr with
  | refl => exact h
  | tail _ hstep ih =>
    cases hstep with
    | mk hn hx =>
      cases ih with
      | closed => cases hn
      | step hn' hall =>
        cases hn'.symm.trans hn
        exact hall _ _ hx

theorem Session.Ends.acc {m' : Machine Wire} {l : Session} {m : Machine Wire}
    (h : Session.Ends m' l m) : Acc (fun c' c => Session.Step c c') (l, m) := by
  induction h with
  | closed =>
    refine ⟨_, ?_⟩
    rintro c ⟨hn, -⟩
    cases hn
  | step hn _ ih =>
    refine ⟨_, ?_⟩
    rintro c ⟨hn', hx⟩
    cases hn.symm.trans hn'
    exact ih _ _ hx

/-- **Segmentation does not matter.** For every byte string a client sends before it closes, and
every directory: there is one outcome of the session, a directory, the part of the string that is
never read and the bytes of all replies, such that every run of the session, however the string is
split over the `recv` calls, comes to an end, and ends with that outcome. -/
theorem session_segmentation (os : Os) (inFlight : Finset Bytes) (stream : Bytes) :
    ∃ (os' : Os) (rest replies : Bytes),
      Acc (fun c' c => Session.Step c c') (Session.accepted, ⟨os, inFlight, ⟨stream, []⟩⟩) ∧
      ∀ l m, Session.Run (Session.accepted, ⟨os, inFlight, ⟨stream, []⟩⟩) (l, m) →
        (∀ c, ¬ Session.Step (l, m) c) →
        l = .closed ∧ m.os = os' ∧ m.net.input = rest ∧ m.net.output = replies := by
  obtain ⟨m', h⟩ := Session.accepted_ends ⟨os, inFlight, ⟨stream, []⟩⟩
  refine ⟨m'.os, m'.net.input, m'.net.output, h.acc, fun l m hr hstop => ?_⟩
  have hend := h.run hr
  cases hend with
  | closed => exact ⟨rfl, rfl, rfl, rfl⟩
  | step hn _ =>
    obtain ⟨a, m₁, ha⟩ := Net.wire_live m _
    exact absurd (.mk hn ha) (hstop _)

end Retriever
