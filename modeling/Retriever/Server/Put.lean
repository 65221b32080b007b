/-
# Retriever.Server.Put — PUT as a state transition

What a lone `handle_put` does to the directory, for every payload and every byte stream that
follows it. The partial is brought into one of three shapes before the body comes (`prepare_yields`);
the body is added to it as a whole; then the hash decides between publication and removal
(`settleUpload_ok`, `settleUpload_corrupt`). The theorem at the end puts the cases together.
-/
import Retriever.Server.Segments

namespace Retriever

open Proc (Yields)

/-- The bytes of an old partial that an upload of `fileSize` bytes goes on from. -/
def keptOf (fileSize : Nat) : Option Bytes → Bytes
  | some c => if c.length ≤ fileSize then c else []
  | none => []

theorem keptOf_length_le (fileSize : Nat) (c : Option Bytes) :
    (keptOf fileSize c).length ≤ fileSize := by
  unfold keptOf
  split
  · split
    · assumption
    · exact Nat.zero_le _
  · exact Nat.zero_le _

/-! ## Before the body -/

section Upload

variable {m : Machine Wire} {name p digest : Bytes} {ln lp : Loc} {fileSize i : Nat}

theorem yields_openAb {os' : Os} (h : m.os.run (.openAb p) = (.ok i, os')) :
    Yields Net.wire.env (Py.openAb p) m (.ok i) { m with os := os' } := by
  apply Py.wpm_openAb.mpr
  rw [h]
  exact ⟨rfl, rfl⟩

theorem yields_remove (hl : m.os.locate p = some lp) (hs : m.os.slot lp = some (.file i)) :
    Yields Net.wire.env (Py.remove p) m (.ok ()) { m with os := m.os.removeAt lp } := by
  apply Py.wpm_remove.mpr
  rw [Os.run_unlink_at hl hs]
  exact ⟨rfl, rfl⟩

/-- A missing partial is made. -/
theorem run_openAb_new {os : Os} (hl : os.locate p = some lp) (hs : os.slot lp = none)
    (hc : os.creatable lp = true) : os.run (.openAb p) = (.ok os.store.next, os.createAt lp) := by
  simp [Os.run, Os.openNew, hl, hs, hc]

/-- **What the body is added to**: the old partial, or an empty file where there was none or one that
was too long. Only the partial's own location has been touched. -/
theorem prepare_yields (hl : m.os.locate p = some lp)
    (hc : (∀ c, m.os.content p = some c → fileSize < c.length) → m.os.creatable lp = true)
    (hfile : m.os.at? p ≠ some .subdir) :
    ∃ os₁ i os₂,
      Yields Net.wire.env (resumeOffset p fileSize) m
        (.ok (keptOf fileSize (m.os.content p)).length) { m with os := os₁ } ∧
      os₁.run (.openAb p) = (.ok i, os₂) ∧ os₂.slot lp = some (.file i) ∧
      os₂.store.data i = keptOf fileSize (m.os.content p) ∧
      (∀ q, os₂.locate q = m.os.locate q) ∧ Os.Confined (fun l => l = lp) m.os os₂ := by
  rcases resumeOffset_yields p fileSize m with ⟨hat, -⟩ | ⟨hat, -⟩ | ⟨i, hat, hle, hy⟩ |
    ⟨i, l, hl', hs, hlt, hy⟩ | ⟨hat, hy⟩
  · exact absurd hat hfile
  · exact absurd hat hfile
  · -- the partial that is there
    obtain ⟨l, hl', hs⟩ := Os.at?_eq_some.mp hat
    obtain rfl : lp = l := Option.some.inj (hl.symm.trans hl')
    have hk : keptOf fileSize (m.os.content p) = m.os.store.data i := by
      rw [Os.content, hat, Os.bytesOf, keptOf, if_pos hle]
    rw [hk]
    exact ⟨m.os, i, m.os, hy, Os.run_openAb_file hat, hs, rfl, fun _ => rfl, .refl _ _⟩
  · -- one that is too long goes, and a new one is made
    obtain rfl : lp = l := Option.some.inj (hl.symm.trans hl')
    have hold : m.os.content p = some (m.os.store.data i) := by
      rw [Os.content, Os.at?, hl, Option.bind_some, hs, Os.bytesOf]
    have hk : keptOf fileSize (m.os.content p) = [] := by
      rw [hold, keptOf, if_neg (by omega)]
    have hcreate : m.os.creatable lp = true := by
      refine hc fun c hcontent => ?_
      cases hold.symm.trans hcontent
      exact hlt
    have hnot : ¬ lp <+: m.os.cwd := Os.not_prefix_of_slot (by rw [hs]; simp)
    have hfree : (m.os.removeAt lp).slot lp = none := by rw [Os.removeAt_slot hnot, if_pos rfl]
    have hloc : (m.os.removeAt lp).locate p = some lp := by rw [Os.locate_removeAt hs, hl]
    rw [hk]
    refine ⟨m.os.removeAt lp, _, _, hy, run_openAb_new hloc hfree hcreate, ?_, ?_, ?_, ?_⟩
    · rw [Os.createAt_slot hfree, if_pos rfl]
    · rw [Os.createAt_data, if_pos rfl]
    · intro q
      rw [Os.locate_createAt hfree, Os.locate_removeAt hs]
    · exact (Os.Confined.removeAt (P := fun l => l = lp) rfl hnot).trans (.createAt rfl hfree)
  · -- there is none
    have hfree := Os.at?_eq_none.mp hat lp hl
    have hold : m.os.content p = none := by simp [Os.content, hat, Os.bytesOf]
    have hcreate : m.os.creatable lp = true := by
      refine hc fun c hcontent => ?_
      cases hold.symm.trans hcontent
    rw [hold, keptOf]
    refine ⟨m.os, _, _, hy, run_openAb_new hl hfree hcreate, ?_, ?_, ?_, ?_⟩
    · rw [Os.createAt_slot hfree, if_pos rfl]
    · rw [Os.createAt_data, if_pos rfl]
    · exact fun q => Os.locate_createAt hfree q
    · exact .createAt rfl hfree

/-! ## After the body -/

theorem yields_sha256File (h : m.os.at? p = some (.file i)) :
    Yields Net.wire.env (sha256File p) m (.ok (sha256 (m.os.store.data i))) m :=
  wpm_sha256File h ⟨rfl, rfl⟩

theorem yields_sendError {reason : UInt8} {message : Text}
    (h : (encode message).length < 256 ^ 2) (m : Machine Wire) :
    Yields Net.wire.env (sendError reason message) m (.ok ())
      (m.wired m.net.input
        (m.net.output ++ frameBytes T_ERROR (errorPayload reason message))) := by
  rw [sendError_eq h]
  exact yields_sendall _ m

/-- The message of a CORRUPT reply. -/
def corruptMessage : Text := "content did not match the stated hash".toList

theorem settleUpload_corrupt (hl : m.os.locate p = some lp) (hs : m.os.slot lp = some (.file i))
    (hd : sha256 (m.os.store.data i) ≠ digest) :
    Yields Net.wire.env (settleUpload name p digest) m (.ok ())
      { m with
        os := m.os.removeAt lp
        net := ⟨m.net.input,
          m.net.output ++ frameBytes T_ERROR (errorPayload E_CORRUPT corruptMessage)⟩ } := by
  unfold settleUpload
  refine (yields_sha256File (Os.at?_eq_some.mpr ⟨lp, hl, hs⟩)).bind ?_
  rw [if_pos hd]
  exact (yields_remove hl hs).bind (yields_sendError (encode_short (by decide)) _)

/-- Linking the verified partial to its name, which is free, and removing it. -/
theorem settleUpload_ok (hl : m.os.locate p = some lp) (hs : m.os.slot lp = some (.file i))
    (hn : m.os.locate name = some ln) (hfree : m.os.slot ln = none)
    (hc : m.os.creatable ln = true) (hd : sha256 (m.os.store.data i) = digest) :
    Yields Net.wire.env (settleUpload name p digest) m (.ok ())
      { m with
        os := m.os.published lp ln
        net := ⟨m.net.input, m.net.output ++ okFrame⟩ } := by
  have hat := Os.at?_eq_some.mpr ⟨lp, hl, hs⟩
  have hne : lp ≠ ln := by
    rintro rfl
    rw [hs] at hfree
    cases hfree
  unfold settleUpload
  apply (yields_sha256File hat).bind
  rw [if_neg (not_ne_iff.mpr hd)]
  unfold publish
  -- the look at the first bytes
  have hopen : Yields Net.wire.env (Py.openRb p) m (.ok i) m := by
    apply Py.wpm_openRb.mpr
    simp only [Os.run, hat]
    exact ⟨rfl, rfl⟩
  have hread : Yields Net.wire.env (Py.read i 0 8) m (.ok _) m := Py.wpm_read.mpr ⟨rfl, rfl⟩
  have hlink : Yields Net.wire.env (do Py.link p name; return true) m (.ok true)
      { m with os := m.os.linked lp ln } := by
    have hrun := @yields_fs Exn (.link p name) m
    rw [Os.run_link_at hl hn hs hfree hc] at hrun
    have hlink : Yields Net.wire.env (Py.link p name) m (.ok ()) _ :=
      hrun.bind (Proc.yields_done () _)
    exact hlink.bind (Proc.yields_done true _)
  refine hopen.bind (hread.bind (hlink.tryCatch.bind ?_))
  rw [if_neg (by decide)]
  have hloc : (m.os.linked lp ln).locate p = some lp := by rw [Os.locate_linked hs hfree, hl]
  have hslot : (m.os.linked lp ln).slot lp = some (.file i) := by
    rw [Os.linked_slot hs hfree, if_neg hne, hs]
  exact (yields_remove (m := { m with os := m.os.linked lp ln }) hloc hslot).bind
    (yields_writeFrame (by decide) _)

end Upload

/-! ## The whole upload -/

/-- What the server holds of an upload when it is let in. -/
def PutRequest.kept (req : PutRequest) (os : Os) : Bytes :=
  keptOf req.fileSize (os.content req.partialPath)

/-- How many bytes of the body are still to come. -/
def PutRequest.need (req : PutRequest) (os : Os) : Nat := req.fileSize - (req.kept os).length

/-- The completed content. -/
def PutRequest.complete (req : PutRequest) (os : Os) (stream : Bytes) : Bytes :=
  req.kept os ++ stream.take (req.need os)

/-- The reply to a PUT that is let in, and what is read and left of the stream with it. -/
def PutRequest.answered (req : PutRequest) (m : Machine Wire) (b : Bytes) : Wire :=
  ⟨m.net.input.drop (req.need m.os), m.net.output ++ offerFrame (req.kept m.os).length ++ b⟩

theorem PutRequest.complete_length (req : PutRequest) {os : Os} {stream : Bytes}
    (h : req.need os ≤ stream.length) : (req.complete os stream).length = req.fileSize := by
  have hk : (req.kept os).length ≤ req.fileSize := keptOf_length_le _ _
  rw [complete, List.length_append, List.length_take_of_le h, need]
  omega

/-- How an upload that was let in ends. -/
def PutRequest.Uploads (req : PutRequest) (m : Machine Wire) (r : Except Exn Unit)
    (m' : Machine Wire) : Prop :=
  if m.net.input.length < req.need m.os then
    r = .error (.sys .connectionError) ∧ m'.os.at? req.path = none ∧
      m'.os.content req.partialPath = some (req.kept m.os ++ m.net.input) ∧
      m'.net = req.answered m []
  else if sha256 (req.complete m.os m.net.input) ≠ req.digest then
    r = .ok () ∧ m'.os.at? req.path = none ∧ m'.os.at? req.partialPath = none ∧
      ∃ b, IsErrorFrame E_CORRUPT b ∧ m'.net = req.answered m b
  else
    r = .ok () ∧ m'.os.content req.path = some (req.complete m.os m.net.input) ∧
      (req.complete m.os m.net.input).length = req.fileSize ∧
      m'.os.at? req.partialPath = none ∧ m'.net = req.answered m okFrame

/-- The two paths of an upload. -/
def PutRequest.Paths (req : PutRequest) (os : Os) (l : Loc) : Prop :=
  l = os.cwd ++ [req.path] ∨ l = os.cwd ++ [req.partialPath]

theorem receiveUpload_eq (name p digest : Bytes) (fileSize : Nat) :
    receiveUpload name p fileSize digest = (resumeOffset p fileSize >>= fun offset =>
      Proc.ofExcept (toBytes 8 offset) >>= fun offset8 =>
        writeFrame T_OK offset8 >>= fun _ =>
          Py.openAb p >>= fun out =>
            receiveBody out fileSize (fileSize - offset) offset >>= fun _ =>
              settleUpload name p digest) := rfl

/-- `_receive_upload` up to the last byte of the body. -/
def takeBody (p : Bytes) (fileSize : Nat) : Py Unit :=
  resumeOffset p fileSize >>= fun offset =>
    Proc.ofExcept (toBytes 8 offset) >>= fun offset8 =>
      writeFrame T_OK offset8 >>= fun _ =>
        Py.openAb p >>= fun out => receiveBody out fileSize (fileSize - offset) offset

theorem receiveUpload_eq_takeBody (name p digest : Bytes) (fileSize : Nat) :
    receiveUpload name p fileSize digest =
      (takeBody p fileSize >>= fun _ => settleUpload name p digest) := by
  rw [receiveUpload_eq, takeBody]
  simp only [bind_assoc]

/-- The directory once the body is over, or the client gone: the partial `i` has all that came, and
nothing else has changed. -/
structure PutRequest.Filled (req : PutRequest) (m : Machine Wire) (i : Nat) (os : Os) : Prop where
  slot : os.slot (m.os.cwd ++ [req.partialPath]) = some (.file i)
  free : os.slot (m.os.cwd ++ [req.path]) = none
  data : os.store.data i = req.complete m.os m.net.input
  locate : ∀ q, os.locate q = m.os.locate q
  frame : Os.Confined (req.Paths m.os) m.os os

/-- The machine once the body is over. -/
def PutRequest.after (req : PutRequest) (m : Machine Wire) (os : Os) : Machine Wire :=
  ⟨os, m.inFlight, req.answered m []⟩

theorem takeBody_fills {m : Machine Wire} {req : PutRequest} (hn : Plain req.path)
    (hp : Plain req.partialPath) (hne : req.path ≠ req.partialPath)
    (hsize : req.fileSize ≤ MAX_FILE_SIZE) (hfree : m.os.at? req.path = none)
    (hfile : m.os.at? req.partialPath ≠ some .subdir)
    (hap : (∀ c, m.os.content req.partialPath = some c → req.fileSize < c.length) →
      m.os.accepts req.partialPath = true) :
    ∃ i os, req.Filled m i os ∧ Yields Net.wire.env (takeBody req.partialPath req.fileSize) m
      (if req.need m.os ≤ m.net.input.length then .ok () else .error (.sys .connectionError))
      (req.after m os) := by
  have hmax : MAX_FILE_SIZE < OFF_MAX := by decide
  have hoff : OFF_MAX < 256 ^ 8 := by decide
  have hlp := Os.locate_plain m.os hp
  have hln := Os.locate_plain m.os hn
  have hcp : (∀ c, m.os.content req.partialPath = some c → req.fileSize < c.length) →
      m.os.creatable (m.os.cwd ++ [req.partialPath]) = true := by
    simpa [Os.creatable] using hap
  -- the partial is opened
  obtain ⟨os₁, i, os₂, hres, hopen, hslot, hdata, hloc, hconf⟩ :=
    @prepare_yields m req.partialPath _ req.fileSize hlp hcp hfile
  rw [← PutRequest.kept] at hres hdata
  have hkle : (req.kept m.os).length ≤ req.fileSize := keptOf_length_le _ _
  have hlne : m.os.cwd ++ [req.path] ≠ m.os.cwd ++ [req.partialPath] := by
    intro h
    exact hne (by simpa using h)
  have hroom : (os₂.store.data i).length + (req.fileSize - (req.kept m.os).length) < OFF_MAX := by
    rw [hdata]
    omega
  have htaken : (os₂.store.data i).length + (m.net.input.take (req.need m.os)).length < OFF_MAX := by
    refine lt_of_le_of_lt (Nat.add_le_add_left ?_ _) hroom
    exact List.length_take_le _ _
  -- the body is added to it
  have hbody := receiveBody_yields i req.fileSize (req.fileSize - (req.kept m.os).length)
    (req.kept m.os).length
    ⟨os₂, m.inFlight, ⟨m.net.input, m.net.output ++ offerFrame (req.kept m.os).length⟩⟩
    (by omega) hroom
  refine ⟨i, os₂.extend i (m.net.input.take (req.need m.os)), ⟨?_, ?_, ?_, ?_, ?_⟩, ?_⟩
  · rw [Os.extend_slot, hslot]
  · rw [Os.extend_slot, hconf.slot _ hlne]
    exact Os.at?_eq_none.mp hfree _ hln
  · rw [Os.extend_data htaken, hdata, PutRequest.complete]
  · intro q
    rw [Os.locate_extend, hloc]
  · have hconf' : Os.Confined (req.Paths m.os) m.os os₂ := hconf.mono fun l hl => .inr hl
    exact hconf'.trans (.extend (.inr rfl) hslot _)
  · have hafter : Machine.absorb
        ⟨os₂, m.inFlight, ⟨m.net.input, m.net.output ++ offerFrame (req.kept m.os).length⟩⟩ i
          (req.fileSize - (req.kept m.os).length) =
        req.after m (os₂.extend i (m.net.input.take (req.need m.os))) := by
      rw [PutRequest.after, PutRequest.answered, List.append_nil]
      rfl
    rw [hafter] at hbody
    have hoffer : Yields Net.wire.env (writeFrame T_OK (toBE 8 (req.kept m.os).length))
        { m with os := os₁ } (.ok ())
        ⟨os₁, m.inFlight, ⟨m.net.input, m.net.output ++ offerFrame (req.kept m.os).length⟩⟩ :=
      yields_writeFrame (by simp) _
    have hopened : Yields Net.wire.env (Py.openAb req.partialPath)
        ⟨os₁, m.inFlight, ⟨m.net.input, m.net.output ++ offerFrame (req.kept m.os).length⟩⟩ (.ok i)
        ⟨os₂, m.inFlight, ⟨m.net.input, m.net.output ++ offerFrame (req.kept m.os).length⟩⟩ :=
      yields_openAb hopen
    unfold takeBody
    apply hres.bind
    rw [toBytes_of_lt (show (req.kept m.os).length < 256 ^ 8 by omega), Proc.ofExcept_ok,
      Proc.done_bind]
    apply hoffer.bind
    apply hopened.bind
    exact hbody

theorem PutRequest.Filled.at_partial {req : PutRequest} {m : Machine Wire} {i : Nat} {os : Os}
    (h : req.Filled m i os) (hp : Plain req.partialPath) :
    os.locate req.partialPath = some (m.os.cwd ++ [req.partialPath]) :=
  (h.locate _).trans (Os.locate_plain m.os hp)

/-- **An upload that is let in** changes its two paths at most and ends as `Uploads` says. -/
theorem receiveUpload_yields {m : Machine Wire} {req : PutRequest} (hn : Plain req.path)
    (hp : Plain req.partialPath) (hne : req.path ≠ req.partialPath)
    (hsize : req.fileSize ≤ MAX_FILE_SIZE) (hfree : m.os.at? req.path = none)
    (hfile : m.os.at? req.partialPath ≠ some .subdir)
    (hap : (∀ c, m.os.content req.partialPath = some c → req.fileSize < c.length) →
      m.os.accepts req.partialPath = true)
    (han : req.need m.os ≤ m.net.input.length →
      sha256 (req.complete m.os m.net.input) = req.digest → m.os.accepts req.path = true) :
    ∃ r m', Yields Net.wire.env
        (receiveUpload req.path req.partialPath req.fileSize req.digest) m r m' ∧
      m'.inFlight = m.inFlight ∧ Os.Confined (req.Paths m.os) m.os m'.os ∧ req.Uploads m r m' := by
  obtain ⟨i, os, hfill, hbody⟩ := takeBody_fills hn hp hne hsize hfree hfile hap
  rw [receiveUpload_eq_takeBody]
  have hlne : m.os.cwd ++ [req.path] ≠ m.os.cwd ++ [req.partialPath] := by
    intro h
    exact hne (by simpa using h)
  have hlp := hfill.at_partial hp
  have hln : os.locate req.path = some (m.os.cwd ++ [req.path]) :=
    (hfill.locate _).trans (Os.locate_plain m.os hn)
  have hnot : ¬ m.os.cwd ++ [req.partialPath] <+: os.cwd :=
    Os.not_prefix_of_slot (by rw [hfill.slot]; simp)
  unfold PutRequest.Uploads
  by_cases hshort : m.net.input.length < req.need m.os
  · -- the client has gone
    have htake : m.net.input.take (req.need m.os) = m.net.input :=
      List.take_of_length_le (Nat.le_of_lt hshort)
    rw [if_neg (Nat.not_le.mpr hshort)] at hbody
    refine ⟨_, _, hbody.bind_error, rfl, hfill.frame, ?_⟩
    rw [if_pos hshort]
    refine ⟨rfl, ?_, ?_, rfl⟩
    · show os.at? req.path = none
      rw [Os.at?, hln, Option.bind_some, hfill.free]
    · show os.content req.partialPath = _
      rw [Os.content, Os.at?, hlp, Option.bind_some, hfill.slot, Os.bytesOf, hfill.data,
        PutRequest.complete, htake]
  · have hlong : req.need m.os ≤ m.net.input.length := Nat.le_of_not_lt hshort
    rw [if_pos hlong] at hbody
    by_cases hd : sha256 (req.complete m.os m.net.input) = req.digest
    · -- the name is given to the partial, which then goes
      have hcn : os.creatable (m.os.cwd ++ [req.path]) = true := by
        simpa [Os.creatable, hfill.frame.accepts] using han hlong hd
      have hsettle := hbody.bind (f := fun _ => settleUpload req.path req.partialPath
        req.digest) (settleUpload_ok (m := req.after m os) hlp hfill.slot hln
        hfill.free hcn (by rw [← hd, ← hfill.data]; rfl))
      refine ⟨_, _, hsettle, rfl, ?_, ?_⟩
      · exact hfill.frame.trans (.published (.inr rfl) (.inl rfl) hfill.slot hfill.free)
      · rw [if_neg hshort, if_neg (not_ne_iff.mpr hd)]
        refine ⟨rfl, ?_, req.complete_length hlong, ?_, ?_⟩
        · show (os.published _ _).content req.path = _
          rw [Os.content, Os.at?, Os.locate_published hfill.slot hfill.free, hln, Option.bind_some,
            Os.published_slot hfill.slot hfill.free, if_neg hlne, if_pos rfl, Os.bytesOf,
            Os.published_data, hfill.data]
        · show (os.published _ _).at? req.partialPath = none
          rw [Os.at?, Os.locate_published hfill.slot hfill.free, hlp, Option.bind_some,
            Os.published_slot hfill.slot hfill.free, if_pos rfl]
        · simp [PutRequest.after, PutRequest.answered]
    · have hsettle := hbody.bind (f := fun _ => settleUpload req.path req.partialPath
        req.digest) (@settleUpload_corrupt (req.after m os) req.path
        _ _ _ _ hlp hfill.slot (by rw [← hfill.data] at hd; exact hd))
      refine ⟨_, _, hsettle, rfl, hfill.frame.trans (.removeAt (.inr rfl) hnot), ?_⟩
      rw [if_neg hshort, if_pos hd]
      refine ⟨rfl, ?_, ?_, _, ⟨corruptMessage, encode_short (by decide), rfl⟩, ?_⟩
      · show Os.at? (os.removeAt _) req.path = none
        rw [Os.at?, Os.locate_removeAt hfill.slot, hln, Option.bind_some, Os.removeAt_slot hnot,
          if_neg hlne, hfill.free]
      · show Os.at? (os.removeAt _) req.partialPath = none
        rw [Os.at?, Os.locate_removeAt hfill.slot, hlp, Option.bind_some, Os.removeAt_slot hnot,
          if_pos rfl]
      · simp [PutRequest.after, PutRequest.answered]

/-! ## The handler -/

/-- The request is answered with one ERROR frame, and nothing else happens. -/
def Refuses (reason : UInt8) (m : Machine Wire) (r : Except Exn Unit) (m' : Machine Wire) : Prop :=
  r = .ok () ∧ ∃ b, IsErrorFrame reason b ∧ m' = m.wired m.net.input (m.net.output ++ b)

/-- **How a PUT ends.** `r` is what the handler returns or raises, `m'` the directory, the part of the
stream that has not been read and the replies. -/
def PutEnds (payload : Bytes) (m : Machine Wire) (r : Except Exn Unit) (m' : Machine Wire) : Prop :=
  match parsePut payload with
  | .error e => (∃ message, e = .frameError E_MALFORMED message) ∧ r = .error e ∧ m' = m
  | .ok req =>
    if checkFilename req.name = false then Refuses E_BAD_NAME m r m'
    else if MAX_FILE_SIZE < req.fileSize then Refuses E_TOO_LARGE m r m'
    else if (m.os.at? req.path).isSome then Refuses E_ALREADY_EXISTS m r m'
    else m'.inFlight = m.inFlight ∧ Os.Confined (req.Paths m.os) m.os m'.os ∧ req.Uploads m r m'

theorem refuses_sendError (reason : UInt8) (message : Text)
    (h : (encode message).length < 256 ^ 2) (m : Machine Wire) :
    ∃ r m', Yields Net.wire.env (sendError reason message) m r m' ∧ Refuses reason m r m' :=
  ⟨_, _, yields_sendError h m, rfl, _, ⟨message, h, rfl⟩, rfl⟩

/-- A name and its partial are different paths. -/
theorem PutRequest.path_ne_partial {req : PutRequest} (h : Os.SLASH ∉ req.path) :
    req.path ≠ req.partialPath := by
  intro he
  have hlen := congrArg List.length he
  rw [partialPath, partialName_plain h, partialBase] at hlen
  simp only [List.length_append, List.length_cons, List.length_nil] at hlen
  omega

theorem yields_pathExists (p : Bytes) (m : Machine Wire) :
    Yields Net.wire.env (Py.pathExists p) m (.ok (m.os.at? p).isSome) m := by
  refine Py.wpm_pathExists.mpr ⟨?_, rfl⟩
  rw [Os.statAt]
  split <;> simp_all

/-- The request passes the three checks. -/
structure PutRequest.Admitted (req : PutRequest) (os : Os) : Prop where
  name : checkFilename req.name = true
  size : req.fileSize ≤ MAX_FILE_SIZE
  free : os.at? req.path = none

/-- The filesystem takes both names of an upload. -/
def PutRequest.Takes (req : PutRequest) (os : Os) : Prop :=
  os.accepts req.path = true ∧ os.accepts req.partialPath = true

theorem PutRequest.Admitted.plain {req : PutRequest} {os : Os} (h : req.Admitted os) :
    Plain req.path := by
  have hfree := h.free
  rcases (accepted_of_checkFilename h.name).plain_or_dot with hp | hdot
  · exact hp
  · rw [PutRequest.path, hdot, Os.at?_dot] at hfree
    cases hfree

theorem yields_reserve {p : Bytes} {m : Machine Wire} (h : p ∉ m.inFlight) :
    Yields Net.wire.env (Py.reserve p) m (.ok true)
      { m with inFlight := insert p m.inFlight } := by
  refine Net.call_reserve.mpr ⟨?_, rfl⟩
  rw [decide_eq_true h]

section Handler

variable {m : Machine Wire} {payload : Bytes} {req : PutRequest}

/-- A request that passes the checks is let in, and ends as an upload does. -/
theorem handlePut_admitted (hparse : parsePut payload = .ok req) (hadm : req.Admitted m.os)
    (hlone : req.partialPath ∉ m.inFlight) (hfile : m.os.at? req.partialPath ≠ some .subdir)
    (htakes : req.Takes m.os) :
    ∃ r m', Yields Net.wire.env (handlePut payload) m r m' ∧ m'.inFlight = m.inFlight ∧
      Os.Confined (req.Paths m.os) m.os m'.os ∧ req.Uploads m r m' := by
  have hthere : ¬ (m.os.at? req.path).isSome = true := by simp [hadm.free]
  obtain ⟨r, m', hy, hin, hframe, hup⟩ := receiveUpload_yields
    (m := { m with inFlight := insert req.partialPath m.inFlight }) hadm.plain
    (Plain.partialName hadm.plain.no_slash _) (PutRequest.path_ne_partial hadm.plain.no_slash)
    hadm.size hadm.free hfile (fun _ => htakes.2) fun _ _ => htakes.1
  refine ⟨r, { m' with inFlight := m'.inFlight.erase req.partialPath }, ?_, ?_, hframe, hup⟩
  · unfold handlePut
    simp only [hparse, Proc.ofExcept_ok, Proc.done_bind, hadm.name, Bool.true_eq_false, if_false,
      if_neg (Nat.not_lt.mpr hadm.size)]
    apply (yields_pathExists req.path m).bind
    rw [if_neg hthere]
    apply (yields_reserve hlone).bind
    rw [if_neg (by decide)]
    exact hy.ensure (Py.yields_discard _ _)
  · show m'.inFlight.erase req.partialPath = m.inFlight
    rw [hin]
    exact Finset.erase_insert hlone

/-- A complete body with the right hash is published. -/
theorem handlePut_stores (hparse : parsePut payload = .ok req) (hadm : req.Admitted m.os)
    (hlone : req.partialPath ∉ m.inFlight) (hfile : m.os.at? req.partialPath ≠ some .subdir)
    (htakes : req.Takes m.os) (hlong : req.need m.os ≤ m.net.input.length)
    (hhash : sha256 (req.complete m.os m.net.input) = req.digest) :
    ∃ m', Yields Net.wire.env (handlePut payload) m (.ok ()) m' ∧ m'.inFlight = m.inFlight ∧
      Os.Confined (req.Paths m.os) m.os m'.os ∧
      m'.os.content req.path = some (req.complete m.os m.net.input) ∧
      m'.os.at? req.partialPath = none ∧ m'.net = req.answered m okFrame := by
  obtain ⟨r, m', hy, hin, hframe, hup⟩ := handlePut_admitted hparse hadm hlone hfile htakes
  unfold PutRequest.Uploads at hup
  rw [if_neg (Nat.not_lt.mpr hlong), if_neg (not_ne_iff.mpr hhash)] at hup
  obtain ⟨rfl, hcontent, -, hgone, hnet⟩ := hup
  exact ⟨m', hy, hin, hframe, hcontent, hgone, hnet⟩

theorem handlePut_yields
    (hlone : ∀ req, parsePut payload = .ok req → req.partialPath ∉ m.inFlight)
    (hfile : ∀ req, parsePut payload = .ok req → req.Admitted m.os →
      m.os.at? req.partialPath ≠ some .subdir)
    (htakes : ∀ req, parsePut payload = .ok req → req.Admitted m.os → req.Takes m.os) :
    ∃ r m', Yields Net.wire.env (handlePut payload) m r m' ∧ PutEnds payload m r m' := by
  unfold PutEnds
  cases hp : parsePut payload with
  | error e =>
    refine ⟨_, m, ?_, parsePut_error hp, rfl, rfl⟩
    unfold handlePut
    rw [hp]
    exact Proc.yields_raise e m
  | ok req =>
    by_cases hname : checkFilename req.name = false
    · unfold handlePut
      simp only [hp, Proc.ofExcept_ok, Proc.done_bind, if_pos hname]
      exact refuses_sendError _ _ (encode_short (by decide)) m
    · by_cases hsize : MAX_FILE_SIZE < req.fileSize
      · unfold handlePut
        simp only [hp, Proc.ofExcept_ok, Proc.done_bind, if_neg hname, gt_iff_lt, if_pos hsize]
        exact refuses_sendError _ _ (encode_short (by decide)) m
      · by_cases hthere : (m.os.at? req.path).isSome = true
        · obtain ⟨r, m', hy, hr⟩ := refuses_sendError E_ALREADY_EXISTS
            "file already exists on server".toList (encode_short (by decide)) m
          refine ⟨r, m', ?_, ?_⟩
          · unfold handlePut
            simp only [hp, Proc.ofExcept_ok, Proc.done_bind, if_neg hname, gt_iff_lt, if_neg hsize]
            apply (yields_pathExists req.path m).bind
            rw [if_pos hthere]
            exact hy
          · simp only [if_neg hname, if_neg hsize, if_pos hthere]
            exact hr
        · have hadm : req.Admitted m.os :=
            ⟨by simpa using hname, Nat.le_of_not_lt hsize, by simpa using hthere⟩
          simp only [if_neg hname, if_neg hsize, if_neg hthere]
          exact handlePut_admitted hp hadm (hlone req hp) (hfile req hp hadm) (htakes req hp hadm)

end Handler

/-- **PUT as a state transition.** For every payload, every directory in which the partial of the
request is missing or a regular file, and every stream that follows and ends anywhere, a lone
`handle_put` whose calls succeed ends in exactly one of the ways of `PutEnds`, however the stream is
split over the `recv` calls. -/
theorem put_transition (os : Os) (payload stream : Bytes)
    (hfile : ∀ req, parsePut payload = .ok req → req.Admitted os →
      os.at? req.partialPath ≠ some .subdir)
    (htakes : ∀ req, parsePut payload = .ok req → req.Admitted os → req.Takes os) :
    ∃ r m', Yields Net.wire.env (handlePut payload) ⟨os, ∅, ⟨stream, []⟩⟩ r m' ∧
      PutEnds payload ⟨os, ∅, ⟨stream, []⟩⟩ r m' :=
  handlePut_yields (fun _ _ => Finset.notMem_empty _) hfile htakes

/-- A PUT of two bytes under the name `a`, with a digest that is not theirs. -/
def twoBytes : Bytes := toBE 8 2 ++ List.replicate HASH_SIZE 0 ++ [0, 1, 97]

theorem parsePut_twoBytes :
    parsePut twoBytes = .ok ⟨2, List.replicate HASH_SIZE 0, ['a']⟩ := by decide +kernel

/-- One byte comes, and stays in the partial. -/
theorem put_transition_twoBytes : ∃ r m',
    Yields Net.wire.env (handlePut twoBytes) ⟨Os.empty, ∅, ⟨[98], []⟩⟩ r m' ∧
    PutEnds twoBytes ⟨Os.empty, ∅, ⟨[98], []⟩⟩ r m' := by
  apply put_transition
  · intro req h _
    rw [parsePut_twoBytes] at h
    cases h
    decide +kernel
  · intro req h _
    rw [parsePut_twoBytes] at h
    cases h
    exact ⟨by decide +kernel, by decide +kernel⟩

/-- A directory in which the partial of that PUT holds one byte and has a second name. -/
def sharedPartial : Os :=
  let made := (Os.empty.run (.openAb (partialName (ascii "a") (List.replicate HASH_SIZE 0)))).2
  let written := (made.run (.write 0 [7])).2
  (written.run (.link (partialName (ascii "a") (List.replicate HASH_SIZE 0)) (ascii "x"))).2

/-- The byte that comes is appended to the file, and the second name shows it too. -/
theorem put_shows_elsewhere :
    ¬ ∀ (os : Os) (payload stream : Bytes),
      (∀ req, parsePut payload = .ok req → req.Admitted os → os.at? req.partialPath ≠ some .subdir) →
      (∀ req, parsePut payload = .ok req → req.Admitted os → req.Takes os) →
      ∀ r m', Yields Net.wire.env (handlePut payload) ⟨os, ∅, ⟨stream, []⟩⟩ r m' →
        ∀ req, parsePut payload = .ok req → ∀ q, q ≠ req.path → q ≠ req.partialPath →
          m'.os.content q = os.content q := by
  intro h
  have hfile : ∀ req, parsePut twoBytes = .ok req → req.Admitted sharedPartial →
      sharedPartial.at? req.partialPath ≠ some .subdir := by
    intro req hreq _
    rw [parsePut_twoBytes] at hreq
    cases hreq
    decide +kernel
  have htakes : ∀ req, parsePut twoBytes = .ok req → req.Admitted sharedPartial →
      req.Takes sharedPartial := by
    intro req hreq _
    rw [parsePut_twoBytes] at hreq
    cases hreq
    exact ⟨by decide +kernel, by decide +kernel⟩
  obtain ⟨r, m', hy, -⟩ := @handlePut_yields ⟨sharedPartial, ∅, ⟨[98], []⟩⟩ twoBytes
    (fun _ _ => Finset.notMem_empty _) hfile htakes
  have hsame := h sharedPartial twoBytes [98] hfile htakes r m' hy _ parsePut_twoBytes (ascii "x")
    (by decide +kernel) (by decide +kernel)
  have hm : m' = ((⟨sharedPartial, ∅, ⟨[98], []⟩⟩ : Machine Wire).greedy (handlePut twoBytes)).2 := by
    rw [hy.greedy]
  rw [hm] at hsame
  exact absurd hsame (by decide +kernel)

end Retriever
