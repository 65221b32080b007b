/-
# Retriever.Endings — how a command ends

A command of the Python client comes to its end, or an exception ends it, and of the exception the shell
sees one of four: a problem on the local disk, a refusal, a failure of the connection, a traceback. Which
of these it is, and what is left of the stream, is decided by the disk and by the bytes of the server.
This module says how: for the listing, an upload and a download, on every disk and against every stream.
-/
import Retriever.Intake
import Retriever.Verdicts

namespace Retriever

open Proc (Yields Runs)

/-- What the shell sees of a command that fails. -/
inductive Failure where
  | isLocal
  | refused
  | escaped
  | lost
  deriving DecidableEq, Repr

/-- How a command ends, and what it leaves of the stream. -/
inductive Ending where
  | done (rest : Bytes)
  | failed (why : Failure)
  deriving DecidableEq, Repr

/-- What comes of an exception in a command: `main` does not catch all of them. An exit code that is not
documented tells the shell nothing. -/
def Exn.ending : Exn → Option Ending
  | .exit code _ =>
    if code = EXIT_LOCAL then some (.failed .isLocal)
    else if code = EXIT_SERVER then some (.failed .refused)
    else if code = EXIT_CONN then some (.failed .lost)
    else none
  | .frameError _ _ | .sys _ => some (.failed .lost)
  | .overflowError | .unicodeError => some (.failed .escaped)

/-- The program ends so. -/
def Ends {α : Type} (p : Py α) (m : Machine Wire) (o : Ending) : Prop :=
  p.wp Net.wire.env (fun _ m' => o = .done m'.net.input) (fun e _ => e.ending = some o) m

/-! ## Frames -/

/-- The lengths in the payload of an ERROR fit together. -/
def Framed (payload : Bytes) : Prop :=
  3 ≤ payload.length ∧ payload.length = 3 + ofBE ((payload.drop 1).take 2)

open Classical in
/-- What comes of an ERROR frame. -/
noncomputable def errorEnding (payload : Bytes) : Ending :=
  if Framed payload then .failed (if IsUtf8 (payload.drop 3) then .refused else .escaped) else .failed .lost

/-- What comes of a frame of the server, when an ERROR ends the command. -/
noncomputable def replyEnding (stream : Bytes) (next : Bytes → Bytes → Ending) : Ending :=
  match scanFrame stream with
  | (.error _, _) => .failed .lost
  | (.ok f, rest) => if f.type = T_ERROR then errorEnding f.payload else next f.payload rest

section Frames

variable {m : Machine Wire} {s rest payload : Bytes} {o : Ending}

theorem decodeStrict_ends (bs : Bytes) : (∃ t, decodeStrict bs = .ok t) ∧ IsUtf8 bs ∨
    decodeStrict bs = .error .unicodeError ∧ ¬ IsUtf8 bs := by
  rw [decodeStrict_eq]
  by_cases h : IsUtf8 bs
  · rw [if_pos h]
    exact .inl ⟨⟨_, rfl⟩, h⟩
  · rw [if_neg h]
    exact .inr ⟨rfl, h⟩

/-- What `unpack_error` makes of a payload. -/
theorem unpackError_cases (payload : Bytes) :
    (∃ x, unpackError payload = .ok x) ∧ Framed payload ∧ IsUtf8 (payload.drop 3) ∨
    unpackError payload = .error .unicodeError ∧ Framed payload ∧ ¬ IsUtf8 (payload.drop 3) ∨
    (∃ reason message, unpackError payload = .error (.frameError reason message)) ∧ ¬ Framed payload := by
  by_cases hframed : Framed payload
  · rw [unpackError_eq hframed.2]
    by_cases hutf8 : IsUtf8 (payload.drop 3)
    · rw [if_pos hutf8]
      exact .inl ⟨⟨_, rfl⟩, hframed, hutf8⟩
    · rw [if_neg hutf8]
      exact .inr (.inl ⟨rfl, hframed, hutf8⟩)
  · refine .inr (.inr ⟨unpackError_unequal ?_, hframed⟩)
    by_cases hshort : payload.length < 3
    · exact .inl hshort
    · exact .inr fun hlen => hframed ⟨Nat.le_of_not_lt hshort, hlen⟩

/-- An ERROR frame ends the command. -/
theorem refuse_wp {α : Type} {g : Text → Text} {Q : α → Machine Wire → Prop}
    (ho : o = errorEnding payload) :
    (do let (_, message) ← Proc.ofExcept (unpackError payload)
        fail EXIT_SERVER (g message) : Py α).wp Net.wire.env Q (fun e _ => e.ending = some o) m := by
  rw [ho]
  unfold errorEnding
  rcases unpackError_cases payload with ⟨⟨x, hx⟩, hf, hu⟩ | ⟨hx, hf, hu⟩ | ⟨⟨reason, message, hx⟩, hf⟩
  · rw [hx, if_pos hf, if_pos hu]
    rfl
  · rw [hx, if_pos hf, if_neg hu]
    rfl
  · rw [hx, if_neg hf]
    rfl

/-- What the ending is, when an ERROR frame can be taken apart. -/
theorem errorEnding_iff {P : Ending → Prop} (hlost : ¬ P (.failed .lost)) : P (errorEnding payload) ↔
    Framed payload ∧ (IsUtf8 (payload.drop 3) ∧ P (.failed .refused) ∨
      ¬ IsUtf8 (payload.drop 3) ∧ P (.failed .escaped)) := by
  unfold errorEnding
  by_cases hf : Framed payload
  · by_cases hu : IsUtf8 (payload.drop 3)
    · simp [hf, hu]
    · simp [hf, hu]
  · simp [hf, hlost]

/-- An exit code that tells something is one of the three. -/
theorem Exn.ending_exit {code : Nat} {message : Text} (h : (Exn.exit code message).ending = some o) :
    code = EXIT_LOCAL ∧ o = .failed .isLocal ∨ code = EXIT_SERVER ∧ o = .failed .refused ∨
      code = EXIT_CONN ∧ o = .failed .lost := by
  simp only [Exn.ending] at h
  split at h
  · next hc => exact .inl ⟨hc, (Option.some.inj h).symm⟩
  split at h
  · next hc => exact .inr (.inl ⟨hc, (Option.some.inj h).symm⟩)
  split at h
  · next hc => exact .inr (.inr ⟨hc, (Option.some.inj h).symm⟩)
  · cases h

/-- An exception of the transport. -/
def Exn.OnWire : Exn → Prop
  | .frameError _ _ | .sys _ => True
  | _ => False

theorem Exn.OnWire.ending {e : Exn} (h : e.OnWire) : e.ending = some (.failed .lost) := by
  cases e with
  | frameError reason message => rfl
  | sys e => rfl
  | _ => exact h.elim

theorem parseHeader_onWire {header : Bytes} {e : Exn} (h : parseHeader header = .error e) : e.OnWire := by
  unfold parseHeader at h
  split at h
  · cases h
    trivial
  split at h
  · cases h
    trivial
  split at h
  · cases h
    trivial
  · cases h

/-- Whatever is wrong with a frame is a failure of the connection. -/
theorem scanFrame_onWire {e : Exn} (h : scanFrame s = (.error e, rest)) : e.OnWire := by
  unfold scanFrame at h
  split at h
  · split at h
    · next e' hp =>
      cases h
      exact parseHeader_onWire hp
    · split at h
      · cases h
        trivial
      split at h <;> cases h
      trivial
  · cases h
    trivial

/-- A frame is read: it is wrong, or it is there. -/
theorem readFrame_wp {Q : Frame → Machine Wire → Prop} {E : Exn → Machine Wire → Prop}
    (herr : ∀ e rest, scanFrame m.net.input = (.error e, rest) → E e (m.wired rest m.net.output))
    (hok : ∀ f rest, scanFrame m.net.input = (.ok f, rest) → Q f (m.wired rest m.net.output)) :
    readFrame.wp Net.wire.env Q E m := by
  have hread := readFrame_yields (m := m) m.net.input m.net.output
  rw [Machine.wired_self] at hread
  refine hread.wp (fun f hf => ?_) fun e he => ?_
  · exact hok f _ (Prod.ext hf rfl)
  · exact herr e _ (Prod.ext he rfl)

/-- A frame is read, where an ERROR ends the command. -/
theorem reply_wp {α : Type} {g : Text → Text} {k : Frame → Py α} {Q : α → Machine Wire → Prop}
    {next : Bytes → Bytes → Ending} (ho : o = replyEnding m.net.input next)
    (hk : ∀ f rest, o = next f.payload rest →
      (k f).wp Net.wire.env Q (fun e _ => e.ending = some o) (m.wired rest m.net.output)) :
    (do let f ← readFrame
        if f.type = T_ERROR then do
          let (_, message) ← Proc.ofExcept (unpackError f.payload)
          fail EXIT_SERVER (g message)
        else k f : Py α).wp Net.wire.env Q (fun e _ => e.ending = some o) m := by
  unfold replyEnding at ho
  refine Proc.wp_bind.mpr (readFrame_wp ?_ ?_)
  · intro e rest hs
    rw [hs] at ho
    rw [ho, (scanFrame_onWire hs).ending]
  · intro f rest hs
    rw [hs] at ho
    by_cases ht : f.type = T_ERROR
    · rw [if_pos ht]
      exact refuse_wp (ho.trans (if_pos ht))
    · rw [if_neg ht]
      exact hk f rest (ho.trans (if_neg ht))

/-- What the ending is, unless the connection is lost: the ERROR frame decides, or what comes next. -/
theorem replyEnding_iff {P : Ending → Prop} (hlost : ¬ P (.failed .lost)) {next : Bytes → Bytes → Ending} :
    P (replyEnding s next) ↔
      (∃ f rest, scanFrame s = (.ok f, rest) ∧ f.type = T_ERROR ∧ P (errorEnding f.payload)) ∨
      ∃ f rest, scanFrame s = (.ok f, rest) ∧ f.type ≠ T_ERROR ∧ P (next f.payload rest) := by
  unfold replyEnding
  rcases scanFrame s with ⟨r, rest⟩
  cases r with
  | error e => simp [hlost]
  | ok f =>
    by_cases ht : f.type = T_ERROR
    · simp [ht]
    · simp [ht]

/-- A frame is sent. -/
theorem writeFrame_wp {t : UInt8} {Q : Unit → Machine Wire → Prop} {E : Exn → Machine Wire → Prop}
    (hlen : payload.length < 256 ^ 8)
    (h : Q () (m.wired m.net.input (m.net.output ++ frameBytes t payload))) :
    (writeFrame t payload).wp Net.wire.env Q E m := by
  rw [writeFrame_eq hlen]
  exact (yields_sendall _ m).wp (fun _ _ => h) fun e he => by cases he

end Frames

/-! ## The listing -/

/-- The names of a listing can be decoded. -/
def Legible (payload : Bytes) : Prop := ∀ n ∈ payload.splitOn 0, n ≠ [] → IsUtf8 n

open Classical in
noncomputable def listEnding (stream : Bytes) : Ending :=
  replyEnding stream fun payload rest => if Legible payload then .done rest else .failed .escaped

/-- A list is decoded when each of its members is; the first that is not decides otherwise. -/
theorem mapM_ends {α β : Type} (g : α → Except Exn β) (xs : List α) :
    (∃ ys, xs.mapM g = .ok ys ∧ ∀ x ∈ xs, ∃ y, g x = .ok y) ∨
    ∃ x ∈ xs, ∃ e, g x = .error e ∧ xs.mapM g = .error e := by
  induction xs with
  | nil => exact .inl ⟨[], rfl, fun x hx => absurd hx List.not_mem_nil⟩
  | cons x xs ih =>
    rw [List.mapM_cons]
    cases hx : g x with
    | error e => exact .inr ⟨x, List.mem_cons_self, e, hx, rfl⟩
    | ok y =>
      rcases ih with ⟨ys, hys, hall⟩ | ⟨x', hx', e, he, hxs⟩
      · rw [hys]
        exact .inl ⟨_, rfl, List.forall_mem_cons.mpr ⟨⟨y, hx⟩, hall⟩⟩
      · rw [hxs]
        exact .inr ⟨x', List.mem_cons_of_mem x hx', e, he, rfl⟩

/-- The names of a listing, decoded or not. -/
theorem decodeNames_ends (payload : Bytes) :
    (∃ names, ((payload.splitOn 0).filter (· ≠ [])).mapM decodeStrict = .ok names) ∧ Legible payload ∨
    ((payload.splitOn 0).filter (· ≠ [])).mapM decodeStrict = .error .unicodeError ∧
      ¬ Legible payload := by
  rcases mapM_ends decodeStrict ((payload.splitOn 0).filter (· ≠ [])) with
    ⟨names, hnames, hall⟩ | ⟨n, hn, e, he, hmap⟩
  · refine .inl ⟨⟨names, hnames⟩, fun n hn hne => ?_⟩
    obtain ⟨t, ht⟩ := hall n (List.mem_filter.mpr ⟨hn, decide_eq_true hne⟩)
    rcases decodeStrict_ends n with ⟨-, hutf8⟩ | ⟨herr, -⟩
    · exact hutf8
    · rw [ht] at herr
      cases herr
  · obtain ⟨hmem, hne⟩ := List.mem_filter.mp hn
    rcases decodeStrict_ends n with ⟨⟨t, ht⟩, -⟩ | ⟨herr, hutf8⟩
    · rw [ht] at he
      cases he
    · rw [he] at herr
      cases herr
      exact .inr ⟨hmap, fun hleg => hutf8 (hleg n hmem (of_decide_eq_true hne))⟩

theorem doList_ends (m : Machine Wire) : Ends doList m (listEnding m.net.input) := by
  unfold doList
  refine Proc.wp_bind.mpr (writeFrame_wp (by decide) (reply_wp (g := id) rfl fun f rest ho => ?_))
  rw [ho]
  rcases decodeNames_ends f.payload with ⟨⟨names, hnames⟩, hleg⟩ | ⟨hnames, hleg⟩
  · rw [hnames, if_pos hleg]
    rfl
  · rw [hnames, if_neg hleg]
    rfl

/-! ## An upload -/

/-- A name can be sent. -/
def Sendable (name : Bytes) : Prop := IsUtf8 name ∧ name.length < 2 ^ 16

open Classical in
noncomputable def putEnding (os : Os) (path name stream : Bytes) : Ending :=
  if ∃ i, os.at? path = some (.file i) then
    if Sendable name then
      replyEnding stream fun payload rest =>
        if ofBE (payload.take 8) < OFF_MAX then replyEnding rest fun _ rest' => .done rest'
        else .failed .escaped
    else .failed .escaped
  else .failed .isLocal

theorem putEnding_iff {P : Ending → Prop} {os : Os} {path name s : Bytes} : P (putEnding os path name s) ↔
    (¬ ∃ i, os.at? path = some (.file i)) ∧ P (.failed .isLocal) ∨
    (∃ i, os.at? path = some (.file i)) ∧ (¬ Sendable name ∧ P (.failed .escaped) ∨
      Sendable name ∧ P (replyEnding s fun payload rest =>
        if ofBE (payload.take 8) < OFF_MAX then replyEnding rest fun _ rest' => .done rest'
        else .failed .escaped)) := by
  unfold putEnding
  by_cases hfile : ∃ i, os.at? path = some (.file i)
  · rw [if_pos hfile]
    by_cases hname : Sendable name
    · rw [if_pos hname]
      simp only [hfile, hname, not_true_eq_false, false_and, true_and, false_or]
    · rw [if_neg hname]
      simp only [hfile, hname, not_true_eq_false, not_false_eq_true, false_and, true_and, false_or, or_false]
  · rw [if_neg hfile]
    simp only [hfile, not_false_eq_true, false_and, true_and, or_false]

theorem readReply_wp {m : Machine Wire} {o : Ending} {Q : Bytes → Machine Wire → Prop}
    {next : Bytes → Bytes → Ending} (ho : o = replyEnding m.net.input next)
    (hQ : ∀ payload rest, o = next payload rest → Q payload (m.wired rest m.net.output)) :
    readReply.wp Net.wire.env Q (fun e _ => e.ending = some o) m := by
  unfold readReply
  exact reply_wp (g := id) ho fun f rest hnext => hQ f.payload rest hnext

theorem doPut_ends (m : Machine Wire) (path : Bytes) (remoteName : Option Bytes) :
    Ends (doPut path remoteName) m (putEnding m.os path (putRemote path remoteName) m.net.input) := by
  unfold putEnding
  by_cases hfile : ∃ i, m.os.at? path = some (.file i)
  · obtain ⟨i, hat⟩ := hfile
    rw [if_pos ⟨i, hat⟩]
    by_cases hname : Sendable (putRemote path remoteName)
    · rw [if_pos hname]
      apply doPut_wp Net.wire_sends rfl hat rfl (encodePath_ok_iff.mpr hname.1) hname.2
      refine Proc.wp_bind.mpr (readReply_wp rfl fun payload rest ho => ?_)
      refine answerOffer_wp (m := Machine.wired _ rest _) Net.wire_sends hat rfl (fun hfar => ?_)
        fun hnear => ?_
      · rw [ho, if_neg hfar]
        rfl
      · rw [if_pos hnear] at ho
        refine readReply_wp ho fun payload' rest' ho' => ?_
        exact ho'
    · rw [if_neg hname]
      apply Proc.wp_mono (doPut_unsendable hat rfl hname) (fun _ _ h => h.elim)
      rintro e m' rfl
      split <;> rfl
  · rw [if_neg hfile]
    apply Proc.wp_mono (doPut_no_file hfile) (fun _ _ h => h.elim)
    rintro e m' ⟨message, rfl⟩
    rfl

/-! ## A download, once it is announced -/

/-- The partial can be opened, the body is there and has room, the hash is right, and the partial can be
renamed. -/
def Os.Completes (os : Os) (dest p : Bytes) (start n : Nat) (digest body : Bytes) : Prop :=
  ∃ f os₁, os.openPartial start p = (.ok f, os₁) ∧
    (n ≤ body.length ∧ (os₁.store.data f).length + n < OFF_MAX) ∧
    sha256 (os₁.store.data f ++ body.take n) = digest ∧
    ((os₁.extend f (body.take n)).run (.rename p dest)).1 = .ok ()

section Download

variable {m : Machine Wire} {f : Nat} {os os₁ : Os} {dest p digest : Bytes} {start : Nat}

/-- What could be opened can be opened. -/
theorem Os.openable_of_openPartial (h : os.openPartial start p = (.ok f, os₁)) :
    ∃ lp, os.locate p = some lp ∧ os.Openable lp := by
  have hnew : ∀ g, os.openNew p g = (.ok f, os₁) → ∃ lp, os.locate p = some lp ∧ os.Openable lp := by
    intro g hg
    unfold Os.openNew at hg
    split at hg
    · cases hg
    next l hl =>
    refine ⟨l, hl, ?_⟩
    split at hg
    · next i hi => exact .inr ⟨i, hi⟩
    · cases hg
    · next hnone =>
      split at hg
      · next hc => exact .inl ⟨hnone, hc⟩
      · cases hg
  unfold Os.openPartial at h
  split at h
  · exact hnew _ h
  · exact hnew _ h

/-- A file that is opened for writing is found under its name. -/
theorem Os.openPartial_at? (h : os.openPartial start p = (.ok f, os₁)) (w : Bytes) :
    (os₁.extend f w).at? p = some (.file f) := by
  obtain ⟨lp, hlp, hop⟩ := Os.openable_of_openPartial h
  obtain ⟨os₂, f₂, hopen, hopened⟩ := Os.openPartial_opened hlp hop start
  cases h.symm.trans hopen
  refine Os.at?_eq_some.mpr ⟨lp, ?_, ?_⟩
  · rw [Os.locate_extend, hopened.locate, hlp]
  · rw [Os.extend_slot, hopened.slot]

/-- The whole body is taken only if it is there and has room. -/
theorem saveBody_room {fuel n : Nat} (hfuel : n ≤ fuel) :
    (saveBody f fuel n).wp Net.wire.env
      (fun _ _ => n ≤ m.net.input.length ∧ (m.os.store.data f).length + n < OFF_MAX)
      (fun _ _ => True) m := by
  induction fuel generalizing m n with
  | zero =>
    obtain rfl : n = 0 := by omega
    exact ⟨Nat.zero_le _, m.os.small f⟩
  | succ fuel ih =>
    unfold saveBody
    split
    · next hpos =>
      refine Proc.wp_bind.mpr (Py.wpm_recv.mpr ⟨trivial, fun a w hw => ?_⟩)
      rcases wire_recv_cases (by omega) hw with ⟨hnil, rfl, rfl⟩ | ⟨c, hc, hle, rfl, hin, -⟩
      · trivial
      · have hclen : c.length ≤ n := hle.trans (Nat.min_le_right _ _)
        have hcpos := List.length_pos_iff.mpr hc
        show Proc.wp _ (if c = [] then _ else _) _ _ _
        rw [if_neg hc]
        refine Proc.wp_bind.mpr (Py.wpm_write.mpr ?_)
        by_cases hsmall : (m.os.store.data f).length + c.length < OFF_MAX
        · rw [show m.os.run (.write f c) = (.ok (), m.os.extend f c) from Os.run_write hsmall]
          refine Proc.wp_mono (@ih ⟨m.os.extend f c, m.inFlight, w⟩ (n - c.length) (by omega))
            (fun _ _ h => ?_) fun _ _ h => h
          have hlen := congrArg List.length hin
          have hdata := congrArg List.length (Os.extend_data hsmall)
          rw [List.length_append] at hlen hdata
          obtain ⟨hleft, hroom⟩ := h
          simp only at hleft hroom
          omega
        · have hrun : m.os.run (.write f c) = (.error .osError, m.os) := by
            simp only [Os.run, dif_neg hsmall]
          rw [hrun]
          trivial
    · next hzero =>
      obtain rfl : n = 0 := by omega
      exact ⟨Nat.zero_le _, m.os.small f⟩

theorem verifyDownload_ends {o : Ending} (hat : m.os.at? p = some (.file f))
    (hdone : sha256 (m.os.store.data f) = digest → (m.os.run (.rename p dest)).1 = .ok () →
      o = .done m.net.input)
    (hlost : ¬ (sha256 (m.os.store.data f) = digest ∧ (m.os.run (.rename p dest)).1 = .ok ()) →
      o = .failed .lost) : Ends (verifyDownload dest p digest) m o := by
  unfold verifyDownload
  refine Proc.wp_bind.mpr (wpm_sha256File hat ?_)
  by_cases hhash : sha256 (m.os.store.data f) = digest
  · rw [if_neg (not_not.mpr hhash)]
    apply Py.wpm_replace.mpr
    cases hren : (m.os.run (.rename p dest)).1 with
    | ok u => exact hdone hhash hren
    | error e => exact congrArg some (hlost fun h => by rw [hren] at h; cases h.2).symm
  · rw [if_pos hhash]
    refine Proc.wp_bind.mpr (Py.wpm_remove.mpr ?_)
    have hlost' := hlost fun h => hhash h.1
    cases (m.os.run (.unlink p)).1 with
    | ok u => exact congrArg some hlost'.symm
    | error e => exact congrArg some hlost'.symm

open Classical in
/-- From the opening of the partial on. -/
theorem fetch_ends (total : Nat) :
    Ends (fetchBody p total start >>= fun _ => verifyDownload dest p digest) m
      (if m.os.Completes dest p start (total - start) digest m.net.input then
        .done (m.net.input.drop (total - start)) else .failed .lost) := by
  refine Proc.wp_bind.mpr (fetchBody_wp ?_)
  rcases hopen : m.os.openPartial start p with ⟨r, os₁⟩
  cases r with
  | error e =>
    refine congrArg some (if_neg ?_).symm
    rintro ⟨f, os₂, hopen', -⟩
    cases hopen.symm.trans hopen'
  | ok f =>
    by_cases hroom : total - start ≤ m.net.input.length ∧
        (os₁.store.data f).length + (total - start) < OFF_MAX
    · have hlen : (m.net.input.take (total - start)).length = total - start := by
        rw [List.length_take, Nat.min_eq_left hroom.1]
      have hsave := @saveBody_yields ⟨os₁, m.inFlight, m.net⟩ f (total - start)
        (m.net.input.take (total - start)) (m.net.input.drop (total - start)) (by omega)
        (List.take_append_drop _ _).symm (by rw [hlen]; exact hroom.2)
      rw [hlen] at hsave
      refine hsave.wp (fun _ _ => ?_) fun e he => by cases he
      have hdata := Os.extend_data (show (os₁.store.data f).length +
        (m.net.input.take (total - start)).length < OFF_MAX by rw [hlen]; exact hroom.2)
      refine verifyDownload_ends (Os.openPartial_at? hopen _) (fun hhash hren => ?_) fun hnot => ?_
      · exact if_pos ⟨f, os₁, hopen, hroom, by rw [← hdata]; exact hhash, hren⟩
      · apply if_neg
        rintro ⟨f', os₂, hopen', -, hhash, hren⟩
        cases hopen.symm.trans hopen'
        exact hnot ⟨by rw [hdata]; exact hhash, hren⟩
    · refine Proc.wp_mono (@saveBody_room ⟨os₁, m.inFlight, m.net⟩ f (total - start) (total - start) le_rfl)
        (fun _ _ h => absurd h hroom) fun _ _ _ => ?_
      refine congrArg some (if_neg ?_).symm
      rintro ⟨f', os₂, hopen', hroom', -⟩
      cases hopen.symm.trans hopen'
      exact hroom hroom'

end Download

/-- What Python needs for a download to be completed, once the metadata has been read. -/
def Os.Downloads (os : Os) (dest : Bytes) (existing : Option Bytes) (metadata body : Bytes) : Prop :=
  (os.discardOld (metaStart metadata) existing).1 = .ok () ∧
  (os.discardOld (metaStart metadata) existing).2.Completes dest (partialName dest (metadata.drop 16))
    (metaStart metadata) (metaTotal metadata - metaStart metadata) (metadata.drop 16) body

open Classical in
theorem receiveDownload_ends (m : Machine Wire) (dest : Bytes) (existing : Option Bytes) (metadata : Bytes) :
    Ends (receiveDownload dest existing metadata) m
      (if m.os.Downloads dest existing metadata m.net.input then
        .done (m.net.input.drop (metaTotal metadata - metaStart metadata)) else .failed .lost) := by
  unfold Os.Downloads
  apply receiveDownload_wp
  show Outcome _ _ (m.os.discardOld (metaStart metadata) existing).1
    { m with os := (m.os.discardOld (metaStart metadata) existing).2 }
  rcases m.os.discardOld (metaStart metadata) existing with ⟨r, os₁⟩
  cases r with
  | error e =>
    rw [if_neg (fun h => by cases h.1)]
    rfl
  | ok u =>
    have h := @fetch_ends ⟨os₁, m.inFlight, m.net⟩ dest (partialName dest (metadata.drop 16))
      (metadata.drop 16) (metaStart metadata) (metaTotal metadata)
    simp only [true_and]
    exact Proc.wp_bind.mp h

/-! ## The reply to a GET -/

/-- The stream starts with the header of a frame other than an ERROR, and metadata. -/
def Announced (stream : Bytes) : Prop :=
  HEADER_SIZE + GET_META ≤ stream.length ∧
  ∃ t n, parseHeader (stream.take HEADER_SIZE) = .ok (t, n) ∧ t ≠ T_ERROR

/-- The metadata in the stream. -/
def metaOf (stream : Bytes) : Bytes := (stream.drop HEADER_SIZE).take GET_META

/-- The stream from the body on. -/
def bodyOf (stream : Bytes) : Bytes := (stream.drop HEADER_SIZE).drop GET_META

open Classical in
noncomputable def getReplyEnding (os : Os) (dest : Bytes) (existing : Option Bytes) (stream : Bytes) :
    Ending :=
  if Announced stream then
    if os.Downloads dest existing (metaOf stream) (bodyOf stream) then
      .done ((bodyOf stream).drop (metaTotal (metaOf stream) - metaStart (metaOf stream)))
    else .failed .lost
  else replyEnding stream fun _ _ => .failed .lost

section GetReply

variable {m : Machine Wire} {s : Bytes}

/-- A stream that does not start with an ERROR frame. -/
theorem replyEnding_lost (h : ∀ f rest, scanFrame s = (.ok f, rest) → f.type ≠ T_ERROR) :
    replyEnding s (fun _ _ => .failed .lost) = .failed .lost := by
  unfold replyEnding
  rcases hs : scanFrame s with ⟨r, rest⟩
  cases r with
  | error e => rfl
  | ok f => exact if_neg (h f rest hs)

/-- The type of a frame is the one in its header. -/
theorem scanFrame_header {f : Frame} {rest : Bytes} (h : scanFrame s = (.ok f, rest)) :
    HEADER_SIZE ≤ s.length ∧ ∃ n, parseHeader (s.take HEADER_SIZE) = .ok (f.type, n) := by
  unfold scanFrame at h
  split at h
  · next hl =>
    refine ⟨hl, ?_⟩
    split at h
    · cases h
    · next t n hp =>
      split at h
      · cases h
      split at h
      · cases h
        exact ⟨n, hp⟩
      · cases h
  · cases h

/-- A reply that announces a file is no ERROR. -/
theorem Announced.not_error {rest : Bytes} {f : Frame} (h : Announced s)
    (hs : scanFrame s = (.ok f, rest)) : f.type ≠ T_ERROR := by
  obtain ⟨-, t, n, hp, ht⟩ := h
  obtain ⟨-, n', hp'⟩ := scanFrame_header hs
  cases hp.symm.trans hp'
  exact ht

theorem getReplyEnding_iff {P : Ending → Prop} (hlost : ¬ P (.failed .lost)) {os : Os} {dest : Bytes}
    {existing : Option Bytes} : P (getReplyEnding os dest existing s) ↔
      Announced s ∧ os.Downloads dest existing (metaOf s) (bodyOf s) ∧
        P (.done ((bodyOf s).drop (metaTotal (metaOf s) - metaStart (metaOf s)))) ∨
      ∃ f rest, scanFrame s = (.ok f, rest) ∧ f.type = T_ERROR ∧ P (errorEnding f.payload) := by
  unfold getReplyEnding
  by_cases hann : Announced s
  · rw [if_pos hann]
    have hno : ¬ ∃ f rest, scanFrame s = (.ok f, rest) ∧ f.type = T_ERROR ∧ P (errorEnding f.payload) := by
      rintro ⟨f, rest, hs, ht, -⟩
      exact hann.not_error hs ht
    by_cases hd : os.Downloads dest existing (metaOf s) (bodyOf s)
    · rw [if_pos hd]
      simp only [hann, hd, hno, true_and, or_false]
    · rw [if_neg hd]
      simp only [hd, hno, hlost, false_and, and_false, or_false]
  · rw [if_neg hann]
    apply (replyEnding_iff hlost).trans
    simp only [hann, hlost, false_and, false_or, and_false, exists_false, or_false]

/-- What is no frame is no ERROR frame. -/
theorem replyEnding_lost_of_header {t : UInt8} {n : Nat} (hp : parseHeader (s.take HEADER_SIZE) = .ok (t, n))
    (ht : t ≠ T_ERROR) : replyEnding s (fun _ _ => .failed .lost) = .failed .lost := by
  refine replyEnding_lost fun f rest hs => ?_
  obtain ⟨-, n', hp'⟩ := scanFrame_header hs
  cases hp.symm.trans hp'
  exact ht

/-- The ERROR that answers a GET. -/
theorem readErrorPayload_ends {n : Nat} (hl : HEADER_SIZE ≤ s.length)
    (hp : parseHeader (s.take HEADER_SIZE) = .ok (T_ERROR, n)) (hin : m.net.input = s.drop HEADER_SIZE) :
    Ends (do let (_, message) ← readErrorPayload n
             fail EXIT_SERVER message : Py Unit) m (replyEnding s fun _ _ => .failed .lost) := by
  have hscan : scanFrame s = _ := if_pos hl
  rw [hp] at hscan
  unfold readErrorPayload
  by_cases hcap : n > (payloadCaps T_ERROR).getD 0
  · rw [if_pos hcap]
    simp only [if_pos hcap] at hscan
    unfold replyEnding
    rw [hscan]
    rfl
  rw [if_neg hcap]
  have hread := readExactBytes_yields (m := m) n m.net.input m.net.output
  rw [Machine.wired_self, hin] at hread
  simp only [if_neg hcap] at hscan
  refine Proc.wp_bind.mpr (Proc.wp_bind.mpr ?_)
  unfold replyEnding
  by_cases hlen : n ≤ (s.drop HEADER_SIZE).length
  · rw [if_pos hlen] at hread hscan
    rw [hscan]
    refine hread.wp (fun payload hpayload => ?_) fun e he => by cases he
    cases hpayload
    exact Proc.wp_bind.mp (refuse_wp (g := id) (if_pos rfl))
  · rw [if_neg hlen] at hread hscan
    rw [hscan]
    refine hread.wp (fun payload hpayload => by cases hpayload) fun e he => ?_
    cases he
    rfl

theorem receiveGetReply_ends (dest : Bytes) (existing : Option Bytes) :
    Ends (receiveGetReply dest existing) m (getReplyEnding m.os dest existing m.net.input) := by
  unfold receiveGetReply getReplyEnding
  have hread := readFrameHeader_yields (m := m) m.net.input m.net.output
  rw [Machine.wired_self] at hread
  by_cases hl : HEADER_SIZE ≤ m.net.input.length
  · rw [if_pos hl] at hread
    refine Proc.wp_bind.mpr (hread.wp ?_ ?_)
    · rintro ⟨t, n⟩ hp
      by_cases ht : t = T_ERROR
      · simp only [if_pos ht]
        rw [if_neg (by rintro ⟨-, t', n', hp', ht'⟩; cases hp.symm.trans hp'; exact ht' ht)]
        subst ht
        exact readErrorPayload_ends hl hp rfl
      · simp only [if_neg ht]
        have hmeta := readExactBytes_yields (m := m) GET_META (m.net.input.drop HEADER_SIZE) m.net.output
        apply Proc.wp_bind.mpr
        by_cases hlong : GET_META ≤ (m.net.input.drop HEADER_SIZE).length
        · have hann : Announced m.net.input := by
            refine ⟨?_, t, n, hp, ht⟩
            rw [List.length_drop] at hlong
            omega
          rw [if_pos hlong] at hmeta
          rw [if_pos hann]
          refine hmeta.wp (fun metadata hmd => ?_) fun e he => by cases he
          cases hmd
          exact receiveDownload_ends (m.wired (bodyOf m.net.input) m.net.output) dest existing
            (metaOf m.net.input)
        · have hann : ¬ Announced m.net.input := by
            rintro ⟨hlen, -⟩
            rw [List.length_drop] at hlong
            omega
          rw [if_neg hlong] at hmeta
          rw [if_neg hann, replyEnding_lost_of_header hp ht]
          refine hmeta.wp (fun metadata hmd => by cases hmd) fun e he => ?_
          cases he
          rfl
    · intro e he
      rw [if_neg (by rintro ⟨-, t', n', hp', -⟩; cases he.symm.trans hp'), (parseHeader_onWire he).ending]
      refine congrArg some (replyEnding_lost fun f rest hs => ?_).symm
      obtain ⟨-, n', hp'⟩ := scanFrame_header hs
      cases he.symm.trans hp'
  · rw [if_neg hl] at hread
    rw [if_neg (by rintro ⟨hlen, -⟩; omega)]
    refine Proc.wp_bind.mpr (hread.wp (fun tn htn => by cases htn) fun e he => ?_)
    cases he
    exact congrArg some (replyEnding_lost fun f rest hs => absurd (scanFrame_header hs).1 hl).symm

end GetReply

/-! ## A download -/

/-- The partial that Python finds for a destination. -/
def Os.leftover (os : Os) (dest : Bytes) : Option Bytes :=
  match (findPartial dest).eval os.ask with
  | .ok existing => existing
  | .error _ => none

open Classical in
noncomputable def getEnding (os : Os) (filename dest stream : Bytes) : Ending :=
  if os.at? dest = none then
    if ∃ q, os.leftover dest = some q ∧ os.at? q = none then .failed .lost
    else if Sendable filename then getReplyEnding os dest (os.leftover dest) stream
    else .failed .escaped
  else .failed .isLocal

section Get

variable {m : Machine Wire} {os : Os} {dest filename : Bytes}

theorem getEnding_iff {P : Ending → Prop} (hlost : ¬ P (.failed .lost)) {s : Bytes} :
    P (getEnding os filename dest s) ↔
      os.at? dest ≠ none ∧ P (.failed .isLocal) ∨
      os.at? dest = none ∧ (∀ q, os.leftover dest = some q → os.at? q ≠ none) ∧
        (¬ Sendable filename ∧ P (.failed .escaped) ∨
          Sendable filename ∧ P (getReplyEnding os dest (os.leftover dest) s)) := by
  unfold getEnding
  by_cases hfree : os.at? dest = none
  · rw [if_pos hfree]
    by_cases hold : ∃ q, os.leftover dest = some q ∧ os.at? q = none
    · rw [if_pos hold]
      obtain ⟨q, hq, hgone⟩ := hold
      apply iff_of_false hlost
      rintro (⟨h, -⟩ | ⟨-, h, -⟩)
      · exact h hfree
      · exact h q hq hgone
    · have hold' : ∀ q, os.leftover dest = some q → os.at? q ≠ none :=
        fun q hq hgone => hold ⟨q, hq, hgone⟩
      rw [if_neg hold]
      by_cases hname : Sendable filename
      · rw [if_pos hname]
        exact ⟨fun h => .inr ⟨hfree, hold', .inr ⟨hname, h⟩⟩, fun h => by
          rcases h with ⟨h, -⟩ | ⟨-, -, ⟨h, -⟩ | ⟨-, h⟩⟩
          · exact absurd hfree h
          · exact absurd hname h
          · exact h⟩
      · rw [if_neg hname]
        exact ⟨fun h => .inr ⟨hfree, hold', .inl ⟨hname, h⟩⟩, fun h => by
          rcases h with ⟨h, -⟩ | ⟨-, -, ⟨-, h⟩ | ⟨h, -⟩⟩
          · exact absurd hfree h
          · exact h
          · exact absurd h hname⟩
  · rw [if_neg hfree]
    simp only [hfree, ne_eq, not_false_eq_true, true_and, false_and, or_false]

theorem Os.leftover_eval (os : Os) (dest : Bytes) :
    (findPartial dest).eval os.ask = .ok (os.leftover dest) := by
  obtain ⟨found, h⟩ := findPartial_eval os dest
  unfold Os.leftover
  rw [h]

theorem Os.statAt_eq_none {p : Bytes} : os.statAt p = none ↔ os.at? p = none := by
  unfold Os.statAt
  cases os.at? p with
  | none => exact iff_of_true rfl rfl
  | some sl => cases sl <;> exact iff_of_false (by simp) (by simp)

theorem Os.statAt_size {p : Bytes} {st : Stat} (h : os.statAt p = some st) : st.size < OFF_MAX := by
  unfold Os.statAt at h
  split at h
  · next i _ =>
    cases h
    exact os.small i
  · cases h
    exact os.dirSmall
  · cases h

theorem partialToken_length {path token : Bytes} (h : partialToken path = some token) :
    token.length = TOKEN_SIZE := by
  unfold partialToken at h
  simp only at h
  split at h
  · cases h
  split at h
  · cases h
  split at h
  · next hlen =>
    cases h
    exact hlen
  · cases h

/-- What is offered, when the old partial can be looked at. -/
theorem offerOf_wp {existing : Option Bytes} (hold : ¬ ∃ q, existing = some q ∧ m.os.at? q = none)
    {Q : Nat × Bytes → Machine Wire → Prop} {E : Exn → Machine Wire → Prop}
    (hQ : ∀ offset token, offset < OFF_MAX → token.length = TOKEN_SIZE → Q (offset, token) m) :
    (offerOf existing).wp Net.wire.env Q E m := by
  cases existing with
  | none => exact hQ 0 noToken (by decide) (by decide)
  | some q =>
    cases hst : m.os.statAt q with
    | none => exact absurd ⟨q, rfl, Os.statAt_eq_none.mp hst⟩ hold
    | some st =>
      refine Proc.wp_bind.mpr ((Py.wpm_getsize hst).mpr (hQ _ _ (Os.statAt_size hst) ?_))
      cases ht : partialToken q with
      | none => rfl
      | some token => exact partialToken_length ht

theorem packGet_error {offset : Nat} {token : Bytes} (ho : offset < 256 ^ 8) (hname : ¬ Sendable filename) :
    packGet offset token filename =
      .error (if IsUtf8 filename then .overflowError else .unicodeError) :=
  pack_error (fun offset8 len2 nameBytes => offset8 ++ token ++ len2 ++ nameBytes) ho hname

/-- An old partial that cannot be looked at. -/
theorem offerOf_gone {q : Bytes} (hgone : m.os.at? q = none) {Q : Nat × Bytes → Machine Wire → Prop}
    {E : Exn → Machine Wire → Prop} (hE : E (.sys .osError) m) :
    (offerOf (some q)).wp Net.wire.env Q E m := by
  refine Proc.wp_bind.mpr (Proc.wp_bind.mpr (Py.wpm_stat.mpr ?_))
  rw [Os.statAt_none hgone]
  exact hE

theorem doGet_ends (m : Machine Wire) (filename : Bytes) (output : Option Bytes) :
    Ends (doGet filename output) m (getEnding m.os filename (getDest filename output) m.net.input) := by
  unfold doGet getEnding
  refine Proc.wp_bind.mpr (Py.wpm_pathExists.mpr ?_)
  by_cases hfree : m.os.at? (getDest filename output) = none
  · rw [if_pos hfree, Os.statAt_none hfree, if_neg (by decide)]
    have hlook := @Net.yields_eval Wire Net.wire m _ _ (fun _ => True) _
      (findPartial_uses (getDest filename output))
    rw [Os.leftover_eval] at hlook
    refine Proc.wp_bind.mpr (hlook.wp (fun existing hex => ?_) fun e he => by cases he)
    cases hex
    apply Proc.wp_bind.mpr
    by_cases hold : ∃ q, m.os.leftover (getDest filename output) = some q ∧ m.os.at? q = none
    · obtain ⟨q, hq, hgone⟩ := hold
      rw [if_pos ⟨q, hq, hgone⟩, hq]
      exact offerOf_gone hgone rfl
    · rw [if_neg hold]
      refine offerOf_wp hold fun offset token ho ht => ?_
      have ho8 : offset < 256 ^ 8 := ho.trans (by decide)
      simp only
      by_cases hname : Sendable filename
      · have hlen : (getPayload offset token filename).length < 256 ^ 8 := by
          have h16 := hname.2
          rw [getPayload_length ht, show GET_PREFIX = 18 from rfl]
          omega
        rw [if_pos hname, packGet_eq (encodePath_ok_iff.mpr hname.1) ho8 hname.2, Proc.ofExcept_ok,
          Proc.done_bind]
        generalize getPayload offset token filename = payload at hlen
        refine Proc.wp_bind.mpr (writeFrame_wp hlen ?_)
        exact receiveGetReply_ends (m := m.wired m.net.input _) _ _
      · rw [if_neg hname, packGet_error ho8 hname]
        show Exn.ending (if IsUtf8 filename then .overflowError else .unicodeError) = _
        split <;> rfl
  · rw [if_neg hfree, if_pos (by rw [Option.isSome_iff_ne_none]; exact mt Os.statAt_eq_none.mp hfree)]
    rfl

end Get

end Retriever
