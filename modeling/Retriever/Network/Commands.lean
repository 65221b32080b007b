/-
# Retriever.Network.Commands — what a command that has ended well has received and sent

On a wire, the exit status 0 tells what the stream of the server began with: this is the contract of
`Retriever.Statuses`, up to the goodbye of the C client. It also tells what the client has sent, since what
is on the wire stays there.
-/
import Retriever.Network.Course

namespace Retriever

open Proc (Reaches)

/-! ## On a wire -/

section Wire

variable {ε α : Type} {m : Machine Wire}

/-- What has been sent stays sent. -/
theorem wire_grows (p : Proc Sys Sys.Ans ε α) (m : Machine Wire) : p.wp Net.wire.env
    (fun _ m' => m.net.output <+: m'.net.output) (fun _ m' => m.net.output <+: m'.net.output) m := by
  induction p generalizing m with
  | done a => exact List.prefix_rfl
  | raise e => exact List.prefix_rfl
  | call o k ih =>
    have hstep : ∀ a m', Net.wire.env.gives m o a m' → m.net.output <+: m'.net.output := by
      intro a m' ha
      cases o with
      | recv n =>
        obtain ⟨w, ⟨c, -, -, -, -, hout⟩, rfl⟩ := ha
        rw [hout]
      | send b =>
        obtain ⟨w, ⟨-, rfl⟩, rfl⟩ := ha
        exact List.prefix_append _ _
      | fs o =>
        obtain ⟨-, rfl⟩ := ha
        exact List.prefix_rfl
      | reserve p =>
        obtain ⟨-, rfl⟩ := ha
        exact List.prefix_rfl
      | discard p =>
        obtain rfl : m' = _ := ha
        exact List.prefix_rfl
    refine ⟨by cases o <;> trivial, fun a m' ha => ?_⟩
    have hsub := hstep a m' ha
    exact Proc.wp_mono (ih a m') (fun _ _ h => hsub.trans h) fun _ _ h => hsub.trans h

/-- The exit status of the C client is known before its goodbye. -/
theorem C.attempt_exits (m : Machine Wire) (command : Command) : (C.attempt command).wp Net.wire.env
    (fun status _ => C.Exits m.os command m.net.input status) (fun _ _ => False) m := by
  unfold C.attempt
  refine Proc.wp_bind.mpr (C.doHello_wp ?_ ?_)
  · intro f rest output hf
    rw [if_neg (by decide)]
    refine Proc.wp_bind.mpr (Proc.wp_mono (C.runCommand_completes _ command) ?_ fun _ _ h => h)
    intro ok m' hok
    cases ok with
    | false => exact .inr ⟨f, rest, hf, .inr ⟨mt hok.mpr Bool.false_ne_true, rfl⟩⟩
    | true => exact .inr ⟨f, rest, hf, .inl ⟨hok.mp rfl, rfl⟩⟩
  · intro m' hnone
    exact .inl ⟨hnone, rfl⟩

end Wire

section Comes

variable {c : Client} {m : Machine Lines} {got sent : Bytes}

theorem Client.Comes.wp {status : Nat} (h : c.Comes (.done status) m got sent)
    {Q : Nat → Machine Wire → Prop}
    (hwp : c.core.wp Net.wire.env Q (fun _ _ => True) ⟨c.os, ∅, ⟨got, []⟩⟩) :
    Q status ⟨m.os, m.inFlight, ⟨[], sent⟩⟩ := by
  have hreach := h []
  rw [List.append_nil] at hreach
  exact hreach.wp hwp

/-- What the Python client makes sure of on a wire, it has made sure of when it has ended with 0. -/
theorem Client.Comes.main (h : c.Comes (.done 0) m got sent) (hc : c.impl = .python)
    {Q : Machine Wire → Prop}
    (hwp : (main c.command).wp Net.wire.env (fun _ => Q) (fun _ _ => True) ⟨c.os, ∅, ⟨got, []⟩⟩) :
    Q ⟨m.os, m.inFlight, ⟨[], sent⟩⟩ := by
  have hcore : c.core = (Retriever.main c.command).andThen fun r => .done (exitStatus r) := by
    unfold Client.core
    rw [hc]
  refine h.wp (Q := fun status m' => status = 0 → Q m') ?_ rfl
  rw [hcore]
  refine Proc.wp_andThen.mpr (Proc.wp_mono ((Upset.main c.command).wp hwp) ?_ ?_)
  · exact fun _ _ h _ => h
  · exact fun e _ he h => absurd h he

theorem Client.Comes.attempt (h : c.Comes (.done 0) m got sent) (hc : c.impl = .c)
    {Q : Machine Wire → Prop}
    (hwp : (C.attempt c.command).wp Net.wire.env (fun status m' => status = 0 → Q m') (fun _ _ => True)
      ⟨c.os, ∅, ⟨got, []⟩⟩) : Q ⟨m.os, m.inFlight, ⟨[], sent⟩⟩ := by
  refine h.wp (Q := fun status m' => status = 0 → Q m') ?_ rfl
  unfold Client.core
  rw [hc]
  exact hwp

/-- What the stream began with. -/
theorem Client.Comes.finishes (h : c.Comes (.done 0) m got sent) (hc : c.impl = .python) :
    ∃ f rest, scanFrame got = (.ok f, rest) ∧ Finishes c.os c.command rest := by
  have hexits : Exits c.os c.command got 0 :=
    h.main (Q := fun _ => Exits c.os c.command got 0) hc
      (Proc.wp_mono (main_exits _ c.command) (fun _ _ h => h) fun _ _ _ => trivial)
  rcases hexits with ⟨-, h1⟩ | ⟨f, rest, hs, -, hstatus⟩
  · cases h1
  · exact ⟨f, rest, hs, (Command.ending_finished _).mp (Ending.status_eq_zero.mp hstatus.symm)⟩

theorem Client.Comes.completes (h : c.Comes (.done 0) m got sent) (hc : c.impl = .c) :
    ∃ f rest, Granted got f rest ∧ C.Completes c.os c.command rest := by
  have hexits : C.Exits c.os c.command got 0 := by
    refine h.attempt (Q := fun _ => C.Exits c.os c.command got 0) hc
      (Proc.wp_mono (C.attempt_exits _ c.command) ?_ fun _ _ _ => trivial)
    rintro status _ h rfl
    exact h
  rcases hexits with ⟨-, h3⟩ | ⟨f, rest, hf, ⟨hc, -⟩ | ⟨-, h1⟩⟩
  · cases h3
  · exact ⟨f, rest, hf, hc⟩
  · cases h1

end Comes

/-! ## What has been received -/

/-- The stream begins with frames that are no ERRORs, one for each reply after the greeting's. -/
def TwiceAnswered (stream : Bytes) : Prop :=
  ∃ f₀ f₁ f₂ : Frame, ∃ more, f₀.payload.length < 256 ^ 8 ∧ f₁.payload.length < 256 ^ 8 ∧
    f₂.payload.length < 256 ^ 8 ∧ f₁.type ≠ T_ERROR ∧ f₂.type ≠ T_ERROR ∧
    stream = frameBytes f₀.type f₀.payload ++ (frameBytes f₁.type f₁.payload ++
      (frameBytes f₂.type f₂.payload ++ more))

theorem scanFrame_splits {s rest : Bytes} {f : Frame} (h : scanFrame s = (.ok f, rest)) :
    f.payload.length < 256 ^ 8 ∧ s = frameBytes f.type f.payload ++ rest := by
  have hfront := scanFrame_front (congrArg Prod.fst h)
  rw [h] at hfront
  exact ⟨hfront.2, hfront.1⟩

theorem answered_of_scan {s s₁ s₂ s₃ : Bytes} {f₀ f₁ f₂ : Frame} (h₀ : scanFrame s = (.ok f₀, s₁))
    (h₁ : scanFrame s₁ = (.ok f₁, s₂)) (h₂ : scanFrame s₂ = (.ok f₂, s₃)) (ht₁ : f₁.type ≠ T_ERROR)
    (ht₂ : f₂.type ≠ T_ERROR) : TwiceAnswered s := by
  obtain ⟨hl₀, rfl⟩ := scanFrame_splits h₀
  obtain ⟨hl₁, rfl⟩ := scanFrame_splits h₁
  obtain ⟨hl₂, rfl⟩ := scanFrame_splits h₂
  exact ⟨f₀, f₁, f₂, s₃, hl₀, hl₁, hl₂, ht₁, ht₂, rfl⟩

/-! ## Uploads -/

/-- The name under which a client uploads. -/
def Client.remote (c : Client) (path : Bytes) (other : Option Bytes) : Bytes :=
  match c.impl with
  | .python => putRemote path other
  | .c => other.getD (C.basenameOf path)

/-- **An upload that has ended with 0**: there was a file, the name could be sent, the server has answered
twice, and the request has gone out. -/
structure Client.Put (c : Client) (path : Bytes) (other : Option Bytes) (body got sent : Bytes) : Prop where
  file : c.os.content path = some body
  short : (c.remote path other).length < 256 ^ 2
  answered : TwiceAnswered got
  asked : frameBytes T_HELLO [] ++ putBytes body (c.remote path other) <+: sent

section Put

variable {c : Client} {m : Machine Lines} {got sent path : Bytes} {other : Option Bytes}

/-- Both clients begin with a greeting, and Python ends with a goodbye. -/
theorem main_greets {os : Os} {command : Command} {stream : Bytes} {Q : Machine Wire → Prop}
    (h : ∀ f rest, scanFrame stream = (.ok f, rest) → command.run.wp Net.wire.env
      (fun _ m => ∀ input more, Q (m.wired input (m.net.output ++ more))) (fun _ _ => True)
      ⟨os, ∅, ⟨rest, frameBytes T_HELLO []⟩⟩) :
    (main command).wp Net.wire.env (fun _ => Q) (fun _ _ => True) ⟨os, ∅, ⟨stream, []⟩⟩ := by
  have hhandle : ∀ e m, (handle e).wp Net.wire.env (fun _ => Q) (fun _ _ => True) m := by
    intro e m
    unfold handle
    split <;> trivial
  rw [main_eq]
  refine Proc.wp_bind.mpr (Proc.wp_bind.mpr (writeFrame_wp (by decide) (Proc.wp_bind.mpr
    (readFrame_wp (fun _ _ _ => trivial) fun f rest hs => ?_))))
  split
  · exact Proc.wp_mono (refuse_status (Q := fun _ _ => False)) (fun _ _ h => h.elim) fun _ _ _ => trivial
  · refine Proc.wp_tryCatch.mpr (Proc.wp_bind.mpr (Proc.wp_mono (h f rest hs) ?_ fun e m _ => hhandle e m))
    intro _ m hm
    refine Proc.wp_bind.mpr (writeFrame_wp (by decide) (Proc.wp_bind.mpr (readFrame_wp ?_ ?_)))
    · exact fun e _ _ => hhandle e _
    · exact fun f rest _ => hm rest (frameBytes T_QUIT [])

/-- The line that closes a transfer changes nothing. -/
theorem printDone_wp {p : Py Unit} {a b : Bytes} {m : Machine Wire} {Q : Machine Wire → Prop}
    (h : p.wp Net.wire.env (fun _ => Q) (fun _ _ => True) m) :
    (do p; printDone a b).wp Net.wire.env (fun _ => Q) (fun _ _ => True) m := by
  refine Proc.wp_bind.mpr (Proc.wp_mono h (fun _ m' hm => ?_) fun _ _ h => h)
  unfold printDone
  cases encodePath a with
  | error e => trivial
  | ok _ =>
    cases encodePath b with
    | error e => trivial
    | ok _ => exact hm

theorem C.attempt_greets {os : Os} {command : Command} {stream : Bytes} {Q : Machine Wire → Prop}
    (h : ∀ f rest, Granted stream f rest → (C.runCommand command).wp Net.wire.env
      (fun ok m => ok = true → Q m) (fun _ _ => True) ⟨os, ∅, ⟨rest, frameBytes T_HELLO []⟩⟩) :
    (C.attempt command).wp Net.wire.env (fun status m => status = 0 → Q m) (fun _ _ => True)
      ⟨os, ∅, ⟨stream, []⟩⟩ := by
  have hno : ∀ m, EXIT_CONN = 0 → Q m := fun m h => by cases h
  refine Proc.wp_bind.mpr (Proc.wp_bind.mpr (C.writeFrame_wp ?_))
  rw [if_neg (by decide)]
  refine Proc.wp_bind.mpr (C.readFrame_wp ?_ ?_)
  · intro f rest hf
    simp only
    rw [if_neg (by rw [hf.2]; decide), if_neg (not_not.mpr hf.2)]
    refine Proc.wp_bind.mpr (Proc.wp_mono (h f rest hf) ?_ fun _ _ h => h)
    intro ok m hok
    cases ok with
    | false => exact fun h => by cases h
    | true => exact fun _ => hok rfl
  · intro r m' _ hr
    cases r with
    | none => exact hno m'
    | some f =>
      simp only
      split
      · exact hno m'
      rw [if_pos (hr f rfl)]
      exact hno m'

theorem Os.content_of_at {os : Os} {p : Bytes} {i : Nat} (h : os.at? p = some (.file i)) :
    os.content p = some (os.store.data i) := by
  unfold Os.content
  rw [h]
  rfl

/-- **An upload that has ended with 0.** -/
theorem Client.Comes.put (h : c.Comes (.done 0) m got sent) (hc : c.command = .put path other) :
    ∃ body, c.Put path other body got sent := by
  obtain ⟨impl, command, os⟩ := c
  obtain rfl : command = .put path other := hc
  cases impl with
  | python =>
    obtain ⟨f, rest, hs, ⟨⟨i, hat⟩, hname, f₁, s₁, hs₁, ht₁, -, f₂, s₂, hs₂, ht₂, -⟩, -⟩ := h.finishes rfl
    refine ⟨os.store.data i, Os.content_of_at hat, hname.2, answered_of_scan hs hs₁ hs₂ ht₁ ht₂, ?_⟩
    refine h.main (Q := fun m' => _ <+: m'.net.output) rfl (main_greets fun _ rest _ => printDone_wp ?_)
    refine doPut_wp Net.wire_sends rfl hat rfl (encodePath_ok_iff.mpr hname.1) hname.2 ?_
    refine Proc.wp_mono (wire_grows _ _) (fun _ m' hout input more => ?_) fun _ _ _ => trivial
    exact hout.trans (List.prefix_append _ _)
  | c =>
    obtain ⟨f, rest, ⟨hs, -⟩, i, hat, hname, f₁, s₁, ⟨hs₁, ht₁⟩, -, -, f₂, s₂, hs₂, ht₂⟩ := h.completes rfl
    have hmax : C.MAX_NAME = 255 := rfl
    refine ⟨os.store.data i, Os.content_of_at hat, by show (other.getD _).length < _; omega,
      answered_of_scan hs hs₁ hs₂ (by rw [ht₁]; decide) (by rw [ht₂]; decide), ?_⟩
    refine h.attempt (Q := fun m' => _ <+: m'.net.output) rfl (C.attempt_greets fun _ rest _ => ?_)
    refine C.doPut_wp Net.wire_sends hat rfl hname ?_
    exact Proc.wp_mono (wire_grows _ _) (fun _ m' hout _ => hout) fun _ _ _ => trivial

end Put

/-! ## Downloads -/

/-- What a client makes sure of whatever its peer sends, it makes sure of on a wire, for what it has read from
it. -/
theorem wire_of_hostile {ε α : Type} {p : Proc Sys Sys.Ans ε α} {Q : α → Machine Bytes → Prop}
    {E : ε → Machine Bytes → Prop} {m : Machine Wire} (got : Bytes)
    (h : p.wp Net.hostile.env Q E ⟨m.os, m.inFlight, got⟩) :
    p.wp Net.wire.env (fun a m' => ∃ x, m.net.input = x ++ m'.net.input ∧ Q a ⟨m'.os, m'.inFlight, got ++ x⟩)
      (fun _ _ => True) m := by
  induction p generalizing m got with
  | done a => exact ⟨[], rfl, by rw [List.append_nil]; exact h⟩
  | raise e => trivial
  | call o k ih =>
    refine ⟨by cases o <;> trivial, fun a m' ha => ?_⟩
    -- nothing is read by a call that is no `recv`
    have hstay : ∀ m' : Machine Wire, m'.net.input = m.net.input →
        (k a).wp Net.hostile.env Q E ⟨m'.os, m'.inFlight, got⟩ → (k a).wp Net.wire.env
          (fun a m' => ∃ x, m.net.input = x ++ m'.net.input ∧ Q a ⟨m'.os, m'.inFlight, got ++ x⟩)
          (fun _ _ => True) m' := by
      intro m' hin hk
      rw [← hin]
      exact ih a got hk
    cases o with
    | recv n =>
      obtain ⟨w, ⟨c, rfl, hle, -, hin, -⟩, rfl⟩ := ha
      have hk : (k (.ok c)).wp Net.hostile.env Q E ⟨m.os, m.inFlight, got ++ c⟩ :=
        h.2 _ _ ⟨_, .inl ⟨c, rfl, hle, rfl⟩, rfl⟩
      refine Proc.wp_mono (ih (.ok c) (got ++ c) hk) ?_ fun _ _ _ => trivial
      rintro a m' ⟨x, hx, hQ⟩
      refine ⟨c ++ x, ?_, by rw [← List.append_assoc]; exact hQ⟩
      rw [hin, List.append_assoc]
      exact congrArg (c ++ ·) hx
    | send b =>
      obtain ⟨w, ⟨rfl, rfl⟩, rfl⟩ := ha
      exact hstay _ rfl (h.2 (.ok ()) _ ⟨got, rfl, rfl⟩)
    | fs o =>
      obtain ⟨rfl, rfl⟩ := ha
      exact hstay _ rfl (h.2 _ _ ⟨rfl, rfl⟩)
    | reserve p =>
      obtain ⟨rfl, rfl⟩ := ha
      exact hstay _ rfl (h.2 _ _ ⟨rfl, rfl⟩)
    | discard p =>
      obtain rfl : m' = _ := ha
      exact hstay _ rfl (h.2 () _ rfl)

/-- Where a client saves a download. -/
def Client.dest (c : Client) (filename : Bytes) (output : Option Bytes) : Bytes :=
  match c.impl with
  | .python => getDest filename output
  | .c => output.getD (C.basenameOf filename)

/-- A GET has gone out. -/
def AsksFor (filename before after : Bytes) : Prop :=
  ∃ offset token, offset < 256 ^ 8 ∧ token.length = TOKEN_SIZE ∧
    before ++ frameBytes T_GET (getPayload offset token filename) <+: after

/-- **A download that has ended with 0**: the server has announced a file, the request has gone out, and what
is saved has the hash that was announced. -/
structure Client.Got (c : Client) (filename : Bytes) (output : Option Bytes) (os : Os) (got sent : Bytes) :
    Prop where
  short : filename.length < 256 ^ 2
  announced : ∃ f : Frame, ∃ more, f.payload.length < 256 ^ 8 ∧ got = frameBytes f.type f.payload ++ more ∧
    Announced more ∧ ∃ d, os.content (c.dest filename output) = some d ∧ sha256 d = metaHash more
  asked : AsksFor filename (frameBytes T_HELLO []) sent

/-- The hash in the metadata has arrived when it is that of a file. -/
theorem metaHash_append {x : Bytes} (h : (metaHash x).length = HASH_SIZE) (y : Bytes) :
    metaHash (x ++ y) = metaHash x := by
  have hlen : HEADER_SIZE + 16 + HASH_SIZE ≤ x.length := by
    rw [metaHash, List.length_take, List.length_drop] at h
    have : HASH_SIZE = 32 := rfl
    omega
  unfold metaHash
  rw [List.drop_append_of_le_length (by omega),
    List.take_append_of_le_length (by rw [List.length_drop]; omega)]

section Get

variable {c : Client} {m : Machine Lines} {got sent filename : Bytes} {output : Option Bytes}

theorem doGet_asks {m : Machine Wire} (hfree : m.os.at? (getDest filename output) = none)
    (hold : ∀ q, m.os.leftover (getDest filename output) = some q → m.os.at? q ≠ none)
    (hname : Sendable filename) : (doGet filename output).wp Net.wire.env
      (fun _ m' => AsksFor filename m.net.output m'.net.output) (fun _ _ => True) m := by
  refine Proc.wp_bind.mpr (Py.wpm_pathExists.mpr ?_)
  rw [Os.statAt_none hfree, if_neg (by decide)]
  have hlook := @Net.yields_eval Wire Net.wire m _ _ (fun _ => True) _
    (findPartial_uses (getDest filename output))
  rw [Os.leftover_eval] at hlook
  refine Proc.wp_bind.mpr (hlook.wp (fun existing hex => ?_) fun e he => by cases he)
  cases hex
  refine Proc.wp_bind.mpr (offerOf_wp ?_ fun offset token ho ht => ?_)
  · rintro ⟨q, hq, hgone⟩
    exact hold q hq hgone
  have ho8 : offset < 256 ^ 8 := ho.trans (by decide)
  have hlen : (getPayload offset token filename).length < 256 ^ 8 := by
    have h16 := hname.2
    rw [getPayload_length ht, show GET_PREFIX = 18 from rfl]
    omega
  simp only
  rw [packGet_eq (encodePath_ok_iff.mpr hname.1) ho8 hname.2, Proc.ofExcept_ok, Proc.done_bind]
  have hasks : ∀ after, m.net.output ++ frameBytes T_GET (getPayload offset token filename) <+: after →
      AsksFor filename m.net.output after := fun after h => ⟨offset, token, ho8, ht, h⟩
  generalize getPayload offset token filename = payload at hlen hasks
  refine Proc.wp_bind.mpr (writeFrame_wp hlen ?_)
  exact Proc.wp_mono (wire_grows _ _) (fun _ m' hout => hasks _ hout) fun _ _ _ => trivial

theorem C.scanToken_length {entry token : Bytes} (h : C.scanToken entry = some token) :
    token.length = TOKEN_SIZE := by
  have hmap : ∀ (is : List Nat) (f : Nat → Option UInt8) l, is.mapM f = some l → l.length = is.length := by
    intro is f
    induction is with
    | nil =>
      rintro l ⟨⟩
      rfl
    | cons i is ih =>
      intro l hl
      rw [List.mapM_cons] at hl
      obtain ⟨a, -, hl⟩ := Option.bind_eq_some_iff.mp hl
      obtain ⟨l', hl', hl⟩ := Option.bind_eq_some_iff.mp hl
      cases hl
      rw [List.length_cons, ih l' hl', List.length_cons]
  have hlen := hmap _ _ _ h
  rwa [List.length_range] at hlen

/-- What the C client offers has a token. -/
theorem C.findPartial_token (dest : Bytes) : (C.findPartial dest).Ends
    (fun existing => existing.offer.2.length = TOKEN_SIZE) (fun _ => False) := by
  have hnone : ∀ existing : C.Found, existing.path? = none → existing.offer.2.length = TOKEN_SIZE := by
    intro existing h
    cases existing with
    | found => cases h
    | failed | absent => exact List.length_replicate
  unfold C.findPartial
  cases C.splitPath dest C.DIR_MAX (C.MAX_NAME + 1) with
  | none => exact hnone _ rfl
  | some db =>
    refine Proc.Ends.bind (X := fun _ => True) (fun _ => trivial) fun entries _ => ?_
    cases entries with
    | error e => exact hnone .failed rfl
    | ok entries =>
      dsimp only
      generalize entries.filter (C.isPartialOf ([Os.DOT] ++ db.2 ++ [Os.DOT])) = found
      rcases found with _ | ⟨entry, _ | ⟨entry', found⟩⟩
      · exact hnone .absent rfl
      · refine Proc.Ends.bind (X := fun _ => True) (fun _ => trivial) fun st _ => ?_
        cases st with
        | none => exact hnone .absent rfl
        | some st =>
          cases ht : C.scanToken entry with
          | none => exact hnone .absent rfl
          | some token => exact C.scanToken_length ht
      · exact hnone .absent rfl

theorem C.doGet_asks {m : Machine Wire} {dest : Bytes} (hname : filename.length ≤ C.MAX_NAME) :
    (C.doGet filename dest).wp Net.wire.env
      (fun ok m' => ok = true → AsksFor filename m.net.output m'.net.output) (fun _ _ => True) m := by
  rw [C.doGet_request]
  refine Proc.wp_bind.mpr (Proc.wp_bind.mpr (Proc.wp_perform.mpr ((Net.call_looks (.stat _)).mpr ?_)))
  show Proc.wp _ (if (m.os.statAt dest).isSome = true then _ else _) _ _ _
  split
  · rintro ⟨⟩
  have hlook := @Net.yields_eval Wire Net.wire m _ _ _ _ (C.findPartial_uses dest)
  refine Proc.wp_bind.mpr (hlook.wp (fun existing hex => ?_) fun e => e.elim)
  have ht := (C.findPartial_token dest).eval hex
  rw [if_neg (Nat.not_lt.mpr hname)]
  have hrequest := @C.getRequest_eq existing.offer.1.toNat existing.offer.2 filename hname
  rw [UInt64.ofNat_toNat] at hrequest
  rw [hrequest]
  refine Proc.wp_bind.mpr (C.writeFrame_wp ?_)
  rw [if_neg (by decide)]
  refine Proc.wp_mono (wire_grows _ _) (fun _ m' hout _ => ?_) fun _ _ _ => trivial
  exact ⟨existing.offer.1.toNat, existing.offer.2, existing.offer.1.toNat_lt, ht, hout⟩

/-- A download that is safe whatever the peer sends has saved what was announced. -/
theorem DownloadSafe.saved {os os' : Os} {dest x rest : Bytes} {existing : Option Bytes}
    {partialAt : Bytes → Option Bytes} {ok : Prop} (h : DownloadSafe os dest existing partialAt ok x os')
    (hok : ok) : ∃ d, os'.content dest = some d ∧ sha256 d = metaHash (x ++ rest) := by
  obtain ⟨-, d, hd, hsha⟩ := h.success hok
  refine ⟨d, hd, ?_⟩
  rw [metaHash_append (by rw [← hsha]; exact sha256_length d)]
  exact hsha

/-- **A download that has ended with 0.** -/
theorem Client.Comes.get (h : c.Comes (.done 0) m got sent) (hc : c.command = .get filename output) :
    c.Got filename output m.os got sent := by
  obtain ⟨impl, command, os⟩ := c
  obtain rfl : command = .get filename output := hc
  cases impl with
  | python =>
    obtain ⟨f, rest, hs, ⟨hfree, hold, hname, hann, -, -⟩, -⟩ := h.finishes rfl
    obtain ⟨hlen, hgot⟩ := scanFrame_splits hs
    obtain ⟨found, hfind⟩ := findPartial_eval os (getDest filename output)
    refine ⟨hname.2, ⟨f, rest, hlen, hgot, hann, ?_⟩, ?_⟩
    · refine h.main (Q := fun m' => ∃ d, m'.os.content (getDest filename output) = some d ∧
        sha256 d = metaHash rest) rfl (main_greets fun f' rest' hs' => ?_)
      cases hs.symm.trans hs'
      refine printDone_wp (Proc.wp_mono (wire_of_hostile [] (doGet_safe hfind)) ?_ fun _ _ _ => trivial)
      rintro _ m' ⟨x, hx, hsafe⟩ input more
      rw [show rest = x ++ m'.net.input from hx]
      exact DownloadSafe.saved hsafe trivial
    · refine h.main (Q := fun m' => AsksFor filename (frameBytes T_HELLO []) m'.net.output) rfl
        (main_greets fun _ rest _ =>
          printDone_wp (Proc.wp_mono (doGet_asks hfree hold hname) ?_ fun _ _ _ => trivial))
      rintro _ m' ⟨offset, token, ho, ht, hout⟩ input more
      exact ⟨offset, token, ho, ht, hout.trans (List.prefix_append _ _)⟩
  | c =>
    obtain ⟨f, rest, hf, hfree, hname, hann, -⟩ := h.completes rfl
    obtain ⟨hlen, hgot⟩ := scanFrame_splits hf.1
    have hmax : C.MAX_NAME = 255 := rfl
    obtain ⟨found, hfind⟩ := C.findPartial_eval os (output.getD (C.basenameOf filename))
    refine ⟨by omega, ⟨f, rest, hlen, hgot, ?_, ?_⟩, ?_⟩
    · obtain ⟨hl, n, hp⟩ := hann
      exact ⟨hl, T_OK, n, hp, by decide⟩
    · refine h.attempt (Q := fun m' => ∃ d, m'.os.content (output.getD (C.basenameOf filename)) = some d ∧
        sha256 d = metaHash rest) rfl (C.attempt_greets fun f' rest' hf' => ?_)
      obtain ⟨-, rfl⟩ := hf.unique hf'
      refine Proc.wp_mono (wire_of_hostile []
        (C.doGet_safe (E := fun _ _ => True) hfind)) ?_ fun _ _ _ => trivial
      rintro ok m' ⟨x, hx, hsafe⟩ hok
      rw [show rest = x ++ m'.net.input from hx]
      exact DownloadSafe.saved hsafe hok
    · refine h.attempt (Q := fun m' => AsksFor filename (frameBytes T_HELLO []) m'.net.output) rfl
        (C.attempt_greets fun _ rest _ => C.doGet_asks hname)

end Get

end Retriever
