/-
# Retriever.Served — a client and the server that answers it

What the server has replied after a given input is a function of its directory and that input: a
connection alone is determinate, so running it with the input it has leads to its replies
(`Proc.Yields.greedy`). `Net.served` puts a client in front of such a function: whatever the client has
sent so far decides what it can receive, in pieces of any size, and a connection that is cut off is
one whose replies stop early. Where a client only reads, this is the fixed input of `Net.wire`
(`served_of_wire`).
-/
import Retriever.Server.Drive
import Retriever.Server.Get

namespace Retriever

open Proc (Yields)

/-! ## The server -/

/-- One turn of the loop of `handle_client`, with its `except` clauses. -/
def serveRequest : Py Unit :=
  (do
    match ← nextFrame with
    | none => pure ()
    | some f => let _goOn ← dispatch f).tryCatch onError

/-- The server with a directory and the bytes `sent` to it. -/
def serverRun (os : Os) (sent : Bytes) : Machine Wire :=
  (Machine.greedy ⟨os, ∅, ⟨sent, []⟩⟩ serveRequest).2

/-- What it has replied. -/
def serverReply (os : Os) (sent : Bytes) : Bytes := (serverRun os sent).net.output

/-- How the server answers a GET that it can parse. -/
inductive GetAnswered (os : Os) (g : GetRequest) (reply : Bytes) : Prop
  | served {c : Bytes} : checkFilename g.name = true → os.content (encode g.name) = some c →
      g.offset ≤ c.length → reply = getReply c (g.start c) → GetAnswered os g reply
  | refused {reason : UInt8} : (∀ c, checkFilename g.name = true →
      os.content (encode g.name) = some c → c.length < g.offset) → IsErrorFrame reason reply →
      GetAnswered os g reply

/-- An ERROR frame for a FrameError with a short message. -/
theorem onError_violates {reason : UInt8} {e : Exn} (he : e.Violates reason) (m : Machine Wire) :
    ∃ b, IsErrorFrame reason b ∧
      Yields Net.wire.env (onError e) m (.ok ()) (m.wired m.net.input (m.net.output ++ b)) := by
  obtain ⟨message, hlen, rfl⟩ := he
  exact ⟨_, ⟨message, hlen, rfl⟩, yields_sendError hlen m⟩

/-- A GET whose offset is past the end of the file. -/
theorem serveRequest_pastEnd {os : Os} {payload : Bytes} {g : GetRequest} {c : Bytes}
    (hp : payload.length ≤ 64 * 1024) (hg : parseGet payload = .ok g)
    (hname : checkFilename g.name = true) (hc : os.content (encode g.name) = some c)
    (hlt : c.length < g.offset) :
    ∃ reply, Yields Net.wire.env serveRequest ⟨os, ∅, ⟨frameBytes T_GET payload, []⟩⟩ (.ok ())
        ⟨os, ∅, ⟨[], reply⟩⟩ ∧ IsErrorFrame E_MALFORMED reply := by
  have hnext : Yields Net.wire.env nextFrame ⟨os, ∅, ⟨frameBytes T_GET payload, []⟩⟩
      (.ok (some ⟨T_GET, payload⟩)) ⟨os, ∅, ⟨[], []⟩⟩ :=
    nextFrame_frame (List.append_nil _).symm rfl hp
  obtain ⟨r, m', hy, hends⟩ := handleGet_yields payload ⟨os, ∅, ⟨[], []⟩⟩
  unfold GetEnds at hends
  simp only [hg, hname, show (⟨os, ∅, ⟨[], []⟩⟩ : Machine Wire).os.content (encode g.name) = some c from hc,
    if_pos hlt, Bool.true_eq_false, if_false] at hends
  obtain ⟨rfl, rfl⟩ := hends
  have hbad : Exn.Violates E_MALFORMED (.frameError E_MALFORMED pastEnd) :=
    ⟨pastEnd, encode_short (by decide), rfl⟩
  obtain ⟨b, hb, hyb⟩ := onError_violates hbad ⟨os, ∅, ⟨[], []⟩⟩
  exact ⟨b, Yields.tryCatch_error (hnext.bind (Yields.bind_error hy.bind_error)) hyb, hb⟩

theorem serveRequest_get (os : Os) {payload : Bytes} {g : GetRequest}
    (hp : payload.length ≤ 64 * 1024) (hg : parseGet payload = .ok g) :
    ∃ reply, Yields Net.wire.env serveRequest ⟨os, ∅, ⟨frameBytes T_GET payload, []⟩⟩ (.ok ())
        ⟨os, ∅, ⟨[], reply⟩⟩ ∧ GetAnswered os g reply := by
  have hnext : Yields Net.wire.env nextFrame ⟨os, ∅, ⟨frameBytes T_GET payload, []⟩⟩
      (.ok (some ⟨T_GET, payload⟩)) ⟨os, ∅, ⟨[], []⟩⟩ :=
    nextFrame_frame (List.append_nil _).symm rfl hp
  -- what the handler leaves behind is what the turn leaves behind
  have hturn : ∀ {m' : Machine Wire}, Yields Net.wire.env (handleGet payload) ⟨os, ∅, ⟨[], []⟩⟩
      (.ok ()) m' → Yields Net.wire.env serveRequest ⟨os, ∅, ⟨frameBytes T_GET payload, []⟩⟩
        (.ok ()) m' := by
    intro m' hy
    refine Yields.tryCatch (hnext.bind ?_)
    apply Yields.bind (a := true) (Yields.bind hy (Proc.yields_done true m'))
    exact Proc.yields_done _ _
  obtain ⟨r, m', hy, hends⟩ := handleGet_yields payload ⟨os, ∅, ⟨[], []⟩⟩
  unfold GetEnds at hends
  rw [hg] at hends
  simp only at hends
  split at hends
  · next hname =>
    obtain ⟨rfl, b, hb, rfl⟩ := hends
    refine ⟨b, hturn hy, .refused (fun c hc => ?_) hb⟩
    rw [hname] at hc
    cases hc
  · next hname =>
    split at hends
    · next hnone =>
      obtain ⟨rfl, b, hb, rfl⟩ := hends
      refine ⟨b, hturn hy, .refused (fun c _ hc => ?_) hb⟩
      rw [show os.content (encode g.name) = none from hnone] at hc
      cases hc
    · next c hc =>
      split at hends
      · next hlt =>
        obtain ⟨b, hb, herr⟩ := serveRequest_pastEnd hp hg (by simpa using hname) hc hlt
        refine ⟨b, hb, .refused (fun c' _ hc' => ?_) herr⟩
        rw [show os.content (encode g.name) = some c from hc] at hc'
        cases hc'
        exact hlt
      · next hge =>
        obtain ⟨rfl, rfl⟩ := hends
        exact ⟨_, hturn hy, .served (by simpa using hname) hc (Nat.le_of_not_lt hge) rfl⟩

theorem serverRun_of_yields {os : Os} {sent : Bytes} {r : Except Exn Unit} {m : Machine Wire}
    (h : Yields Net.wire.env serveRequest ⟨os, ∅, ⟨sent, []⟩⟩ r m) : serverRun os sent = m := by
  unfold serverRun
  rw [h.greedy]

/-- The reply to a GET. -/
theorem serverReply_get {os : Os} {payload : Bytes} {g : GetRequest}
    (hp : payload.length ≤ 64 * 1024) (hg : parseGet payload = .ok g) :
    GetAnswered os g (serverReply os (frameBytes T_GET payload)) := by
  obtain ⟨reply, hy, hanswer⟩ := serveRequest_get os hp hg
  unfold serverReply
  rw [serverRun_of_yields hy]
  exact hanswer

-- running the server is what the lemmas above are for
attribute [irreducible] serverRun

/-! ## The client -/

/-- What has been sent to the peer, and how much of its replies has been received. -/
structure Peer where
  sent : Bytes
  taken : Nat

/-- A peer whose replies to `b` are `serve b`. At their end the connection ends. -/
def Net.served (serve : Bytes → Bytes) : Net Peer where
  mayRecv _ _ := True
  recv x n a x' := ∃ c, a = .ok c ∧ c.length ≤ n ∧
    (c = [] → n = 0 ∨ (serve x.sent).drop x.taken = []) ∧
    c <+: (serve x.sent).drop x.taken ∧ x' = ⟨x.sent, x.taken + c.length⟩
  maySend _ _ := True
  send x b a x' := a = .ok () ∧ x' = ⟨x.sent ++ b, x.taken⟩

/-- The connection as a client sees it that only reads. -/
def Machine.view (serve : Bytes → Bytes) (m : Machine Peer) : Machine Wire :=
  ⟨m.os, m.inFlight, ⟨(serve m.net.sent).drop m.net.taken, m.net.sent⟩⟩

/-- The operation sends nothing. -/
def Sys.Silent : Sys → Prop
  | .send _ => False
  | _ => True

/-- **A client that only reads has a fixed input**, and reads no further than its end. -/
theorem served_of_wire_behind {serve : Bytes → Bytes} {ε α : Type} {X : ε → Prop}
    {p : Proc Sys Sys.Ans ε α} (hp : p.Uses Sys.Silent X) {Q : α → Machine Wire → Prop}
    {E : ε → Machine Wire → Prop} {m : Machine Peer} (h : p.wp Net.wire.env Q E (m.view serve))
    {B : Peer → Prop} (hB : ∀ x n, B x → n ≤ ((serve x.sent).drop x.taken).length →
      B ⟨x.sent, x.taken + n⟩) (hm : B m.net) :
    p.wp (Net.served serve).env (fun a m => Q a (m.view serve) ∧ B m.net)
      (fun e m => E e (m.view serve) ∧ B m.net) m := by
  induction p generalizing m with
  | done a => exact ⟨h, hm⟩
  | raise e => exact ⟨h, hm⟩
  | call o k ih =>
    refine ⟨?_, fun a m' ha => ?_⟩
    · cases o <;> trivial
    · cases o with
      | recv n =>
        obtain ⟨x, ⟨c, rfl, hle, hnil, hpre, rfl⟩, rfl⟩ := ha
        refine ih _ (hp.2 _) (h.2 (.ok c) _ ?_) (hB _ _ hm hpre.length_le)
        refine ⟨⟨(serve m.net.sent).drop (m.net.taken + c.length), m.net.sent⟩,
          ⟨c, rfl, hle, hnil, ?_, rfl⟩, rfl⟩
        obtain ⟨r, hr⟩ := hpre
        show (serve m.net.sent).drop m.net.taken = c ++ (serve m.net.sent).drop (m.net.taken + c.length)
        rw [← List.drop_drop, ← hr, List.drop_left]
      | send b => exact absurd hp.1 not_false
      | fs o =>
        obtain ⟨rfl, rfl⟩ := ha
        exact ih _ (hp.2 _) (h.2 _ _ ⟨rfl, rfl⟩) hm
      | reserve p =>
        obtain ⟨rfl, rfl⟩ := ha
        exact ih _ (hp.2 _) (h.2 _ _ ⟨rfl, rfl⟩) hm
      | discard p =>
        cases ha
        exact ih _ (hp.2 _) (h.2 () _ rfl) hm

theorem served_of_wire {serve : Bytes → Bytes} {ε α : Type} {X : ε → Prop}
    {p : Proc Sys Sys.Ans ε α} (hp : p.Uses Sys.Silent X) {Q : α → Machine Wire → Prop}
    {E : ε → Machine Wire → Prop} {m : Machine Peer} (h : p.wp Net.wire.env Q E (m.view serve)) :
    p.wp (Net.served serve).env (fun a m => Q a (m.view serve)) (fun e m => E e (m.view serve)) m :=
  Proc.wp_mono (served_of_wire_behind hp h (B := fun _ => True) (fun _ _ _ _ => trivial) trivial)
    (fun _ _ h => h.1) fun _ _ h => h.1

/-- Where the client stands after it has read what there is up to `rest`. -/
def Machine.readTo (m : Machine Peer) (serve : Bytes → Bytes) (m' : Machine Wire) : Machine Peer :=
  ⟨m'.os, m'.inFlight, ⟨m.net.sent, (serve m.net.sent).length - m'.net.input.length⟩⟩

theorem Proc.Yields.served {serve : Bytes → Bytes} {ε α : Type} {X : ε → Prop}
    {p : Proc Sys Sys.Ans ε α} (hp : p.Uses Sys.Silent X) {m : Machine Peer} {m' : Machine Wire}
    {r : Except ε α} (h : Yields Net.wire.env p (m.view serve) r m')
    (hm : m.net.taken ≤ (serve m.net.sent).length) :
    Yields (Net.served serve).env p m r (m.readTo serve m') := by
  have hread := served_of_wire_behind hp h
    (B := fun x => x.sent = m.net.sent ∧ x.taken ≤ (serve m.net.sent).length) (by
      rintro x n ⟨hs, hle⟩ hn
      rw [hs, List.length_drop] at hn
      exact ⟨hs, by show x.taken + n ≤ _; omega⟩) ⟨rfl, hm⟩
  -- the rest of the replies says how much has been received
  have hend : ∀ m₁ : Machine Peer, m₁.view serve = m' → m₁.net.sent = m.net.sent →
      m₁.net.taken ≤ (serve m.net.sent).length → m₁ = m.readTo serve m' := by
    rintro ⟨os, fl, sent, taken⟩ rfl hs hle
    dsimp only at hs hle
    subst hs
    unfold Machine.readTo Machine.view
    simp only [List.length_drop]
    rw [Nat.sub_sub_self hle]
  refine Proc.wp_mono hread ?_ ?_
  · rintro a m₁ ⟨⟨hr, hv⟩, hs, hle⟩
    exact ⟨hr, hend m₁ hv hs hle⟩
  · rintro e m₁ ⟨⟨hr, hv⟩, hs, hle⟩
    exact ⟨hr, hend m₁ hv hs hle⟩

/-- What holds against every server holds against this one. -/
theorem served_of_hostile {serve : Bytes → Bytes} {ε α : Type} {p : Proc Sys Sys.Ans ε α}
    {Q : α → Machine Bytes → Prop} {E : ε → Machine Bytes → Prop} {m : Machine Peer} {got : Bytes}
    (h : p.wp Net.hostile.env Q E ⟨m.os, m.inFlight, got⟩) :
    p.wp (Net.served serve).env (fun a m => ∃ got, Q a ⟨m.os, m.inFlight, got⟩)
      (fun e m => ∃ got, E e ⟨m.os, m.inFlight, got⟩) m := by
  induction p generalizing m got with
  | done a => exact ⟨got, h⟩
  | raise e => exact ⟨got, h⟩
  | call o k ih =>
    refine ⟨by cases o <;> trivial, fun a m' ha => ?_⟩
    cases o with
    | recv n =>
      obtain ⟨x, ⟨c, rfl, hle, -, -, rfl⟩, rfl⟩ := ha
      exact ih _ (h.2 (.ok c) ⟨m.os, m.inFlight, got ++ c⟩ ⟨got ++ c, .inl ⟨c, rfl, hle, rfl⟩, rfl⟩)
    | send b =>
      obtain ⟨x, ⟨rfl, rfl⟩, rfl⟩ := ha
      exact ih _ (h.2 (.ok ()) ⟨m.os, m.inFlight, got⟩ ⟨got, rfl, rfl⟩)
    | fs o =>
      obtain ⟨rfl, rfl⟩ := ha
      exact ih _ (h.2 _ ⟨_, m.inFlight, got⟩ ⟨rfl, rfl⟩)
    | reserve p =>
      obtain ⟨rfl, rfl⟩ := ha
      exact ih _ (h.2 _ ⟨m.os, _, got⟩ ⟨rfl, rfl⟩)
    | discard p =>
      cases ha
      exact ih _ (h.2 () ⟨m.os, _, got⟩ rfl)

theorem Net.served_live (serve : Bytes → Bytes) (m : Machine Peer) (o : Sys) :
    ∃ a m', (Net.served serve).env.gives m o a m' := by
  cases o with
  | recv n =>
    exact ⟨_, _, _, ⟨_, rfl, List.length_take_le n _, List.take_eq_nil_iff.mp, List.take_prefix _ _,
      rfl⟩, rfl⟩
  | send b => exact ⟨_, _, _, ⟨rfl, rfl⟩, rfl⟩
  | fs o => exact ⟨_, _, rfl, rfl⟩
  | reserve p => exact ⟨_, _, rfl, rfl⟩
  | discard p => exact ⟨(), _, rfl⟩

end Retriever
