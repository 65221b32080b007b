/-
# Retriever.Server.Drive — a lone run as a part of a run of the server

What a program of a session can do alone it can do among other sessions, as long as these do
nothing: a run of the program against a client with fixed bytes (`Net.wire`) is a piece of a run of
the server (`Server.drive`). With the lemmas on the outcome of whole programs, runs of the server
with bodies of any length can be put together from such pieces.
-/
import Retriever.Server.Put
import Retriever.Server.World

namespace Retriever

open Proc (Reaches Yields)

variable {T : Type}

/-- The shared state is the one of the machine. -/
def World.Matches (w : World T) (m : Machine Wire) : Prop :=
  w.os = m.os ∧ w.inFlight = m.inFlight

theorem World.Matches.exec {w : World T} {m m' : Machine Wire} (h : w.Matches m) (t : T)
    (l : Session) {o : Sys} {a : o.Ans} (hg : Net.wire.env.gives m o a m') :
    ∃ w', World.Exec t l w o a w' ∧ w'.Matches m' := by
  obtain ⟨hos, hfl⟩ := h
  refine ⟨⟨m'.os, m'.inFlight, ⟨t, l.request, o, a, m'.os⟩ :: w.log⟩, ⟨?_, rfl⟩, rfl, rfl⟩
  cases o with
  | recv n =>
    obtain ⟨x, ⟨c, rfl, hle, -⟩, rfl⟩ := hg
    exact ⟨.inl ⟨c, rfl, hle⟩, hos.symm, hfl.symm⟩
  | send b =>
    obtain ⟨x, ⟨rfl, -⟩, rfl⟩ := hg
    exact ⟨.inl rfl, hos.symm, hfl.symm⟩
  | fs o =>
    obtain ⟨rfl, rfl⟩ := hg
    refine ⟨?_, ?_, hfl.symm⟩
    · rw [hos]
    · rw [hos]
  | reserve p =>
    obtain ⟨rfl, rfl⟩ := hg
    refine ⟨?_, hos.symm, ?_⟩
    · rw [hfl]
    · rw [hfl]
  | discard p =>
    obtain rfl := hg
    refine ⟨hos.symm, ?_⟩
    rw [hfl]

namespace Server

variable [DecidableEq T]

/-- A mode of a session that hands the answers to its program. -/
def Settles {α : Type} (settle : Py α → Session) : Prop :=
  ∀ o k, (settle (.call o k)).next = some ⟨o, fun a => settle (k a)⟩

theorem settles_greeting : Settles Session.settleGreeting := fun _ _ => rfl

theorem settles_awaiting (n : Nat) : Settles (Session.settleAwaiting n) := fun _ _ => rfl

theorem settles_serving (r : Request) : Settles (Session.settleServing r) := fun _ _ => rfl

/-- **The other sessions wait** while one comes as far as its program can come alone. -/
theorem drive {α : Type} {settle : Py α → Session} (hsettle : Settles settle) {p p' : Py α}
    {m m' : Machine Wire} (h : Reaches Net.wire.env p m p' m') {s : Server T} {t : T}
    (ht : s.threads t = settle p) (hw : s.world.Matches m) :
    ∃ s' : Server T, Run s s' ∧ s'.threads = Function.update s.threads t (settle p') ∧
      s'.world.Matches m' := by
  induction h generalizing s with
  | refl p m => exact ⟨s, .refl, by rw [← ht, Function.update_eq_self], hw⟩
  | @call o k p' m m₁ m' a hx _ ih =>
    obtain ⟨w, hexec, hmatch⟩ := hw.exec t (s.threads t) hx
    have hnext : (s.threads t).next = some ⟨o, fun a => settle (k a)⟩ := by rw [ht, hsettle]
    obtain ⟨s', hrun, hthreads, hmatch'⟩ :=
      ih (s := ⟨w, Function.update s.threads t (settle (k a))⟩) (Function.update_self ..) hmatch
    refine ⟨s', .head (.mk hnext hexec) hrun, ?_, hmatch'⟩
    rw [hthreads, Function.update_idem]

end Server

/-! ## From the greeting to the request -/

theorem scanFrame_frameBytes {t : UInt8} {p : Bytes} {cap : Nat} (rest : Bytes)
    (hc : payloadCaps t = some cap) (hp : p.length ≤ cap) :
    scanFrame (frameBytes t p ++ rest) = (.ok ⟨t, p⟩, rest) :=
  scanFrame_eq_ok.mpr ⟨rfl, cap, hc, hp⟩

theorem greet_yields {rest : Bytes} {m : Machine Wire}
    (hin : m.net.input = frameBytes T_HELLO [] ++ rest) :
    Yields Net.wire.env greet m (.ok ()) (m.wired rest (m.net.output ++ okFrame)) := by
  have hread := readFrame_yields (m := m) m.net.input m.net.output
  rw [hin, scanFrame_frameBytes rest rfl (Nat.le_refl 0), ← hin, Machine.wired_self] at hread
  unfold greet
  apply hread.bind
  rw [if_neg (by decide)]
  exact yields_writeFrame (by decide) _

/-- A PUT payload is parsed as what it was made of. -/
theorem parsePut_putPayload {fileSize : Nat} {digest name : Bytes} (hs : fileSize < 256 ^ 8)
    (hd : digest.length = HASH_SIZE) (hn : name.length < 256 ^ 2) :
    parsePut (putPayload fileSize digest name) = .ok ⟨fileSize, digest, decodeReplace name⟩ := by
  have hfront : (toBE 8 fileSize ++ digest).length = 8 + HASH_SIZE := by simp [hd]
  unfold parsePut putPayload
  rw [if_neg (by simp [hd, PUT_PREFIX]; omega), List.append_assoc _ (toBE 2 _) _,
    List.drop_left' hfront, parseName_named hn]
  simp only [ne_eq, not_true_eq_false, if_false, Except.ok.injEq, PutRequest.mk.injEq, and_true]
  refine ⟨?_, ?_⟩
  · rw [List.append_assoc, List.take_left' (toBE_length 8 _), ofBE_toBE hs]
  · rw [List.append_assoc, List.drop_left' (toBE_length 8 _), List.take_left' hd]

theorem parsePut_accepted {fileSize : Nat} {digest : Bytes} {t : Text}
    (hs : fileSize < 256 ^ 8) (hd : digest.length = HASH_SIZE) (ht : Accepted t)
    (hl : (encode t).length < 256 ^ 2) :
    parsePut (putPayload fileSize digest (encode t)) = .ok ⟨fileSize, digest, t⟩ := by
  rw [parsePut_putPayload hs hd hl, ht.decode_encode]

theorem nextFrame_frame {t : UInt8} {p rest : Bytes} {cap : Nat} {m : Machine Wire}
    (hin : m.net.input = frameBytes t p ++ rest) (hc : payloadCaps t = some cap)
    (hp : p.length ≤ cap) :
    Yields Net.wire.env nextFrame m (.ok (some ⟨t, p⟩)) (m.wired rest m.net.output) := by
  have hnext := nextFrame_yields m
  rw [hin, scanFrame_frameBytes rest hc hp] at hnext
  exact hnext

/-- A session whose client greets and sends a request comes to serve it. -/
theorem Server.drive_request [DecidableEq T] {s : Server T} {t : T} {m : Machine Wire}
    (ht : s.threads t = .accepted) (hw : s.world.Matches m) {c : UInt8} {p rest : Bytes} {cap : Nat}
    (hin : m.net.input = frameBytes T_HELLO [] ++ (frameBytes c p ++ rest))
    (hc : payloadCaps c = some cap) (hp : p.length ≤ cap) :
    ∃ s' : Server T, Server.Run s s' ∧
      s'.threads = Function.update s.threads t
        (Session.settleServing (0, ⟨c, p⟩) (dispatch ⟨c, p⟩)) ∧
      s'.world.Matches (m.wired rest (m.net.output ++ okFrame)) := by
  obtain ⟨s₁, hrun₁, hthreads₁, hmatch₁⟩ := Server.drive Server.settles_greeting
    ((greet_yields hin).reaches Net.wire_live) ht hw
  have ht₁ : s₁.threads t = Session.settleAwaiting 0 nextFrame := by
    rw [hthreads₁, Function.update_self]
    rfl
  obtain ⟨s₂, hrun₂, hthreads₂, hmatch₂⟩ := Server.drive (Server.settles_awaiting 0)
    ((nextFrame_frame rfl hc hp).reaches Net.wire_live) ht₁ hmatch₁
  refine ⟨s₂, hrun₁.trans hrun₂, ?_, hmatch₂⟩
  rw [hthreads₂, hthreads₁, Function.update_idem]
  rfl

/-! ## On the way through a PUT -/

section Put

variable {m : Machine Wire} {payload : Bytes} {req : PutRequest}

/-- What is left of an upload from which nothing is held, once the server has answered. -/
def PutRequest.granted (req : PutRequest) : Py Unit :=
  Proc.ensure (Py.discard req.partialPath) (Py.openAb req.partialPath >>= fun out =>
    receiveBody out req.fileSize req.fileSize 0 >>= fun _ =>
      settleUpload req.path req.partialPath req.digest)

/-- The server has made its offer and is about to open the partial. -/
theorem handlePut_grants (hparse : parsePut payload = .ok req) (hadm : req.Admitted m.os)
    (hlone : req.partialPath ∉ m.inFlight) (hnone : m.os.at? req.partialPath = none) :
    Reaches Net.wire.env (handlePut payload) m req.granted
      ⟨m.os, insert req.partialPath m.inFlight, ⟨m.net.input, m.net.output ++ offerFrame 0⟩⟩ := by
  have hfree : ¬ (m.os.at? req.path).isSome = true := by simp [hadm.free]
  unfold handlePut
  simp only [hparse, Proc.ofExcept_ok, Proc.done_bind, hadm.name, Bool.true_eq_false, if_false,
    if_neg (Nat.not_lt.mpr hadm.size)]
  apply (((yields_pathExists _ _).reaches Net.wire_live).bind _).trans
  rw [Proc.ofExcept_ok, Proc.done_bind, if_neg hfree]
  apply (((yields_reserve hlone).reaches Net.wire_live).bind _).trans
  rw [Proc.ofExcept_ok, Proc.done_bind, if_neg (by decide)]
  refine Reaches.ensure ?_ _
  rw [receiveUpload_eq]
  -- nothing is held
  have hres : Yields Net.wire.env (resumeOffset req.partialPath req.fileSize)
      { m with inFlight := insert req.partialPath m.inFlight } (.ok 0)
      { m with inFlight := insert req.partialPath m.inFlight } := by
    rcases resumeOffset_yields req.partialPath req.fileSize
      { m with inFlight := insert req.partialPath m.inFlight } with
      ⟨hat, -⟩ | ⟨hat, -⟩ | ⟨i, hat, -⟩ | ⟨i, l, hl, hs, -⟩ | ⟨-, hy⟩
    · cases hat.symm.trans hnone
    · cases hat.symm.trans hnone
    · cases hat.symm.trans hnone
    · cases (Os.at?_eq_some.mpr ⟨l, hl, hs⟩).symm.trans hnone
    · exact hy
  apply ((hres.reaches Net.wire_live).bind _).trans
  rw [Proc.ofExcept_ok, Proc.done_bind, toBytes_of_lt (by decide), Proc.ofExcept_ok, Proc.done_bind]
  exact (((yields_writeFrame (by decide) _).reaches Net.wire_live).bind _).trans (.refl _ _)

end Put

end Retriever
