/-
# Retriever.Upload — the client's side of a PUT

Both clients send the request, read a frame, send the file from the offset in it and read another
frame. On a network that takes what is sent, this is said once for each client, with what is read left
open (`doPut_wp`, `C.doPut_wp`): against a fixed stream of bytes the frames are what the stream starts
with, against the server they are its replies.
-/
import Retriever.Requests

namespace Retriever

open Proc (Yields)

/-! ## Sending a file -/

section Send

variable {N : Type} {net : Net N} {put : N → Bytes → N} {m : Machine N} {i : Nat}

/-- Python sends the file from `pos` on. -/
theorem uploadBody_puts (h : net.Sends put) {fuel pos remaining : Nat} (hfuel : remaining ≤ fuel)
    (hpos : remaining = (m.os.store.data i).length - pos) :
    Yields net.env (uploadBody i fuel pos remaining) m (.ok ())
      (m.puts put ((m.os.store.data i).drop pos)) := by
  induction fuel generalizing m pos remaining with
  | zero =>
    have hdrop : (m.os.store.data i).drop pos = [] := List.drop_of_length_le (by omega)
    rw [hdrop, h.puts_nil]
    exact Proc.yields_done _ _
  | succ fuel ih =>
    unfold uploadBody
    by_cases hrem : remaining > 0
    · rw [if_pos hrem]
      have hlen : (((m.os.store.data i).drop pos).take (min 65536 remaining)).length =
          min 65536 remaining := by
        rw [List.length_take, List.length_drop]
        omega
      have hne : ((m.os.store.data i).drop pos).take (min 65536 remaining) ≠ [] := by
        intro hnil
        rw [hnil] at hlen
        simp only [List.length_nil] at hlen
        omega
      apply Yields.bind (Py.wpm_read.mpr ⟨rfl, rfl⟩)
      rw [if_neg hne]
      apply (h.sendall _ m).bind
      have hrest := @ih (m.puts put (((m.os.store.data i).drop pos).take (min 65536 remaining)))
        (pos + min 65536 remaining) (remaining - min 65536 remaining) (by omega)
        (by show _ = (m.os.store.data i).length - _; omega)
      have hjoin : ((m.os.store.data i).drop pos).take (min 65536 remaining) ++
          (m.os.store.data i).drop (pos + min 65536 remaining) = (m.os.store.data i).drop pos := by
        rw [← List.drop_drop, List.take_append_drop]
      rw [h.puts_puts, show (m.puts put _).os = m.os from rfl, hjoin] at hrest
      rw [hlen]
      exact hrest
    · have hdrop : (m.os.store.data i).drop pos = [] := List.drop_of_length_le (by omega)
      rw [if_neg hrem, hdrop, h.puts_nil]
      exact Proc.yields_done _ _

/-- The C client sends the file from `pos` on. -/
theorem C.uploadBody_puts (h : net.Sends put) {fuel pos : Nat} {remaining : UInt64}
    (hfuel : remaining.toNat ≤ fuel) (hpos : remaining.toNat = (m.os.store.data i).length - pos) :
    Yields net.env (C.uploadBody i fuel pos remaining) m (.ok true)
      (m.puts put ((m.os.store.data i).drop pos)) := by
  induction fuel generalizing m pos remaining with
  | zero =>
    have hdrop : (m.os.store.data i).drop pos = [] := List.drop_of_length_le (by omega)
    rw [hdrop, h.puts_nil]
    exact Proc.yields_done _ _
  | succ fuel ih =>
    unfold C.uploadBody
    by_cases hrem : remaining > 0
    · have hrem' : 0 < remaining.toNat := by simpa using UInt64.lt_iff_toNat_lt.mp hrem
      rw [if_pos hrem]
      have hwant := C.want_toNat remaining
      have hblock : C.BLOCK = 65536 := rfl
      generalize (if remaining < 65536 then remaining else 65536) = want at hwant ⊢
      have hsub : (remaining - want).toNat = remaining.toNat - want.toNat :=
        UInt64.toNat_sub_of_le _ _ (UInt64.le_iff_toNat_le.mpr (by omega))
      have hlen : (((m.os.store.data i).drop pos).take want.toNat).length = want.toNat := by
        rw [List.length_take, List.length_drop]
        omega
      refine Yields.bind (Proc.wp_perform.mpr ((Net.call_looks (.read i pos want.toNat)).mpr
        ⟨rfl, rfl⟩)) ?_
      rw [show (m.os.run (.read i pos want.toNat)).1 =
        .ok (((m.os.store.data i).drop pos).take want.toNat) from rfl]
      simp only [hlen, ne_eq, not_true_eq_false, if_false]
      apply (h.cWriteAll _ m).bind
      rw [if_neg (by decide)]
      have hrest := @ih (m.puts put (((m.os.store.data i).drop pos).take want.toNat))
        (pos + want.toNat) (remaining - want) (by omega)
        (by show _ = (m.os.store.data i).length - _; omega)
      have hjoin : ((m.os.store.data i).drop pos).take want.toNat ++
          (m.os.store.data i).drop (pos + want.toNat) = (m.os.store.data i).drop pos := by
        rw [← List.drop_drop, List.take_append_drop]
      rw [h.puts_puts, show (m.puts put _).os = m.os from rfl, hjoin] at hrest
      exact hrest
    · have hzero : remaining.toNat = 0 := by
        rw [gt_iff_lt, UInt64.lt_iff_toNat_lt] at hrem
        exact Nat.eq_zero_of_not_pos hrem
      have hdrop : (m.os.store.data i).drop pos = [] := List.drop_of_length_le (by omega)
      rw [if_neg hrem, hdrop, h.puts_nil]
      exact Proc.yields_done _ _

end Send

/-! ## The two halves of an upload -/

/-- What `do_put` does after the first reply. -/
def answerOffer (filename : Bytes) (fileSize : Nat) (payload : Bytes) : Py Unit := do
  let f ← Py.openRb filename
  seek (ofBE (payload.take 8))
  uploadBody f (fileSize - ofBE (payload.take 8)) (ofBE (payload.take 8))
    (fileSize - ofBE (payload.take 8))
  let _verdict ← readReply

theorem doPut_request (filename : Bytes) (remoteName : Option Bytes) : doPut filename remoteName = (do
    if (← Py.isfile filename) = false then
      fail EXIT_LOCAL ("'".toList ++ decodeReplace filename ++ "' not found locally".toList)
    else do
      let fileSize ← Py.getsize filename
      let digest ← sha256File filename
      writeFrame T_PUT (← Proc.ofExcept (packPut fileSize digest (putRemote filename remoteName)))
      let payload ← readReply
      answerOffer filename fileSize payload) := rfl

/-- The bytes of a PUT. -/
def putBytes (body name : Bytes) : Bytes :=
  frameBytes T_PUT (putPayload body.length (sha256 body) name)

section Halves

variable {N : Type} {net : Net N} {put : N → Bytes → N} {m : Machine N} {i : Nat} {path name : Bytes}

theorem Os.run_openRb_file {os : Os} (hat : os.at? path = some (.file i)) :
    (os.run (.openRb path)).1 = .ok i := by
  simp [Os.run, hat]

theorem putPayload_short {body : Bytes} (hname : name.length < 256 ^ 2) :
    (putPayload body.length (sha256 body) name).length < 256 ^ 8 := by
  simp only [putPayload, List.length_append, toBE_length, sha256_length, HASH_SIZE]
  omega

/-- Python up to the first reply. -/
theorem doPut_wp (h : net.Sends put) {remoteName : Option Bytes} {body : Bytes}
    (hremote : putRemote path remoteName = name) (hat : m.os.at? path = some (.file i))
    (hdata : m.os.store.data i = body) (henc : encodePath name = .ok name)
    (hname : name.length < 256 ^ 2) {Q : Unit → Machine N → Prop} {E : Exn → Machine N → Prop}
    (hrest : (readReply >>= answerOffer path body.length).wp net.env Q E
      (m.puts put (putBytes body name))) :
    (doPut path remoteName).wp net.env Q E m := by
  have hstat : m.os.statAt path = some (.regular body.length) := by
    rw [Os.statAt_file hat, hdata]
  have hsmall : body.length < 256 ^ 8 := by
    have := m.os.small i
    rw [hdata] at this
    have : OFF_MAX = 2 ^ 63 := rfl
    omega
  rw [doPut_request, hremote]
  refine Proc.wp_bind.mpr (Py.wpm_isfile.mpr ?_)
  rw [hstat, show (some (Stat.regular body.length)).any Stat.isReg = true from rfl, if_neg (by decide)]
  refine Proc.wp_bind.mpr ((Py.wpm_getsize hstat).mpr ?_)
  refine Proc.wp_bind.mpr (wpm_sha256File hat ?_)
  rw [hdata, show (Stat.regular body.length).size = body.length from rfl,
    packPut_eq henc hsmall hname, Proc.ofExcept_ok, Proc.done_bind, writeFrame_eq (putPayload_short hname)]
  refine Proc.wp_bind.mpr ((h.sendall _ m).wp ?_ fun e he => by cases he)
  intro u hu
  exact hrest

/-- Python after the first reply. -/
theorem answerOffer_wp (h : net.Sends put) {payload body : Bytes}
    (hat : m.os.at? path = some (.file i)) (hdata : m.os.store.data i = body)
    {Q : Unit → Machine N → Prop} {E : Exn → Machine N → Prop}
    (hfar : ¬ ofBE (payload.take 8) < OFF_MAX → E .overflowError m)
    (hrest : ofBE (payload.take 8) < OFF_MAX → readReply.wp net.env (fun _ => Q ()) E
      (m.puts put (body.drop (ofBE (payload.take 8))))) :
    (answerOffer path body.length payload).wp net.env Q E m := by
  subst hdata
  unfold answerOffer
  refine Proc.wp_bind.mpr (Py.wpm_openRb.mpr ?_)
  rw [Os.run_openRb_file hat]
  show Proc.wp _ (seek _ >>= _) _ _ _
  unfold seek
  by_cases hoff : ofBE (payload.take 8) < OFF_MAX
  · rw [if_pos hoff, Proc.pure_eq, Proc.done_bind]
    refine Proc.wp_bind.mpr ((uploadBody_puts h le_rfl rfl).wp ?_ fun e he => by cases he)
    intro u hu
    exact Proc.wp_bind.mpr (hrest hoff)
  · rw [if_neg hoff]
    exact hfar hoff

/-- The C client up to the first reply. -/
theorem C.doPut_wp (h : net.Sends put) {body : Bytes} (hat : m.os.at? path = some (.file i))
    (hdata : m.os.store.data i = body) (hname : name.length ≤ C.MAX_NAME)
    {Q : Bool → Machine N → Prop} {E : Empty → Machine N → Prop}
    (hrest : (C.receiveStep1 path (UInt64.ofNat body.length)).wp net.env Q E
      (m.puts put (putBytes body name))) :
    (C.doPut path name).wp net.env Q E m := by
  have hmax : C.MAX_NAME = 255 := rfl
  have hstat : m.os.statAt path = some (.regular body.length) := by
    rw [Os.statAt_file hat, hdata]
  rw [C.doPut_request]
  refine Proc.wp_bind.mpr (Proc.wp_perform.mpr ((Net.call_looks (.stat path)).mpr ?_))
  rw [show (m.os.run (.stat path)).1 = some (.regular body.length) from hstat]
  simp only
  rw [show (Stat.regular body.length).isReg = true from rfl, if_neg (by decide)]
  refine Proc.wp_bind.mpr (C.wpm_sha256File_at hat ?_)
  simp only [hdata]
  rw [if_neg (by omega), C.putRequest_eq (by omega)]
  refine Proc.wp_bind.mpr ((C.writeFrame_puts h T_PUT _ m).wp ?_ fun e => e.elim)
  intro ok hok
  cases hok
  rw [if_neg (by decide)]
  exact hrest

/-- The C client after the first reply. -/
theorem C.sendUpload_wp (h : net.Sends put) {off : UInt64} {body : Bytes}
    (hat : m.os.at? path = some (.file i)) (hdata : m.os.store.data i = body)
    {Q : Bool → Machine N → Prop} {E : Empty → Machine N → Prop}
    (hfar : body.length < off.toNat → Q false m)
    (hrest : off.toNat ≤ body.length → C.receiveVerdict.wp net.env Q E
      (m.puts put (body.drop off.toNat))) :
    (C.sendUpload path (UInt64.ofNat body.length) off).wp net.env Q E m := by
  subst hdata
  have hsize : (UInt64.ofNat (m.os.store.data i).length).toNat = (m.os.store.data i).length := by
    have := m.os.small i
    have : OFF_MAX = 2 ^ 63 := rfl
    rw [UInt64.toNat_ofNat']
    omega
  unfold C.sendUpload
  by_cases hoff : off > UInt64.ofNat (m.os.store.data i).length
  · rw [if_pos hoff]
    apply hfar
    rwa [gt_iff_lt, UInt64.lt_iff_toNat_lt, hsize] at hoff
  · have hle : off.toNat ≤ (m.os.store.data i).length := by
      rw [gt_iff_lt, UInt64.lt_iff_toNat_lt, hsize] at hoff
      exact Nat.le_of_not_lt hoff
    have hsub : (UInt64.ofNat (m.os.store.data i).length - off).toNat =
        (m.os.store.data i).length - off.toNat := by
      rw [UInt64.toNat_sub_of_le _ _ (UInt64.le_iff_toNat_le.mpr (by omega)), hsize]
    rw [if_neg hoff]
    refine Proc.wp_bind.mpr (Proc.wp_perform.mpr ((Net.call_looks (.openRb path)).mpr ?_))
    rw [Os.run_openRb_file hat]
    refine Proc.wp_bind.mpr ((C.uploadBody_puts h le_rfl hsub).wp ?_ fun e => e.elim)
    intro ok hok
    cases hok
    rw [if_neg (by decide)]
    exact hrest hle

end Halves

/-! ## Reading a reply -/

/-- What `do_put` makes of a frame: its payload, or the exception that ends the program. -/
def replyOf : Except Exn Frame → Except Exn Bytes
  | .error e => .error e
  | .ok f =>
    if f.type = T_ERROR then
      match unpackError f.payload with
      | .error e => .error e
      | .ok (_, message) => .error (.exit EXIT_SERVER message)
    else .ok f.payload

section Replies

variable {m : Machine Wire}

theorem readReply_yields (input output : Bytes) :
    Yields Net.wire.env readReply (m.wired input output) (replyOf (scanFrame input).1)
      (m.wired (scanFrame input).2 output) := by
  have hread := readFrame_yields (m := m) input output
  unfold readReply
  cases hs : (scanFrame input).1 with
  | error e =>
    rw [hs] at hread
    exact hread.bind_error
  | ok f =>
    rw [hs] at hread
    apply hread.bind
    unfold replyOf
    by_cases herr : f.type = T_ERROR
    · simp only [if_pos herr]
      cases hu : unpackError f.payload with
      | error e => exact Proc.yields_raise e _
      | ok rm => exact Proc.yields_raise _ _
    · simp only [if_neg herr]
      exact Proc.yields_done _ _

/-- An ERROR frame ends the Python client. -/
theorem replyOf_refused {reason : UInt8} {b rest : Bytes} (h : IsErrorFrame reason b) :
    ∃ e, replyOf (scanFrame (b ++ rest)).1 = .error e := by
  obtain ⟨message, hlen, rfl⟩ := h
  cases hs : scanFrame (frameBytes T_ERROR (errorPayload reason message) ++ rest) with
  | mk r left =>
    cases r with
    | error e => exact ⟨e, rfl⟩
    | ok f =>
      obtain ⟨t, p⟩ := f
      obtain ⟨heq, cap, hcap, hle⟩ := scanFrame_eq_ok.mp hs
      have hcap' : cap < 256 ^ 8 := by
        have := @payloadCaps_lt t
        rwa [hcap] at this
      have hshort : (errorPayload reason message).length < 256 ^ 8 := by
        rw [errorPayload_length]
        omega
      obtain ⟨ht, -, -⟩ := frameBytes_append_inj hshort (by omega) heq
      unfold replyOf
      simp only [if_pos ht.symm]
      cases unpackError p with
      | error e => exact ⟨e, rfl⟩
      | ok rm => exact ⟨_, rfl⟩

/-- What the C reader returns is a frame at the front of the stream. -/
theorem C.readFrame_sound (m : Machine Wire) : C.readFrame.wp Net.wire.env
    (fun r m' => (m'.os = m.os ∧ m'.inFlight = m.inFlight ∧ m'.net.output = m.net.output) ∧
      ∀ f, r = some f → f.payload.length ≤ C.PAYLOAD_CAP ∧
        m.net.input = frameBytes f.type f.payload ++ m'.net.input)
    (fun _ _ => False) m := by
  have hread := C.readExact_yields (m := m) HEADER_SIZE m.net.input m.net.output
  rw [Machine.wired_self] at hread
  unfold C.readFrame C.readFrameHeader
  refine Proc.wp_bind.mpr (Proc.wp_bind.mpr (hread.wp ?_ fun e => e.elim))
  intro a ha
  cases ha
  by_cases hlen : HEADER_SIZE ≤ m.net.input.length
  · have hheader : (m.net.input.take HEADER_SIZE).length = HEADER_SIZE := by
      rw [List.length_take]
      omega
    obtain ⟨hsplit, hsize⟩ := header_split hheader
    rw [if_pos hlen]
    simp only
    split
    · exact ⟨⟨rfl, rfl, rfl⟩, fun f hf => by cases hf⟩
    next hmagic =>
    split
    · exact ⟨⟨rfl, rfl, rfl⟩, fun f hf => by cases hf⟩
    next hversion =>
    simp only [Proc.pure_eq, Proc.wp_done]
    generalize hn : C.getU64 ((m.net.input.take HEADER_SIZE).drop 6) = n
    have hnat : n.toNat = ofBE ((m.net.input.take HEADER_SIZE).drop 6) := by
      rw [← hn, C.getU64_toNat (by omega), List.take_of_length_le (by omega)]
    generalize ht : (m.net.input.take HEADER_SIZE).getD 5 0 = t at hsplit ⊢
    -- the header is that of a frame with a payload of `n` bytes
    have hfront : m.net.input.take HEADER_SIZE = MAGIC ++ [VERSION, t] ++ toBE 8 n.toNat := by
      rw [hnat, toBE_ofBE_of_length hsize, ← not_ne_iff.mp hmagic, ← not_ne_iff.mp hversion]
      exact hsplit
    have hinput : m.net.input = MAGIC ++ [VERSION, t] ++ toBE 8 n.toNat ++
        m.net.input.drop HEADER_SIZE := by
      rw [← hfront, List.take_append_drop]
    split
    · exact ⟨⟨rfl, rfl, rfl⟩, fun f hf => by cases hf⟩
    next hcap =>
    split
    · next hzero =>
      refine ⟨⟨rfl, rfl, rfl⟩, fun f hf => ?_⟩
      cases hf
      refine ⟨by simp, ?_⟩
      rw [hzero] at hinput
      simpa [frameBytes, Machine.wired] using hinput
    · have hbody := C.readExact_yields (m := m) n.toNat (m.net.input.drop HEADER_SIZE) m.net.output
      refine Proc.wp_bind.mpr (hbody.wp ?_ fun e => e.elim)
      intro a ha
      cases ha
      split
      · exact ⟨⟨rfl, rfl, rfl⟩, fun f hf => by cases hf⟩
      · next payload hpayload =>
        refine ⟨⟨rfl, rfl, rfl⟩, fun f hf => ?_⟩
        cases hf
        split at hpayload
        · next hle =>
          cases hpayload
          have hplen : ((m.net.input.drop HEADER_SIZE).take n.toNat).length = n.toNat := by
            rw [List.length_take]
            omega
          refine ⟨hplen.trans_le (Nat.le_of_not_lt hcap), ?_⟩
          rw [frameBytes, hplen, List.append_assoc]
          show m.net.input = _ ++ ((m.net.input.drop HEADER_SIZE).take n.toNat ++
            (m.net.input.drop HEADER_SIZE).drop n.toNat)
          rw [List.take_append_drop]
          exact hinput
        · cases hpayload
  · rw [if_neg hlen]
    exact ⟨⟨rfl, rfl, rfl⟩, fun f hf => by cases hf⟩

end Replies

/-! ## Against a peer that answers -/

theorem Quiet.readReply : Quiet readReply := by
  have hframe : Quiet readFrame := by
    refine Quiet.readFrameHeader.bind fun tn => ?_
    obtain ⟨t, n⟩ := tn
    simp only
    split
    · trivial
    split
    · exact (Quiet.readExactBytes n).bind fun _ => trivial
    · trivial
  refine hframe.bind fun f => ?_
  split
  · exact (Quiet.ofExcept _).bind fun _ => trivial
  · trivial

theorem Quiet.cReadFrame : Quiet C.readFrame := by
  refine Quiet.cReadFrameHeader.bind fun header => ?_
  cases header with
  | none => trivial
  | some tn =>
    obtain ⟨t, n⟩ := tn
    simp only
    split
    · trivial
    split
    · trivial
    · refine (Quiet.cReadExact _).bind fun payload => ?_
      cases payload <;> trivial

theorem Quiet.cReceiveVerdict : Quiet C.receiveVerdict := by
  refine Quiet.cReadFrame.bind fun f => ?_
  cases f with
  | none => trivial
  | some f =>
    simp only
    split <;> trivial

/-- The two clients. -/
inductive Impl where
  | python
  | c
  deriving DecidableEq, Repr

/-- What `rtrv_do_put` and its like return. -/
def C.succeeded : Except Empty Bool → Bool
  | .ok ok => ok

/-- A PUT of a client against a peer: it comes to an end, and every end is as `P` says. -/
def Impl.Put (impl : Impl) (serve : Bytes → Bytes) (os : Os) (path name : Bytes)
    (P : Bool → Machine Peer → Prop) : Prop :=
  match impl with
  | .python => Proc.Ensures (Net.served serve).env (doPut path (some name)) ⟨os, ∅, ⟨[], 0⟩⟩
      fun r => P r.isOk
  | .c => Proc.Ensures (Net.served serve).env (C.doPut path name) ⟨os, ∅, ⟨[], 0⟩⟩
      fun r => P (C.succeeded r)

theorem Impl.Put.mono {impl : Impl} {serve : Bytes → Bytes} {os : Os} {path name : Bytes}
    {P P' : Bool → Machine Peer → Prop} (h : impl.Put serve os path name P)
    (hP : ∀ ok m, P ok m → P' ok m) : impl.Put serve os path name P' := by
  cases impl with
  | python => exact ⟨h.1, fun r m hr => hP _ _ (h.2 r m hr)⟩
  | c => exact ⟨h.1, fun r m hr => hP _ _ (h.2 r m hr)⟩

/-- Two things that hold of every end hold of some end together. -/
theorem Impl.Put.exists_both {impl : Impl} {serve : Bytes → Bytes} {os : Os} {path name : Bytes}
    {P P' : Bool → Machine Peer → Prop} (h : impl.Put serve os path name P)
    (h' : impl.Put serve os path name P') : ∃ ok m, P ok m ∧ P' ok m := by
  cases impl with
  | python =>
    obtain ⟨⟨r, m, hr⟩, hP⟩ := h
    exact ⟨_, m, hP r m hr, h'.2 r m hr⟩
  | c =>
    obtain ⟨⟨r, m, hr⟩, hP⟩ := h
    exact ⟨_, m, hP r m hr, h'.2 r m hr⟩

/-- What has been sent stays sent. -/
theorem served_sent_grows {serve : Bytes → Bytes} {ε α : Type} (p : Proc Sys Sys.Ans ε α)
    {m : Machine Peer} {b : Bytes} (h : b <+: m.net.sent) :
    p.wp (Net.served serve).env (fun _ m' => b <+: m'.net.sent) (fun _ m' => b <+: m'.net.sent) m := by
  induction p generalizing m with
  | done a => exact h
  | raise e => exact h
  | call o k ih =>
    refine ⟨by cases o <;> trivial, fun a m' ha => ih a ?_⟩
    cases o with
    | recv n =>
      obtain ⟨x, ⟨c, -, -, -, -, rfl⟩, rfl⟩ := ha
      exact h
    | send b' =>
      obtain ⟨x, ⟨-, rfl⟩, rfl⟩ := ha
      exact h.trans (List.prefix_append _ _)
    | fs o =>
      obtain ⟨-, rfl⟩ := ha
      exact h
    | reserve p =>
      obtain ⟨-, rfl⟩ := ha
      exact h
    | discard p =>
      cases ha
      exact h

section Served

variable {serve : Bytes → Bytes} {os : Os} {path name body : Bytes} {k : Nat} {verdict : Bytes}

/-- The peer offers to go on at `k` and answers the rest of the body with `verdict`. -/
structure Grants (serve : Bytes → Bytes) (body name : Bytes) (k : Nat) (verdict : Bytes) : Prop where
  le : k ≤ body.length
  offer : offerFrame k <+: serve (putBytes body name)
  answer : serve (putBytes body name ++ body.drop k) = offerFrame k ++ verdict
  verdict : verdict = okFrame ∨ ∃ reason, IsErrorFrame reason verdict

theorem scanFrame_offer {k : Nat} (rest : Bytes) :
    scanFrame (offerFrame k ++ rest) = (.ok ⟨T_OK, toBE 8 k⟩, rest) :=
  scanFrame_frameBytes rest (show payloadCaps T_OK = some (64 * 1024) by decide)
    (by rw [toBE_length]; decide)

theorem scanFrame_okFrame : scanFrame okFrame = (.ok ⟨T_OK, []⟩, []) := by
  have h := @scanFrame_frameBytes T_OK [] (64 * 1024) [] (by decide) (by decide)
  rwa [List.append_nil] at h

/-- The client after the offer has been read. -/
def Grants.offered (os : Os) (body name : Bytes) (k : Nat) : Machine Peer :=
  ⟨os, ∅, ⟨putBytes body name, (offerFrame k).length⟩⟩

/-- The client after the rest has been sent sees the verdict. -/
theorem Grants.view (h : Grants serve body name k verdict) :
    Machine.view serve ⟨os, ∅, ⟨putBytes body name ++ body.drop k, (offerFrame k).length⟩⟩ =
      ⟨os, ∅, ⟨verdict, putBytes body name ++ body.drop k⟩⟩ := by
  unfold Machine.view
  simp only [h.answer, List.drop_left]

theorem Grants.readTo (rest : Bytes) (hs : serve (putBytes body name) = offerFrame k ++ rest) :
    Machine.readTo ⟨os, ∅, ⟨putBytes body name, 0⟩⟩ serve ⟨os, ∅, ⟨rest, putBytes body name⟩⟩ =
      Grants.offered os body name k := by
  unfold Machine.readTo Grants.offered
  simp only [hs, List.length_append, Nat.add_sub_cancel]

/-- Whatever the peer answers, the request comes first. -/
theorem put_sends_request (hbody : os.content path = some body) (hne : name ≠ []) (hutf8 : IsUtf8 name)
    (hlen : name.length ≤ 255) (impl : Impl) :
    impl.Put serve os path name fun _ m => putBytes body name <+: m.net.sent := by
  obtain ⟨i, hat, hdata⟩ := Os.content_at hbody
  cases impl with
  | python =>
    have hremote : putRemote path (some name) = name := if_neg hne
    exact Proc.ensures_of_wp (Net.served_live serve) (doPut_wp (Net.served_sends serve) hremote hat hdata
      (encodePath_ok_iff.mpr hutf8) (by omega) (served_sent_grows _ (List.prefix_refl _)))
  | c =>
    exact Proc.ensures_of_wp (Net.served_live serve) (C.doPut_wp (Net.served_sends serve) hat hdata hlen
      (served_sent_grows _ (List.prefix_refl _)))

/-- Nothing but the connection has changed, and nothing has been sent. -/
def Machine.SameDisk (m m' : Machine Wire) : Prop :=
  m'.os = m.os ∧ m'.inFlight = m.inFlight ∧ m'.net.output = m.net.output

/-- Python on the verdict. -/
theorem readReply_verdict {m : Machine Wire}
    (hv : m.net.input = okFrame ∨ ∃ reason, IsErrorFrame reason m.net.input) :
    readReply.wp Net.wire.env (fun _ m' => m.net.input = okFrame ∧ m.SameDisk m')
      (fun _ m' => m.net.input ≠ okFrame ∧ m.SameDisk m') m := by
  have hread := readReply_yields (m := m) m.net.input m.net.output
  rw [Machine.wired_self] at hread
  rcases hv with hok | ⟨reason, herr⟩
  · rw [hok, scanFrame_okFrame] at hread
    refine hread.wp (fun payload _ => ⟨hok, rfl, rfl, rfl⟩) fun e he => ?_
    cases he
  · obtain ⟨e, he⟩ := @replyOf_refused reason m.net.input [] herr
    rw [List.append_nil] at he
    rw [he] at hread
    refine hread.wp (fun payload hp => ?_) fun e' _ => ⟨herr.ne_okFrame, rfl, rfl, rfl⟩
    cases hp

/-- The C client on the verdict. -/
theorem C.receiveVerdict_verdict {m : Machine Wire}
    (hv : m.net.input = okFrame ∨ ∃ reason, IsErrorFrame reason m.net.input) :
    C.receiveVerdict.wp Net.wire.env
      (fun ok m' => (ok = true ↔ m.net.input = okFrame) ∧ m.SameDisk m') (fun _ _ => False) m := by
  unfold C.receiveVerdict
  rcases hv with hok | ⟨reason, herr⟩
  · have hread := @C.readFrame_yields _ m.net.output _ _ _ scanFrame_okFrame m
    rw [← hok, Machine.wired_self] at hread
    refine Proc.wp_bind.mpr (hread.wp ?_ fun e => e.elim)
    intro r hr
    cases hr
    simp only
    rw [if_neg (by decide)]
    exact ⟨by simp [hok], rfl, rfl, rfl⟩
  · refine Proc.wp_bind.mpr (Proc.wp_mono (C.readFrame_sound m) ?_ fun _ _ h => h)
    rintro r m' ⟨hsame, hframe⟩
    cases r with
    | none => exact ⟨by simp [herr.ne_okFrame], hsame⟩
    | some f =>
      obtain ⟨hlen, hinput⟩ := hframe f rfl
      obtain ⟨message, hmsg, hb⟩ := herr
      have hshort : (errorPayload reason message).length < 256 ^ 8 := by
        rw [errorPayload_length]
        omega
      rw [← List.append_nil m.net.input, hb] at hinput
      obtain ⟨ht, -, -⟩ := frameBytes_append_inj hshort (hlen.trans_lt (by decide)) hinput
      simp only [if_pos ht.symm]
      refine ⟨by simp [IsErrorFrame.ne_okFrame ⟨message, hmsg, hb⟩], hsame⟩

/-- **A PUT against a peer that grants it**: the client sends the request and exactly the bytes the peer
lacks, and reports success if the verdict is OK. -/
theorem put_granted (h : Grants serve body name k verdict) (hbody : os.content path = some body)
    (hne : name ≠ []) (hutf8 : IsUtf8 name) (hlen : name.length ≤ 255) (impl : Impl) :
    impl.Put serve os path name fun ok m => (ok = true ↔ verdict = okFrame) ∧ m.os = os ∧
      m.net.sent = putBytes body name ++ body.drop k := by
  obtain ⟨i, hat, hdata⟩ := Os.content_at hbody
  obtain ⟨rest, hs⟩ := h.offer
  have hsends := Net.served_sends serve
  have hbig : body.length < OFF_MAX := by
    rw [← hdata]
    exact os.small i
  have hle := h.le
  have hk : k < 256 ^ 8 := by
    have : OFF_MAX = 2 ^ 63 := rfl
    omega
  have hoff : ofBE ((toBE 8 k).take 8) = k := by
    rw [List.take_of_length_le (by rw [toBE_length]), ofBE_toBE hk]
  have hscan := @scanFrame_offer k rest
  rw [hs] at hscan
  -- what the client sees once it has sent the rest
  let seen : Machine Wire := ⟨os, ∅, ⟨verdict, putBytes body name ++ body.drop k⟩⟩
  have hview : Machine.view serve ⟨os, ∅, ⟨putBytes body name ++ body.drop k,
      (offerFrame k).length⟩⟩ = seen := h.view
  cases impl with
  | python =>
    have hremote : putRemote path (some name) = name := if_neg hne
    have hread := readReply_yields (m := ⟨os, ∅, ⟨[], []⟩⟩) (serve (putBytes body name))
      (putBytes body name)
    rw [hscan] at hread
    have hoffer := hread.served (m := ⟨os, ∅, ⟨putBytes body name, 0⟩⟩) Quiet.readReply (Nat.zero_le _)
    have hto : Machine.readTo ⟨os, ∅, ⟨putBytes body name, 0⟩⟩ serve
        (Machine.wired ⟨os, ∅, ⟨[], []⟩⟩ rest (putBytes body name)) = Grants.offered os body name k :=
      Grants.readTo rest hs.symm
    rw [hto] at hoffer
    have hverdict := readReply_verdict (m := seen) h.verdict
    rw [← hview] at hverdict
    have hend := served_of_wire Quiet.readReply hverdict
    rw [hview] at hend
    refine Proc.ensures_of_wp (Net.served_live serve) (doPut_wp hsends hremote hat hdata
      (encodePath_ok_iff.mpr hutf8) (by omega) ?_)
    refine Proc.wp_bind.mpr (hoffer.wp ?_ fun e he => by cases he)
    intro payload hp
    obtain rfl : payload = toBE 8 k := by
      cases hp
      rfl
    refine answerOffer_wp hsends hat hdata (fun hfar => absurd (by omega) hfar) fun _ => ?_
    rw [hoff]
    refine Proc.wp_mono hend ?_ ?_
    · rintro _ m' ⟨hok, hos, -, hout⟩
      exact ⟨iff_of_true rfl hok, hos, hout⟩
    · rintro _ m' ⟨hbad, hos, -, hout⟩
      exact ⟨iff_of_false Bool.false_ne_true hbad, hos, hout⟩
  | c =>
    have hread := @C.readFrame_yields _ (putBytes body name) _ _ _ hscan ⟨os, ∅, ⟨[], []⟩⟩
    have hoffer := hread.served (m := ⟨os, ∅, ⟨putBytes body name, 0⟩⟩) Quiet.cReadFrame (Nat.zero_le _)
    have hto : Machine.readTo ⟨os, ∅, ⟨putBytes body name, 0⟩⟩ serve
        (Machine.wired ⟨os, ∅, ⟨[], []⟩⟩ rest (putBytes body name)) = Grants.offered os body name k :=
      Grants.readTo rest hs.symm
    rw [hto] at hoffer
    have hget : (C.getU64 (toBE 8 k)).toNat = k := by
      rw [C.getU64_toNat (by rw [toBE_length]), hoff]
    have hverdict := C.receiveVerdict_verdict (m := seen) h.verdict
    rw [← hview] at hverdict
    have hend := served_of_wire Quiet.cReceiveVerdict hverdict
    rw [hview] at hend
    refine Proc.ensures_of_wp (Net.served_live serve) (C.doPut_wp hsends hat hdata hlen ?_)
    unfold C.receiveStep1
    refine Proc.wp_bind.mpr (hoffer.wp ?_ fun e => e.elim)
    intro r hr
    cases hr
    simp only [toBE_length]
    rw [if_neg (by decide), if_neg (by decide)]
    refine C.sendUpload_wp hsends hat hdata (fun hfar => absurd hfar (by omega)) fun _ => ?_
    rw [hget]
    refine Proc.wp_mono hend ?_ fun e => e.elim
    rintro ok m' ⟨hok, hos, -, hout⟩
    exact ⟨hok, hos, hout⟩

end Served

end Retriever
