/-
# Retriever.Verdicts — when an upload is reported as done

A client is put against any stream of bytes. The C client reports an upload only when the stream starts
with an OK frame that states an offset within the file and goes on with another OK frame. Python takes
any frame that is not an ERROR, whatever its payload: `doPut_ok_iff` says which streams it takes, and
`reports_iff` which of them mislead it.
-/
import Retriever.Upload

namespace Retriever

open Proc (Yields Runs)

/-! ## What the stream has to say -/

/-- The stream starts with an OK frame of at least 8 bytes that states an offset within the body and goes
on with an OK frame, and what was sent is the request and the body from that offset on. -/
structure Vouched (stream body name sent : Bytes) (p p' rest : Bytes) : Prop where
  stream : stream = frameBytes T_OK p ++ (frameBytes T_OK p' ++ rest)
  sizes : p.length < 2 ^ 64 ∧ p'.length < 2 ^ 64
  long : 8 ≤ p.length
  within : ofBE (p.take 8) ≤ body.length
  sent : sent = putBytes body name ++ body.drop (ofBE (p.take 8))

/-- The local file has been uploaded, and the server has said so. -/
def SaidSo (os : Os) (path name stream sent : Bytes) : Prop :=
  ∃ body p p' rest, os.content path = some body ∧ Vouched stream body name sent p p' rest

/-- Python reports an upload only when the server has said so. -/
def ReportsVouched (os : Os) (path : Bytes) (remoteName : Option Bytes) (stream : Bytes) : Prop :=
  ∀ m', Runs Net.wire.env (doPut path remoteName) ⟨os, ∅, ⟨stream, []⟩⟩ (.ok ()) m' →
    SaidSo os path (putRemote path remoteName) stream m'.net.output

/-- The C client reports an upload only when the server has said so. -/
def C.ReportsVouched (os : Os) (path name stream : Bytes) : Prop :=
  ∀ m', Runs Net.wire.env (C.doPut path name) ⟨os, ∅, ⟨stream, []⟩⟩ (.ok true) m' →
    SaidSo os path name stream m'.net.output

/-! ## Python -/

/-- The two frames `do_put` reads from a stream, which it takes: neither is an ERROR, and the offset in
the first is one it can seek to. -/
structure Passes (stream : Bytes) (f f' : Frame) : Prop where
  first : (scanFrame stream).1 = .ok f
  notError : f.type ≠ T_ERROR
  near : ofBE (f.payload.take 8) < OFF_MAX
  second : (scanFrame (scanFrame stream).2).1 = .ok f'
  notError' : f'.type ≠ T_ERROR

/-- The request can be made: the file is there, and the name is UTF-8 and not too long. -/
structure Requestable (os : Os) (path name body : Bytes) : Prop where
  file : os.content path = some body
  utf8 : IsUtf8 name
  short : name.length < 2 ^ 16

section Python

variable {os : Os} {path name stream body : Bytes} {remoteName : Option Bytes}

theorem replyOf_eq_ok {r : Except Exn Frame} {payload : Bytes} : replyOf r = .ok payload ↔
    ∃ f, r = .ok f ∧ f.type ≠ T_ERROR ∧ f.payload = payload := by
  constructor
  · intro h
    cases r with
    | error e => cases h
    | ok f =>
      unfold replyOf at h
      simp only at h
      split at h
      · split at h <;> cases h
      · next hne =>
        cases h
        exact ⟨f, rfl, hne, rfl⟩
  · rintro ⟨f, rfl, hne, rfl⟩
    exact if_neg hne

/-- Python after the request. -/
theorem doPut_wire (hreq : Requestable os path name body) (hremote : putRemote path remoteName = name)
    {Q : Unit → Machine Wire → Prop} {E : Exn → Machine Wire → Prop}
    (hpass : ∀ f f', Passes stream f f' → ∀ m', m'.net.output =
      putBytes body name ++ body.drop (ofBE (f.payload.take 8)) → Q () m')
    (hstop : (¬ ∃ f f', Passes stream f f') → ∀ e m', E e m') :
    (doPut path remoteName).wp Net.wire.env Q E ⟨os, ∅, ⟨stream, []⟩⟩ := by
  obtain ⟨i, hat, hdata⟩ := Os.content_at hreq.file
  have hsends := Net.wire_sends
  apply doPut_wp hsends hremote hat hdata (encodePath_ok_iff.mpr hreq.utf8) hreq.short
  have hread := readReply_yields (m := ⟨os, ∅, ⟨stream, []⟩⟩) stream (putBytes body name)
  refine Proc.wp_bind.mpr (hread.wp ?_ ?_)
  · intro payload hp
    obtain ⟨f, hf, hne, rfl⟩ := replyOf_eq_ok.mp hp
    refine answerOffer_wp hsends hat hdata (fun hfar => ?_) fun hnear => ?_
    · refine hstop ?_ _ _
      rintro ⟨f₁, f', hpasses⟩
      obtain rfl : f = f₁ := Except.ok.inj (hf.symm.trans hpasses.first)
      exact hfar hpasses.near
    · have hread' := readReply_yields (m := ⟨os, ∅, ⟨stream, []⟩⟩) (scanFrame stream).2
        (putBytes body name ++ body.drop (ofBE (f.payload.take 8)))
      refine hread'.wp ?_ ?_
      · intro payload' hp'
        obtain ⟨f', hf', hne', -⟩ := replyOf_eq_ok.mp hp'
        exact hpass f f' ⟨hf, hne, hnear, hf', hne'⟩ _ rfl
      · intro e he
        refine hstop ?_ _ _
        rintro ⟨f₁, f', hpasses⟩
        have hok := replyOf_eq_ok.mpr ⟨f', hpasses.second, hpasses.notError', rfl⟩
        rw [hok] at he
        cases he
  · intro e he
    refine hstop ?_ _ _
    rintro ⟨f, f', hpasses⟩
    have hok := replyOf_eq_ok.mpr ⟨f, hpasses.first, hpasses.notError, rfl⟩
    rw [hok] at he
    cases he

/-- A file that is not there ends the program. -/
theorem doPut_no_file {m : Machine Wire} (hfile : ¬ ∃ i, m.os.at? path = some (.file i)) :
    (doPut path remoteName).wp Net.wire.env (fun _ _ => False)
      (fun e _ => ∃ message, e = .exit EXIT_LOCAL message) m := by
  rw [doPut_request]
  refine Proc.wp_bind.mpr (Py.wpm_isfile.mpr ?_)
  have hreg : (m.os.statAt path).any Stat.isReg = false := by
    unfold Os.statAt
    cases hat : m.os.at? path with
    | none => rfl
    | some sl =>
      cases sl with
      | subdir => rfl
      | file i => exact absurd ⟨i, hat⟩ hfile
  rw [hreg, if_pos rfl]
  exact ⟨_, rfl⟩

/-- What is raised for a name that is not UTF-8 or too long. -/
theorem pack_error {k : Nat} (g : Bytes → Bytes → Bytes → Bytes) (hk : k < 256 ^ 8)
    (hname : ¬ (IsUtf8 name ∧ name.length < 2 ^ 16)) :
    (do let nameBytes ← encodePath name
        let k8 ← toBytes 8 k
        let len2 ← toBytes 2 nameBytes.length
        return g k8 len2 nameBytes : Except Exn Bytes) =
      .error (if IsUtf8 name then .overflowError else .unicodeError) := by
  by_cases hutf8 : IsUtf8 name
  · have hlong : ¬ name.length < 2 ^ 16 := fun hshort => hname ⟨hutf8, hshort⟩
    have htwo : toBytes 2 name.length = .error .overflowError := if_neg hlong
    rw [encodePath_ok_iff.mpr hutf8, toBytes_of_lt hk, if_pos hutf8]
    show (toBytes 2 name.length >>= _) = _
    rw [htwo]
    rfl
  · rw [encodePath_error hutf8, if_neg hutf8]
    rfl

theorem packPut_error {fileSize : Nat} {digest : Bytes} (hsize : fileSize < 256 ^ 8)
    (hname : ¬ (IsUtf8 name ∧ name.length < 2 ^ 16)) :
    packPut fileSize digest name = .error (if IsUtf8 name then .overflowError else .unicodeError) :=
  pack_error (fun size8 len2 nameBytes => size8 ++ digest ++ len2 ++ nameBytes) hsize hname

/-- A name that is not UTF-8 or too long ends the program. -/
theorem doPut_unsendable {m : Machine Wire} {i : Nat} (hat : m.os.at? path = some (.file i))
    (hremote : putRemote path remoteName = name) (hname : ¬ (IsUtf8 name ∧ name.length < 2 ^ 16)) :
    (doPut path remoteName).wp Net.wire.env (fun _ _ => False)
      (fun e _ => e = if IsUtf8 name then .overflowError else .unicodeError) m := by
  rw [doPut_request, hremote]
  refine Proc.wp_bind.mpr (Py.wpm_isfile.mpr ?_)
  have hstat : m.os.statAt path = some (.regular (m.os.store.data i).length) := Os.statAt_file hat
  rw [hstat, show (some (Stat.regular (m.os.store.data i).length)).any Stat.isReg = true from rfl,
    if_neg (by decide)]
  refine Proc.wp_bind.mpr ((Py.wpm_getsize hstat).mpr ?_)
  refine Proc.wp_bind.mpr (wpm_sha256File hat ?_)
  have hsmall : (m.os.store.data i).length < 256 ^ 8 := (m.os.small i).trans (by decide)
  rw [show (Stat.regular (m.os.store.data i).length).size = (m.os.store.data i).length from rfl,
    packPut_error hsmall hname]
  rfl

/-- A request that cannot be made ends the program. -/
theorem doPut_unrequestable (hremote : putRemote path remoteName = name)
    (hreq : ¬ ∃ body, Requestable os path name body) :
    (doPut path remoteName).wp Net.wire.env (fun _ _ => False) (fun _ _ => True)
      ⟨os, ∅, ⟨stream, []⟩⟩ := by
  by_cases hfile : ∃ i, os.at? path = some (.file i)
  · obtain ⟨i, hat⟩ := hfile
    have hcontent : os.content path = some (os.store.data i) := by
      rw [Os.content, hat]
      rfl
    have hname : ¬ (IsUtf8 name ∧ name.length < 2 ^ 16) :=
      fun h => hreq ⟨_, hcontent, h.1, h.2⟩
    exact Proc.wp_mono (doPut_unsendable (m := ⟨os, ∅, ⟨stream, []⟩⟩) hat hremote hname)
      (fun _ _ h => h) fun _ _ _ => trivial
  · exact Proc.wp_mono (doPut_no_file (m := ⟨os, ∅, ⟨stream, []⟩⟩) hfile) (fun _ _ h => h)
      fun _ _ _ => trivial

/-- **The streams on which Python reports an upload**, and what it has sent then. -/
theorem doPut_ok_iff {sent : Bytes} :
    (∃ m', Runs Net.wire.env (doPut path remoteName) ⟨os, ∅, ⟨stream, []⟩⟩ (.ok ()) m' ∧
      m'.net.output = sent) ↔
    ∃ body f f', Requestable os path (putRemote path remoteName) body ∧ Passes stream f f' ∧
      sent = putBytes body (putRemote path remoteName) ++ body.drop (ofBE (f.payload.take 8)) := by
  constructor
  · rintro ⟨m', hrun, rfl⟩
    by_cases hreq : ∃ body, Requestable os path (putRemote path remoteName) body
    · obtain ⟨body, hreq⟩ := hreq
      have hwp := doPut_wire (Q := fun _ m' => ∃ f f', Passes stream f f' ∧ m'.net.output =
        putBytes body (putRemote path remoteName) ++ body.drop (ofBE (f.payload.take 8)))
        (E := fun _ _ => True) hreq rfl (fun f f' hp m' hout => ⟨f, f', hp, hout⟩)
        fun _ _ _ => trivial
      rcases Proc.wp_runs hwp hrun with ⟨_, -, f, f', hp, hout⟩ | ⟨e, he, -⟩
      · exact ⟨body, f, f', hreq, hp, hout⟩
      · cases he
    · rcases Proc.wp_runs (doPut_unrequestable rfl hreq) hrun with ⟨_, -, hfalse⟩ | ⟨e, he, -⟩
      · exact hfalse.elim
      · cases he
  · rintro ⟨body, f, f', hreq, hp, rfl⟩
    have hwp := doPut_wire (Q := fun _ m' => ∃ f f', Passes stream f f' ∧ m'.net.output =
      putBytes body (putRemote path remoteName) ++ body.drop (ofBE (f.payload.take 8)))
      (E := fun _ _ => False) hreq rfl (fun f f' hp m' hout => ⟨f, f', hp, hout⟩)
      fun hno => absurd ⟨f, f', hp⟩ hno
    obtain ⟨r, m', hrun⟩ := Proc.exists_runs Net.wire_live (doPut path remoteName)
      ⟨os, ∅, ⟨stream, []⟩⟩
    rcases Proc.wp_runs hwp hrun with ⟨_, rfl, f₁, f₁', hp₁, hout⟩ | ⟨e, -, hfalse⟩
    · obtain rfl : f = f₁ := Except.ok.inj (hp.first.symm.trans hp₁.first)
      exact ⟨m', hrun, hout⟩
    · exact hfalse.elim

/-- A frame that Python reads is at the front of the stream. -/
theorem scanFrame_front {s : Bytes} {f : Frame} (h : (scanFrame s).1 = .ok f) :
    s = frameBytes f.type f.payload ++ (scanFrame s).2 ∧ f.payload.length < 2 ^ 64 := by
  obtain ⟨t, p⟩ := f
  obtain ⟨heq, cap, hcap, hle⟩ := scanFrame_eq_ok.mp (Prod.ext h rfl :
    scanFrame s = (.ok ⟨t, p⟩, (scanFrame s).2))
  have hlt : cap < 256 ^ 8 := by
    have := @payloadCaps_lt t
    rwa [hcap] at this
  exact ⟨heq, lt_of_le_of_lt hle hlt⟩

/-- The two frames are what an upload is reported for. -/
def Proper (body : Bytes) (f f' : Frame) : Prop :=
  f.type = T_OK ∧ 8 ≤ f.payload.length ∧ ofBE (f.payload.take 8) ≤ body.length ∧ f'.type = T_OK

instance (body : Bytes) (f f' : Frame) : Decidable (Proper body f f') :=
  inferInstanceAs (Decidable (_ ∧ _ ∧ _ ∧ _))

theorem Proper.vouched {stream rest rest' body name sent : Bytes} {f f' : Frame} (h : Proper body f f')
    (hfront : stream = frameBytes f.type f.payload ++ rest)
    (hfront' : rest = frameBytes f'.type f'.payload ++ rest') (hlen : f.payload.length < 2 ^ 64)
    (hlen' : f'.payload.length < 2 ^ 64)
    (hsent : sent = putBytes body name ++ body.drop (ofBE (f.payload.take 8))) :
    Vouched stream body name sent f.payload f'.payload rest' := by
  obtain ⟨htype, hlong, hwithin, htype'⟩ := h
  refine ⟨?_, ⟨hlen, hlen'⟩, hlong, hwithin, hsent⟩
  rw [hfront, hfront', htype, htype']

/-- **A stream that misleads Python**: its first two frames are taken, neither is an ERROR, and the first
is not an OK frame that states an offset within the file, or the second is not an OK frame. -/
def Misleads (os : Os) (path name stream : Bytes) : Prop :=
  ∃ body f f', Requestable os path name body ∧ Passes stream f f' ∧ ¬ Proper body f f'

theorem reportsVouched_iff :
    ReportsVouched os path remoteName stream ↔
      ¬ Misleads os path (putRemote path remoteName) stream := by
  constructor
  · rintro h ⟨body, f, f', hreq, hp, hbad⟩
    obtain ⟨m', hrun, hout⟩ := doPut_ok_iff.mpr ⟨body, f, f', hreq, hp, rfl⟩
    obtain ⟨body', p, p', rest, hbody', hv⟩ := h m' hrun
    obtain rfl : body = body' := Option.some.inj (hreq.file.symm.trans hbody')
    -- the frames that were read are the ones the stream starts with
    obtain ⟨hfront, hlen⟩ := scanFrame_front hp.first
    obtain ⟨hfront', hlen'⟩ := scanFrame_front hp.second
    obtain ⟨ht, hpay, hrest⟩ := frameBytes_append_inj hv.sizes.1 hlen (hv.stream.symm.trans hfront)
    obtain ⟨ht', -, -⟩ := frameBytes_append_inj hv.sizes.2 hlen' (hrest.trans hfront')
    exact hbad ⟨ht.symm, hpay ▸ hv.long, hpay ▸ hv.within, ht'.symm⟩
  · intro h m' hrun
    obtain ⟨body, f, f', hreq, hp, hout⟩ := doPut_ok_iff.mp ⟨m', hrun, rfl⟩
    have hproper : Proper body f f' := by
      by_contra hbad
      exact h ⟨body, f, f', hreq, hp, hbad⟩
    obtain ⟨hfront, hlen⟩ := scanFrame_front hp.first
    obtain ⟨hfront', hlen'⟩ := scanFrame_front hp.second
    exact ⟨body, _, _, _, hreq.file, hproper.vouched hfront hfront' hlen hlen' hout⟩

end Python

/-! ## The C client -/

section C

variable {os : Os} {path name stream body : Bytes}

/-- Without a file, or with a name that is too long, there is no upload. -/
theorem C.doPut_unrequestable {m : Machine Wire}
    (h : ¬ ((∃ i, m.os.at? path = some (.file i)) ∧ name.length ≤ C.MAX_NAME)) :
    (C.doPut path name).wp Net.wire.env (fun ok _ => ok = false) (fun _ _ => False) m := by
  rw [C.doPut_request]
  refine Proc.wp_bind.mpr (Proc.wp_perform.mpr ((Net.call_looks (.stat path)).mpr ?_))
  cases hat : m.os.at? path with
  | none =>
    rw [show (m.os.run (.stat path)).1 = none from Os.statAt_none hat]
    rfl
  | some sl =>
    cases sl with
    | subdir =>
      rw [show (m.os.run (.stat path)).1 = _ from Os.statAt_dir hat]
      rfl
    | file i =>
      rw [show (m.os.run (.stat path)).1 = _ from Os.statAt_file hat]
      simp only
      rw [show (Stat.regular (m.os.store.data i).length).isReg = true from rfl, if_neg (by decide)]
      refine Proc.wp_bind.mpr (C.wpm_sha256File_at hat ?_)
      simp only
      rw [if_pos (by
        by_contra hname
        exact h ⟨⟨i, hat⟩, Nat.le_of_not_lt hname⟩)]
      rfl

/-- The C client after the request. -/
theorem C.receiveStep1_vouched (name : Bytes) {i : Nat} {m : Machine Wire}
    (hat : m.os.at? path = some (.file i)) (hdata : m.os.store.data i = body)
    (hout : m.net.output = putBytes body name) :
    (C.receiveStep1 path (UInt64.ofNat body.length)).wp Net.wire.env
      (fun ok m' => ok = true → ∃ p p' rest, Vouched m.net.input body name m'.net.output p p' rest)
      (fun _ _ => False) m := by
  unfold C.receiveStep1
  refine Proc.wp_bind.mpr (Proc.wp_mono (C.readFrame_sound m) ?_ fun _ _ h => h)
  rintro r m₁ ⟨⟨hos, -, hout₁⟩, hframe⟩
  cases r with
  | none => exact fun h => by cases h
  | some f =>
    obtain ⟨hlen, hfront⟩ := hframe f rfl
    simp only
    split
    · exact fun h => by cases h
    split
    · exact fun h => by cases h
    next htype =>
    rw [not_or, not_ne_iff, Nat.not_lt] at htype
    have hoff : (C.getU64 f.payload).toNat = ofBE (f.payload.take 8) := C.getU64_toNat htype.2
    rw [← hos] at hat hdata
    refine C.sendUpload_wp Net.wire_sends hat hdata (fun _ h => by cases h) fun hwithin => ?_
    rw [hoff] at hwithin ⊢
    unfold C.receiveVerdict
    refine Proc.wp_bind.mpr (Proc.wp_mono (C.readFrame_sound _) ?_ fun _ _ h => h)
    rintro r' m₂ ⟨⟨-, -, hout₂⟩, hframe'⟩
    cases r' with
    | none => exact fun h => by cases h
    | some f' =>
      obtain ⟨hlen', hfront'⟩ := hframe' f' rfl
      simp only
      split
      · exact fun h => by cases h
      · intro htype'
        have hproper : Proper body f f' := ⟨htype.1, htype.2, hwithin, of_decide_eq_true htype'⟩
        refine ⟨_, _, _, hproper.vouched hfront hfront' (hlen.trans_lt (by decide))
          (hlen'.trans_lt (by decide)) ?_⟩
        rw [hout₂, ← hout, ← hout₁]
        rfl

/-- The C client reports an upload only when the server has said so. -/
theorem C.reportsVouched (os : Os) (path name stream : Bytes) :
    C.ReportsVouched os path name stream := by
  intro m' hrun
  by_cases h : (∃ i, os.at? path = some (.file i)) ∧ name.length ≤ C.MAX_NAME
  · obtain ⟨⟨i, hat⟩, hname⟩ := h
    have hcontent : os.content path = some (os.store.data i) := by
      rw [Os.content, hat]
      rfl
    have hwp := C.doPut_wp (m := ⟨os, ∅, ⟨stream, []⟩⟩) Net.wire_sends hat rfl hname
      (C.receiveStep1_vouched name hat rfl rfl)
    rcases Proc.wp_runs hwp hrun with ⟨ok, hok, hv⟩ | ⟨e, -, hfalse⟩
    · cases hok
      obtain ⟨p, p', rest, hv⟩ := hv rfl
      exact ⟨_, p, p', rest, hcontent, hv⟩
    · exact hfalse.elim
  · rcases Proc.wp_runs (C.doPut_unrequestable h) hrun with ⟨ok, hok, hfalse⟩ | ⟨e, -, hfalse⟩
    · cases hok
      cases hfalse
    · exact hfalse.elim

end C

/-! ## Both clients -/

end Retriever
