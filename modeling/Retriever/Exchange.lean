/-
# Retriever.Exchange — a GET and its reply

Both clients send the same bytes for a GET, and the server's answer to them is `serverReply`. After
the request a client only reads, so what it makes of the reply is what it makes of a fixed input.
Python is put in front of a server that answers in full, the C client also in front of one whose
reply is cut off at any byte.
-/
import Retriever.Fetch

namespace Retriever

open Os (SLASH DOT)
open Proc (Yields)

/-! ## The request -/

theorem getPayload_length {offset : Nat} {token name : Bytes} (ht : token.length = TOKEN_SIZE) :
    (getPayload offset token name).length = GET_PREFIX + name.length := by
  simp only [getPayload, List.length_append, toBE_length, ht, GET_PREFIX]

/-- The server reads a GET as what it was made of. -/
theorem parseGet_getPayload {offset : Nat} {token name : Bytes} (ho : offset < 256 ^ 8)
    (ht : token.length = TOKEN_SIZE) (hn : name.length < 256 ^ 2) :
    parseGet (getPayload offset token name) = .ok ⟨offset, token, decodeReplace name⟩ := by
  have hlen := @getPayload_length offset token name ht
  have hfront : (toBE 8 offset ++ token).length = 16 := by
    rw [List.length_append, toBE_length, ht]
    rfl
  have hbytes : getPayload offset token name =
      (toBE 8 offset ++ token) ++ (toBE 2 name.length ++ name) := by
    unfold getPayload
    rw [List.append_assoc]
  unfold parseGet
  rw [if_neg (by omega)]
  rw [hbytes, List.drop_left' hfront, parseName_named hn]
  simp only [ne_eq, not_true_eq_false, if_false, Except.ok.injEq, GetRequest.mk.injEq, and_true]
  refine ⟨?_, ?_⟩
  · rw [List.append_assoc, List.take_left' (toBE_length 8 _), ofBE_toBE ho]
  · rw [List.append_assoc, List.drop_left' (toBE_length 8 _)]
    exact List.take_left' ht

theorem packGet_eq {offset : Nat} {token name : Bytes} (henc : encodePath name = .ok name)
    (ho : offset < 256 ^ 8) (hn : name.length < 256 ^ 2) :
    packGet offset token name = .ok (getPayload offset token name) := by
  unfold packGet
  rw [henc, toBytes_of_lt ho]
  show (toBytes 2 name.length >>= _) = _
  rw [toBytes_of_lt hn]
  rfl

theorem C.putU16_eq {n : Nat} (h : n < 256 ^ 2) : C.putU16 (UInt16.ofNat n) = toBE 2 n := by
  have hnat : (UInt16.ofNat n).toNat = n := by
    rw [UInt16.toNat_ofNat']
    exact Nat.mod_eq_of_lt h
  have hhi : ((UInt16.ofNat n >>> 8) &&& 0xFF).toUInt8 = UInt8.ofNat (n / 256) := by
    apply UInt8.toNat_inj.mp
    rw [UInt16.toNat_toUInt8, UInt16.toNat_and, UInt16.toNat_shiftRight, hnat, UInt8.toNat_ofNat',
      Nat.shiftRight_eq_div_pow]
    show (n / 256 &&& 2 ^ 8 - 1) % 256 = _
    rw [Nat.and_two_pow_sub_one_eq_mod]
    omega
  have hlo : (UInt16.ofNat n &&& 0xFF).toUInt8 = UInt8.ofNat n := by
    apply UInt8.toNat_inj.mp
    rw [UInt16.toNat_toUInt8, UInt16.toNat_and, hnat, UInt8.toNat_ofNat']
    show (n &&& 2 ^ 8 - 1) % 256 = _
    rw [Nat.and_two_pow_sub_one_eq_mod]
    omega
  unfold C.putU16
  rw [hhi, hlo]
  rfl

/-! ## Sending -/

section Send

variable {serve : Bytes → Bytes} {m : Machine Peer}

theorem Net.served_sends (serve : Bytes → Bytes) :
    (Net.served serve).Sends fun x b => ⟨x.sent ++ b, x.taken⟩ where
  may _ _ := trivial
  gives h := h
  nil x := by rw [List.append_nil]
  append x a b := by rw [List.append_assoc]

/-- The machine after `b` has been sent. -/
def Machine.sends (m : Machine Peer) (b : Bytes) : Machine Peer :=
  { m with net := ⟨m.net.sent ++ b, m.net.taken⟩ }

theorem writeFrame_served {t : UInt8} {payload : Bytes} (h : payload.length < 256 ^ 8) :
    Yields (Net.served serve).env (writeFrame t payload) m (.ok ())
      (m.sends (frameBytes t payload)) := by
  rw [writeFrame_eq h]
  exact (Net.served_sends serve).sendall _ m

theorem C.writeFrame_served (t : UInt8) (payload : Bytes) :
    Yields (Net.served serve).env (C.writeFrame t payload) m (.ok true)
      (m.sends (frameBytes t payload)) :=
  C.writeFrame_puts (Net.served_sends serve) t payload m

end Send

/-! ## Programs that only use the disk -/

section Disk

variable {A : Sys → Prop} {ε : Type}

theorem uses_fs (hA : ∀ o, A (.fs o)) (o : FsOp) :
    (Proc.perform (Sys.fs o) : Proc Sys Sys.Ans ε o.Ans).Uses A fun _ => True :=
  Proc.uses_perform (hA o)

theorem uses_orRaise {α : Type} (x : Except SysErr α) : (Py.orRaise x).Uses A fun _ => True := by
  cases x <;> trivial

theorem uses_sha256File {p : Bytes} (hopen : A (.fs (.openRb p)))
    (hread : ∀ i pos n, A (.fs (.read i pos n))) : (sha256File p).Uses A fun _ => True := by
  have hloop : ∀ f fuel acc, (Py.readAll f (1024 * 1024) fuel acc).Uses A fun _ => True := by
    intro f fuel
    induction fuel with
    | zero => exact fun _ => trivial
    | succ fuel ih =>
      intro acc
      unfold Py.readAll
      refine Proc.uses_bind (Proc.uses_bind (Proc.uses_perform (hread _ _ _)) fun a =>
        uses_orRaise a) fun chunk => ?_
      split
      · trivial
      · exact ih _
  refine Proc.uses_bind (Proc.uses_bind (Proc.uses_perform hopen) fun a => uses_orRaise a) fun f => ?_
  exact Proc.uses_bind (hloop f _ _) fun _ => trivial

theorem uses_verifyDownload (hA : ∀ o, A (.fs o)) (dest p digest : Bytes) :
    (verifyDownload dest p digest).Uses A fun _ => True := by
  refine Proc.uses_bind (uses_sha256File (hA _) fun _ _ _ => hA _) fun h => ?_
  split
  · exact Proc.uses_bind (Proc.uses_bind (uses_fs hA _) fun a => uses_orRaise a) fun _ => trivial
  · exact Proc.uses_bind (uses_fs hA _) fun a => uses_orRaise a

theorem C.uses_sha256File (hA : ∀ o, A (.fs o)) (p : Bytes) :
    (C.sha256File p).Uses A fun _ => True := by
  have hloop : ∀ f fuel acc, (C.freadLoop f fuel acc).Uses A fun _ => True := by
    intro f fuel
    induction fuel with
    | zero => exact fun _ => trivial
    | succ fuel ih =>
      intro acc
      unfold C.freadLoop
      refine Proc.uses_bind (uses_fs hA _) fun a => ?_
      cases a with
      | error e => trivial
      | ok buf =>
        simp only
        split
        · trivial
        · exact ih _
  refine Proc.uses_bind (uses_fs hA _) fun a => ?_
  cases a with
  | error e => trivial
  | ok f =>
    refine Proc.uses_bind (hloop f _ _) fun a => ?_
    cases a <;> trivial

theorem C.uses_verifyDownload (hA : ∀ o, A (.fs o)) (dest p digest : Bytes) :
    (C.verifyDownload dest p digest).Uses A fun _ => True := by
  refine Proc.uses_bind (C.uses_sha256File hA p) fun a => ?_
  cases a with
  | none => trivial
  | some actual =>
    simp only
    split
    · exact Proc.uses_bind (uses_fs hA _) fun _ => trivial
    · refine Proc.uses_bind (uses_fs hA _) fun a => ?_
      cases a <;> trivial

end Disk

/-! ## Reading -/

/-- The program sends nothing. -/
def Quiet {ε α : Type} (p : Proc Sys Sys.Ans ε α) : Prop := p.Uses Sys.Silent fun _ => True

namespace Quiet

variable {ε α β : Type}

theorem bind {p : Proc Sys Sys.Ans ε α} {f : α → Proc Sys Sys.Ans ε β} (hp : Quiet p)
    (hf : ∀ a, Quiet (f a)) : Quiet (p >>= f) := Proc.uses_bind hp hf

theorem recv (n : Nat) : Quiet (Proc.perform (Sys.recv n) : Proc Sys Sys.Ans ε _) :=
  Proc.uses_perform trivial

theorem fs (o : FsOp) : Quiet (Proc.perform (Sys.fs o) : Proc Sys Sys.Ans ε o.Ans) :=
  Proc.uses_perform trivial

theorem ofExcept (r : Except ε α) : Quiet (Proc.ofExcept r : Proc Sys Sys.Ans ε α) :=
  Proc.uses_ofExcept fun _ _ => trivial

theorem orRaise {α : Type} (x : Except SysErr α) : Quiet (Py.orRaise x) := uses_orRaise x

theorem pyRecv (n : Nat) : Quiet (Py.recv n) := (recv n).bind fun a => orRaise a

theorem openAb (p : Bytes) : Quiet (Py.openAb p) := (fs (.openAb p)).bind fun a => orRaise a

theorem openWb (p : Bytes) : Quiet (Py.openWb p) := (fs (.openWb p)).bind fun a => orRaise a

theorem write (i : Nat) (b : Bytes) : Quiet (Py.write i b) := (fs (.write i b)).bind fun a => orRaise a

theorem remove (p : Bytes) : Quiet (Py.remove p) := (fs (.unlink p)).bind fun a => orRaise a

theorem readExactBytes (n : Nat) : Quiet (readExactBytes n) := by
  have hloop : ∀ fuel data, Quiet (readExactLoop n fuel data) := by
    intro fuel
    induction fuel with
    | zero => exact fun _ => trivial
    | succ fuel ih =>
      intro data
      unfold readExactLoop
      split
      · refine (pyRecv _).bind fun chunk => ?_
        split
        · trivial
        · exact ih _
      · trivial
  exact hloop n []

theorem readFrameHeader : Quiet readFrameHeader := (readExactBytes _).bind fun _ => ofExcept _

theorem readErrorPayload (n : Nat) : Quiet (readErrorPayload n) := by
  unfold Retriever.readErrorPayload
  split
  · trivial
  · exact (readExactBytes _).bind fun _ => ofExcept _

theorem saveBody (f fuel remaining : Nat) : Quiet (saveBody f fuel remaining) := by
  induction fuel generalizing remaining with
  | zero => trivial
  | succ fuel ih =>
    unfold Retriever.saveBody
    split
    · refine (pyRecv _).bind fun chunk => ?_
      split
      · trivial
      · exact (write _ _).bind fun _ => ih _
    · trivial

theorem receiveDownload (dest : Bytes) (existing : Option Bytes) (metadata : Bytes) :
    Quiet (receiveDownload dest existing metadata) := by
  have hopen : ∀ (p : Bytes) (size start : Nat), Quiet (fetchBody p size start) := by
    intro p size start
    refine Proc.uses_tryCatch (Y := fun _ => True) ?_ fun _ _ => trivial
    split
    · exact (openAb p).bind fun f => saveBody f _ _
    · exact (openWb p).bind fun f => saveBody f _ _
  have hverify : ∀ p digest : Bytes, Quiet (verifyDownload dest p digest) :=
    fun p digest => uses_verifyDownload (fun _ => trivial) dest p digest
  unfold Retriever.receiveDownload
  simp only
  split
  · split
    · exact (remove _).bind fun _ => (hopen _ _ _).bind fun _ => hverify _ _
    · exact (hopen _ _ _).bind fun _ => hverify _ _
  · exact (hopen _ _ _).bind fun _ => hverify _ _

theorem receiveGetReply (dest : Bytes) (existing : Option Bytes) :
    Quiet (receiveGetReply dest existing) := by
  refine readFrameHeader.bind fun tn => ?_
  obtain ⟨t, n⟩ := tn
  simp only
  split
  · exact (readErrorPayload n).bind fun _ => trivial
  · exact (readExactBytes _).bind fun _ => receiveDownload _ _ _

/-! ### The C client -/

theorem cReadExact (n : Nat) : Quiet (C.readExact n) := by
  have hloop : ∀ fuel data, Quiet (C.readExactLoop n fuel data) := by
    intro fuel
    induction fuel with
    | zero => exact fun _ => trivial
    | succ fuel ih =>
      intro data
      unfold C.readExactLoop
      split
      · refine (recv _).bind fun a => ?_
        cases a with
        | error e => trivial
        | ok chunk =>
          simp only
          split
          · trivial
          · exact ih _
      · trivial
  exact hloop n []

theorem cReadFrameHeader : Quiet C.readFrameHeader := by
  refine (cReadExact _).bind fun a => ?_
  cases a with
  | none => trivial
  | some header =>
    simp only
    split
    · trivial
    split <;> trivial

theorem cSaveBody (f fuel : Nat) (remaining : UInt64) : Quiet (C.saveBody f fuel remaining) := by
  induction fuel generalizing remaining with
  | zero => trivial
  | succ fuel ih =>
    unfold C.saveBody
    split
    · refine (cReadExact _).bind fun a => ?_
      cases a with
      | none => trivial
      | some buf =>
        refine (fs _).bind fun a => ?_
        cases a with
        | error e => trivial
        | ok u => exact ih _
    · trivial

theorem cReceiveDownload (dest : Bytes) (existing : C.Found) (metadata : Bytes) :
    Quiet (C.receiveDownload dest existing metadata) := by
  have hverify : ∀ p digest : Bytes, Quiet (C.verifyDownload dest p digest) :=
    fun p digest => C.uses_verifyDownload (fun _ => trivial) dest p digest
  have htail : ∀ (p digest : Bytes) (start remaining : UInt64),
      Quiet (C.fetchBody dest p digest start remaining) := by
    intro p digest start remaining
    have hopen : Quiet (C.fopenPartial p start) := by
      unfold C.fopenPartial
      split
      · exact fs _
      · exact fs _
    refine hopen.bind fun a => ?_
    cases a with
    | error e => trivial
    | ok out =>
      refine (cSaveBody _ _ _).bind fun ok => ?_
      split
      · trivial
      · exact hverify _ _
  unfold C.receiveDownload
  simp only
  split
  · trivial
  · split
    · cases existing with
      | found path size token => exact (fs _).bind fun _ => htail _ _ _ _
      | absent => exact htail _ _ _ _
      | failed => exact htail _ _ _ _
    · exact htail _ _ _ _

theorem cReceiveGetReply (dest : Bytes) (existing : C.Found) :
    Quiet (C.receiveGetReply dest existing) := by
  refine cReadFrameHeader.bind fun a => ?_
  cases a with
  | none => trivial
  | some tn =>
    obtain ⟨t, n⟩ := tn
    simp only
    split
    · split
      · trivial
      · exact (cReadExact _).bind fun _ => trivial
    · split
      · trivial
      · refine (cReadExact _).bind fun a => ?_
        cases a with
        | none => trivial
        | some metadata => exact cReceiveDownload _ _ _

end Quiet

/-! ## The reply -/

section Reply

variable {m m' : Machine Wire} {dest F reply : Bytes} {start : Nat}

theorem getHeader_length (c : Bytes) (start : Nat) : (getHeader c start).length = HEADER_SIZE := by
  simp [getHeader, MAGIC, HEADER_SIZE]

/-- The header of a reply that is not an ERROR. -/
def okHeader (payloadLen : Nat) : Bytes := MAGIC ++ [VERSION, T_OK] ++ toBE 8 payloadLen

theorem okHeader_length (n : Nat) : (okHeader n).length = HEADER_SIZE := by
  simp [okHeader, MAGIC, HEADER_SIZE]

/-- Python comes to the metadata, whatever the header announces. -/
theorem receiveGetReply_front {existing : Option Bytes} {metadata rest : Bytes} {n : Nat}
    (hmd : metadata.length = GET_META) (hn : n < 256 ^ 8)
    (hin : m.net.input = okHeader n ++ metadata ++ rest) {Q : Unit → Machine Wire → Prop}
    {E : Exn → Machine Wire → Prop}
    (h : (receiveDownload dest existing metadata).wp Net.wire.env Q E (m.wired rest m.net.output)) :
    (receiveGetReply dest existing).wp Net.wire.env Q E m := by
  have hhead := readFrameHeader_yields (m := m) m.net.input m.net.output
  rw [Machine.wired_self, hin, List.append_assoc,
    if_pos (by rw [List.length_append, okHeader_length]; exact Nat.le_add_right _ _),
    List.take_left' (okHeader_length n), List.drop_left' (okHeader_length n),
    (parseHeader_eq_ok (okHeader_length n)).mpr ⟨rfl, hn, by decide⟩] at hhead
  have hmeta := readExactBytes_yields (m := m) GET_META (metadata ++ rest) m.net.output
  rw [if_pos (by rw [List.length_append, hmd]; exact Nat.le_add_right _ _),
    List.take_left' hmd, List.drop_left' hmd] at hmeta
  refine Proc.wp_bind.mpr (hhead.wp ?_ fun e he => by cases he)
  intro a ha
  cases ha
  simp only
  rw [if_neg (by decide)]
  refine Proc.wp_bind.mpr (hmeta.wp ?_ fun e he => by cases he)
  intro a ha
  cases ha
  exact h

/-- Python on a reply that brings the file. -/
theorem receiveGetReply_served {existing : Option Bytes} {r : Except Exn Unit} {metadata : Bytes}
    (hmd : metadata = getMeta F start) (hin : m.net.input = getReply F start)
    (hsmall : F.length < OFF_MAX)
    (h : Yields Net.wire.env (receiveDownload dest existing metadata)
      (m.wired (F.drop start) m.net.output) r m') :
    Yields Net.wire.env (receiveGetReply dest existing) m r m' := by
  have hmax : OFF_MAX + GET_META < 256 ^ 8 := by decide
  have hlen : metadata.length = GET_META := by rw [hmd, getMeta_length]
  refine receiveGetReply_front (n := GET_META + (F.length - start)) hlen (by omega) ?_ h
  rw [hin, getReply_eq, hmd]
  rfl

/-- Python on a refusal. -/
theorem receiveGetReply_refused {existing : Option Bytes} {reason : UInt8}
    (h : IsErrorFrame reason m.net.input) :
    ∃ e m', Yields Net.wire.env (receiveGetReply dest existing) m (.error e) m' ∧ m'.os = m.os := by
  obtain ⟨message, hlen, hb⟩ := h
  generalize hp : errorPayload reason message = payload at hb
  have hplen : payload.length < 256 ^ 8 := by
    rw [← hp, errorPayload_length]
    omega
  have hfront : (MAGIC ++ [VERSION, T_ERROR] ++ toBE 8 payload.length).length = HEADER_SIZE := by
    simp [MAGIC, HEADER_SIZE]
  have hhead := readFrameHeader_yields (m := m) m.net.input m.net.output
  rw [Machine.wired_self, hb, frameBytes,
    if_pos (by rw [List.length_append, hfront]; exact Nat.le_add_right _ _),
    List.take_left' hfront, List.drop_left' hfront,
    (parseHeader_eq_ok hfront).mpr ⟨rfl, hplen, by decide⟩] at hhead
  -- whatever the payload says, the program fails
  have hpayload : ∃ e m', Yields Net.wire.env
      (readErrorPayload payload.length >>= fun rm => fail EXIT_SERVER rm.2 : Py Unit)
      (m.wired payload m.net.output) (.error e) m' ∧ m'.os = m.os := by
    unfold readErrorPayload
    split
    · exact ⟨_, _, Yields.bind_error (Proc.yields_raise _ _), rfl⟩
    · have hread := readExactBytes_yields (m := m) payload.length payload m.net.output
      rw [if_pos le_rfl] at hread
      cases hu : unpackError (payload.take payload.length) with
      | error e =>
        refine ⟨e, m.wired (payload.drop payload.length) m.net.output, Yields.bind_error (hread.bind ?_), rfl⟩
        rw [hu]
        exact Proc.yields_ofExcept _ _
      | ok rm =>
        refine ⟨.exit EXIT_SERVER rm.2, m.wired (payload.drop payload.length) m.net.output,
          Yields.bind (a := rm) (hread.bind ?_) (Proc.yields_raise _ _), rfl⟩
        rw [hu]
        exact Proc.yields_ofExcept _ _
  obtain ⟨e, m', hy, hos⟩ := hpayload
  refine ⟨e, m', hhead.bind ?_, hos⟩
  simp only
  rw [if_pos trivial]
  exact hy

/-- The C client comes to the metadata, whatever the header announces. -/
theorem C.receiveGetReply_front {existing : C.Found} {metadata rest : Bytes} {n : Nat}
    (hmd : metadata.length = GET_META) (hin : m.net.input = okHeader n ++ metadata ++ rest)
    {Q : Bool → Machine Wire → Prop} {E : Empty → Machine Wire → Prop}
    (h : (C.receiveDownload dest existing metadata).wp Net.wire.env Q E (m.wired rest m.net.output)) :
    (C.receiveGetReply dest existing).wp Net.wire.env Q E m := by
  have hhead := C.readFrameHeader_yields T_OK n (metadata ++ rest) m.net.output m
  rw [← List.append_assoc, show MAGIC ++ [VERSION, T_OK] ++ toBE 8 n = okHeader n from rfl, ← hin,
    Machine.wired_self] at hhead
  have hmeta := C.readExact_yields (m := m) GET_META (metadata ++ rest) m.net.output
  rw [if_pos (by rw [List.length_append, hmd]; exact Nat.le_add_right _ _),
    List.take_left' hmd, List.drop_left' hmd] at hmeta
  refine Proc.wp_bind.mpr (hhead.wp ?_ fun e => e.elim)
  intro a ha
  cases ha
  simp only
  rw [if_neg (by decide), if_neg (by decide)]
  refine Proc.wp_bind.mpr (hmeta.wp ?_ fun e => e.elim)
  intro a ha
  cases ha
  exact h

/-- The C client on the front of a reply that brings the file. -/
theorem C.receiveGetReply_served {existing : C.Found} {r : Except Empty Bool} {metadata : Bytes}
    (hmd : metadata = getMeta F start) (hin : m.net.input = getHeader F start ++ metadata ++ reply)
    (h : Yields Net.wire.env (C.receiveDownload dest existing metadata)
      (m.wired reply m.net.output) r m') :
    Yields Net.wire.env (C.receiveGetReply dest existing) m r m' :=
  C.receiveGetReply_front (n := GET_META + (F.length - start)) (by rw [hmd, getMeta_length]) hin h

/-- The C client gives up, and the disk is as it was. -/
def C.GivesUp (m : Machine Wire) (p : CProg Bool) : Prop :=
  ∃ rest, Yields Net.wire.env p m (.ok false) (m.wired rest m.net.output)

theorem C.readFrameHeader_short (h : m.net.input.length < HEADER_SIZE) :
    Yields Net.wire.env C.readFrameHeader m (.ok none)
      (m.wired (m.net.input.drop HEADER_SIZE) m.net.output) := by
  have hread := C.readExact_yields (m := m) HEADER_SIZE m.net.input m.net.output
  rw [if_neg (by omega), Machine.wired_self] at hread
  exact hread.bind (Proc.yields_done _ _)

/-- The C client on a reply that is cut off before the body. -/
theorem C.receiveGetReply_short {existing : C.Found}
    (hin : m.net.input <+: getHeader F start ++ getMeta F start)
    (hlt : m.net.input.length < HEADER_SIZE + GET_META) :
    C.GivesUp m (C.receiveGetReply dest existing) := by
  by_cases hshort : m.net.input.length < HEADER_SIZE
  · exact ⟨_, (C.readFrameHeader_short hshort).bind (Proc.yields_done _ _)⟩
  · obtain ⟨t, ht⟩ : getHeader F start <+: m.net.input :=
      List.prefix_of_prefix_length_le (List.prefix_append _ _) hin (by rw [getHeader_length]; omega)
    have hhead := C.readFrameHeader_yields T_OK (GET_META + (F.length - start)) t m.net.output m
    rw [show MAGIC ++ [VERSION, T_OK] ++ toBE 8 (GET_META + (F.length - start)) =
      getHeader F start from rfl, ht, Machine.wired_self] at hhead
    have hmeta := C.readExact_yields (m := m) GET_META t m.net.output
    rw [if_neg (by rw [← ht, List.length_append, getHeader_length] at hlt; omega)] at hmeta
    refine ⟨t.drop GET_META, hhead.bind ?_⟩
    simp only
    rw [if_neg (by decide), if_neg (by decide)]
    exact hmeta.bind (Proc.yields_done _ _)

/-- The C client on the front of a refusal. -/
theorem C.receiveGetReply_refused {existing : C.Found} {reason : UInt8} {b : Bytes}
    (h : IsErrorFrame reason b) (hin : m.net.input <+: b) :
    C.GivesUp m (C.receiveGetReply dest existing) := by
  obtain ⟨message, -, rfl⟩ := h
  generalize errorPayload reason message = payload at hin
  by_cases hshort : m.net.input.length < HEADER_SIZE
  · exact ⟨_, (C.readFrameHeader_short hshort).bind (Proc.yields_done _ _)⟩
  · have hfront : (MAGIC ++ [VERSION, T_ERROR] ++ toBE 8 payload.length).length = HEADER_SIZE := by
      simp [MAGIC, HEADER_SIZE]
    obtain ⟨t, ht⟩ : MAGIC ++ [VERSION, T_ERROR] ++ toBE 8 payload.length <+: m.net.input :=
      List.prefix_of_prefix_length_le (List.prefix_append _ _) hin (by rw [hfront]; omega)
    have hhead := C.readFrameHeader_yields T_ERROR payload.length t m.net.output m
    rw [ht, Machine.wired_self] at hhead
    by_cases hcap : (UInt64.ofNat payload.length).toNat > C.PAYLOAD_CAP
    · refine ⟨t, hhead.bind ?_⟩
      simp only
      rw [if_pos trivial, if_pos hcap]
      exact Proc.yields_done _ _
    · have hread := C.readExact_yields (m := m) (UInt64.ofNat payload.length).toNat t m.net.output
      refine ⟨t.drop (UInt64.ofNat payload.length).toNat, hhead.bind ?_⟩
      simp only
      rw [if_pos trivial, if_neg hcap]
      exact hread.bind (Proc.yields_done _ _)

/-- What a client has of `F` when the server lets it go on after `g`: the front `g` in the partial at
`lp`, or nothing there once what was found before is gone. -/
structure Os.Resumes (os : Os) (old : Option Loc) (lp : Loc) (g F : Bytes) : Prop where
  front : g <+: F
  opens : (∃ f, os.slot lp = some (.file f) ∧ os.store.data f = g ∧ g ≠ []) ∨
    g = [] ∧ (os.cleared old).slot lp = none

theorem Os.Resumes.opened {os : Os} {old : Option Loc} {lp : Loc} {g : Bytes}
    (h : os.Resumes old lp g F) (hc : os.creatable lp = true) : ∃ os₁ f, os.Opened old lp g os₁ f := by
  rcases h.opens with ⟨f, hs, rfl, hnil⟩ | ⟨rfl, hs⟩
  · exact ⟨_, f, .resumed hs hnil⟩
  · exact ⟨_, _, .restarted hs hc⟩

/-- **Python on a whole reply.** -/
theorem receiveGetReply_yields {existing : Option Bytes} {g : Bytes} {lp ld : Loc}
    (hfound : ∀ q, existing = some q → ∃ i, m.os.at? q = some (.file i))
    (hres : m.os.Resumes (existing.bind m.os.locate) lp g F)
    (hp : m.os.locate (partialName dest (sha256 F)) = some lp) (hd : m.os.locate dest = some ld)
    (hfree : m.os.slot ld = none) (hne : ld ≠ lp) (hsmall : F.length < OFF_MAX)
    (hcp : m.os.creatable lp = true) (hcd : m.os.creatable ld = true)
    (hin : m.net.input = getReply F g.length) :
    ∃ os', Yields Net.wire.env (receiveGetReply dest existing) m (.ok ())
        ⟨os', m.inFlight, ⟨[], m.net.output⟩⟩ ∧
      m.os.Transfers (existing.bind m.os.locate) lp ld g F true os' := by
  obtain ⟨os₁, f, hopen⟩ := hres.opened hcp
  have hbody : os₁.store.data f ++ F.drop g.length = F := by
    rw [hopen.data]
    obtain ⟨t, ht⟩ := hres.front
    rw [← ht, List.drop_left]
  generalize hmd : getMeta F g.length = metadata
  have hy := @receiveDownload_yields (m.wired (F.drop g.length) m.net.output) dest g F lp ld f os₁
    existing [] metadata hmd.symm hfound hopen hp hd hfree hne hcd hres.front hsmall
    (List.append_nil _).symm
  exact ⟨_, receiveGetReply_served hmd.symm hin hsmall hy, .ended hopen (.delivered hbody)⟩

/-- **The C client on a reply that is cut off anywhere.** -/
theorem C.receiveGetReply_yields {existing : C.Found} {p g : Bytes} {lp ld : Loc} {k : Nat}
    (hfound : ∀ q, existing.path? = some q → ∃ i, m.os.at? q = some (.file i))
    (hres : m.os.Resumes (existing.path?.bind m.os.locate) lp g F)
    (hname : C.partialName dest (sha256 F) = some p) (hp : m.os.locate p = some lp)
    (hd : m.os.locate dest = some ld) (hfree : m.os.slot ld = none) (hne : ld ≠ lp)
    (hsmall : F.length < OFF_MAX) (hin : m.net.input = (getReply F g.length).take k) :
    ∃ ok os' rest, Yields Net.wire.env (C.receiveGetReply dest existing) m (.ok ok)
        ⟨os', m.inFlight, ⟨rest, m.net.output⟩⟩ ∧
      (ok = false ∧ os' = m.os ∨
        m.os.Transfers (existing.path?.bind m.os.locate) lp ld g F ok os') ∧
      ((getReply F g.length).length ≤ k → m.os.creatable lp = true → m.os.creatable ld = true →
        ok = true) := by
  generalize hmd : getMeta F g.length = metadata
  have hfront : (getHeader F g.length ++ metadata).length = HEADER_SIZE + GET_META := by
    rw [List.length_append, getHeader_length, ← hmd, getMeta_length]
  have hreply : getReply F g.length = (getHeader F g.length ++ metadata) ++ F.drop g.length := by
    rw [← hmd, getReply_eq]
  rw [hreply] at hin ⊢
  by_cases hk : k < HEADER_SIZE + GET_META
  · have hpre : m.net.input <+: getHeader F g.length ++ getMeta F g.length := by
      rw [hin, hmd, List.take_append_of_le_length (by omega)]
      exact List.take_prefix _ _
    obtain ⟨rest, hy⟩ := @C.receiveGetReply_short m dest F g.length existing hpre (by
      rw [hin]
      exact (List.length_take_le _ _).trans_lt hk)
    refine ⟨false, m.os, rest, hy, .inl ⟨rfl, rfl⟩, fun hlen => ?_⟩
    rw [List.length_append, hfront] at hlen
    omega
  · have htake : m.net.input =
        (getHeader F g.length ++ metadata) ++ (F.drop g.length).take (k - (HEADER_SIZE + GET_META)) := by
      rw [hin, List.take_append, hfront, List.take_of_length_le (by omega)]
    obtain ⟨ok, os', rest, hy, htrans, hok⟩ := @C.receiveDownload_yields
      (m.wired ((F.drop g.length).take (k - (HEADER_SIZE + GET_META))) m.net.output) p dest g F lp ld
      existing metadata hmd.symm hfound hres.opens hname hp hd hfree hne hres.front hsmall
      (List.take_prefix _ _)
    refine ⟨ok, os', rest, C.receiveGetReply_served hmd.symm htake hy, .inr htrans, fun hlen => hok ?_⟩
    show _ ≤ ((F.drop g.length).take (k - (HEADER_SIZE + GET_META))).length
    rw [List.length_append, hfront] at hlen
    rw [List.length_take, List.length_drop] at *
    omega

end Reply

/-! ## The server's side -/

/-- The bytes of a GET. -/
def getBytes (offset : Nat) (token name : Bytes) : Bytes :=
  frameBytes T_GET (getPayload offset token name)

/-- **What the server answers**: the file from where the client may go on, if the offset lies in it. -/
theorem serverReply_getBytes {S : Os} {offset : Nat} {token name : Bytes} (ho : offset < 256 ^ 8)
    (ht : token.length = TOKEN_SIZE) (hn : name.length ≤ 255) :
    GetAnswered S ⟨offset, token, decodeReplace name⟩ (serverReply S (getBytes offset token name)) := by
  refine serverReply_get ?_ (parseGet_getPayload ho ht (by omega))
  rw [getPayload_length ht]
  have : GET_PREFIX = 18 := rfl
  omega

/-- The reply to a GET for a file that is there. -/
theorem serverReply_file {S : Os} {offset : Nat} {token : Bytes} {t : Text} {F : Bytes}
    (ho : offset < 256 ^ 8) (htoken : token.length = TOKEN_SIZE) (ht : checkFilename t = true)
    (hF : S.content (encode t) = some F) :
    if offset ≤ F.length then
      serverReply S (getBytes offset token (encode t)) =
        getReply F (startOffset offset token (sha256 F))
    else ∃ reason, IsErrorFrame reason (serverReply S (getBytes offset token (encode t))) := by
  have hacc := accepted_of_checkFilename ht
  have hlen : (encode t).length ≤ 255 := hacc.encode_length
  have hanswer := @serverReply_getBytes S offset token (encode t) ho htoken hlen
  rw [hacc.decode_encode] at hanswer
  cases hanswer with
  | @served c hcheck hc hle hreply =>
    rw [hF] at hc
    cases hc
    rw [if_pos hle]
    exact hreply
  | @refused reason hno herr =>
    have hlt := hno F ht hF
    rw [if_neg (by simpa using hlt)]
    exact ⟨reason, herr⟩

/-- The reply to a GET whose offset is past the end. -/
theorem serverReply_pastEnd {S : Os} {offset : Nat} {token : Bytes} {t : Text} {F : Bytes}
    (ho : offset < 256 ^ 8) (htoken : token.length = TOKEN_SIZE) (ht : checkFilename t = true)
    (hF : S.content (encode t) = some F) (hlt : F.length < offset) :
    IsErrorFrame E_MALFORMED (serverReply S (getBytes offset token (encode t))) := by
  have hacc := accepted_of_checkFilename ht
  have hlen : (encode t).length ≤ 255 := hacc.encode_length
  have hparse := parseGet_getPayload ho htoken (show (encode t).length < 256 ^ 2 by omega)
  rw [hacc.decode_encode] at hparse
  obtain ⟨reply, hy, herr⟩ := @serveRequest_pastEnd S (getPayload offset token (encode t)) _ F
    (by rw [getPayload_length htoken]; have : GET_PREFIX = 18 := rfl; omega) hparse ht hF hlt
  unfold serverReply getBytes
  rw [serverRun_of_yields hy]
  exact herr

/-! ## A whole GET -/

section Get

variable {serve : Bytes → Bytes} {os : Os} {fl : Finset Bytes}

theorem offerOf_uses {X : Exn → Prop} (hX : ∀ e, X e) (existing : Option Bytes) :
    (offerOf existing).Uses Sys.Asks X := by
  cases existing with
  | none => trivial
  | some path =>
    refine Proc.uses_bind (Proc.uses_bind (uses_looks (.stat path)) fun st => ?_) fun _ => trivial
    cases st with
    | none => exact hX _
    | some st => trivial

/-- What Python does after the request, on what the server has sent. -/
theorem doGet_served {filename dest token : Bytes} {output existing : Option Bytes} {offset : Nat}
    (hdest : getDest filename output = dest) (hfree : os.at? dest = none)
    (hfind : (findPartial dest).eval os.ask = .ok existing)
    (hoffer : (offerOf existing).eval os.ask = .ok (offset, token))
    (henc : encodePath filename = .ok filename) (hname : filename.length ≤ 255)
    (ho : offset < 256 ^ 8) (ht : token.length = TOKEN_SIZE) {Q : Machine Wire → Prop}
    {E : Exn → Machine Wire → Prop}
    (h : (receiveGetReply dest existing).wp Net.wire.env (fun _ => Q) E
      ⟨os, fl, ⟨serve (getBytes offset token filename), getBytes offset token filename⟩⟩) :
    (doGet filename output).wp (Net.served serve).env (fun _ m => Q (m.view serve))
      (fun e m => E e (m.view serve)) ⟨os, fl, ⟨[], 0⟩⟩ := by
  have hlen : (getPayload offset token filename).length < 256 ^ 8 := by
    rw [getPayload_length ht]
    have : GET_PREFIX = 18 := rfl
    omega
  have hpack := @packGet_eq offset token filename henc ho (by omega)
  unfold getBytes at h
  generalize getPayload offset token filename = payload at hlen hpack h
  have hlook : Yields (Net.served serve).env (findPartial dest) ⟨os, fl, ⟨[], 0⟩⟩ (.ok existing)
      ⟨os, fl, ⟨[], 0⟩⟩ := hfind ▸ Net.yields_eval (X := fun _ => True) (findPartial_uses dest)
  have hsize : Yields (Net.served serve).env (offerOf existing) ⟨os, fl, ⟨[], 0⟩⟩
      (.ok (offset, token)) ⟨os, fl, ⟨[], 0⟩⟩ :=
    hoffer ▸ Net.yields_eval (X := fun _ => True) (offerOf_uses (fun _ => trivial) existing)
  have hsend := @writeFrame_served serve ⟨os, fl, ⟨[], 0⟩⟩ T_GET _ hlen
  have hread := @served_of_wire serve Exn Unit (fun _ => True) _ (Quiet.receiveGetReply dest existing)
    (fun _ => Q) E ⟨os, fl, ⟨frameBytes T_GET payload, 0⟩⟩ h
  unfold doGet
  rw [hdest]
  refine Proc.wp_bind.mpr (Py.wpm_pathExists.mpr ?_)
  rw [show os.statAt dest = none from Os.statAt_none hfree, if_neg (by decide)]
  refine Proc.wp_bind.mpr (hlook.wp ?_ fun e he => by cases he)
  intro x hx
  cases hx
  refine Proc.wp_bind.mpr (hsize.wp ?_ fun e he => by cases he)
  intro x hx
  cases hx
  simp only
  rw [hpack, Proc.ofExcept_ok, Proc.done_bind]
  refine Proc.wp_bind.mpr (hsend.wp ?_ fun e he => by cases he)
  intro x hx
  exact hread

/-- What the C client does after the request, on what the server has sent. -/
theorem C.doGet_served {remoteName dest : Bytes} {existing : C.Found} (hfree : os.at? dest = none)
    (hfind : (C.findPartial dest).eval os.ask = .ok existing) (hname : remoteName.length ≤ C.MAX_NAME)
    {Q : Bool → Machine Wire → Prop}
    (h : (C.receiveGetReply dest existing).wp Net.wire.env Q (fun _ _ => False)
      ⟨os, fl, ⟨serve (getBytes existing.offer.1.toNat existing.offer.2 remoteName),
        getBytes existing.offer.1.toNat existing.offer.2 remoteName⟩⟩) :
    (C.doGet remoteName dest).wp (Net.served serve).env (fun ok m => Q ok (m.view serve))
      (fun _ _ => False) ⟨os, fl, ⟨[], 0⟩⟩ := by
  have hmax : C.MAX_NAME = 255 := rfl
  have hlook : Yields (Net.served serve).env (C.findPartial dest) ⟨os, fl, ⟨[], 0⟩⟩ (.ok existing)
      ⟨os, fl, ⟨[], 0⟩⟩ := hfind ▸ Net.yields_eval (C.findPartial_uses dest)
  have hrequest : C.putU64 existing.offer.1 ++ existing.offer.2 ++
      C.putU16 (UInt16.ofNat remoteName.length) ++ remoteName =
      getPayload existing.offer.1.toNat existing.offer.2 remoteName := by
    rw [C.putU64_eq, C.putU16_eq (by omega)]
    rfl
  have hread := @served_of_wire serve Empty Bool (fun _ => True) _
    (Quiet.cReceiveGetReply dest existing) Q (fun _ _ => False)
    ⟨os, fl, ⟨getBytes existing.offer.1.toNat existing.offer.2 remoteName, 0⟩⟩ h
  unfold C.doGet C.fileExists
  refine Proc.wp_bind.mpr (Proc.wp_bind.mpr (Proc.wp_perform.mpr ((Net.call_looks (.stat _)).mpr ?_)))
  show Proc.wp _ (if (os.statAt dest).isSome = true then _ else _) _ _ _
  rw [show os.statAt dest = none from Os.statAt_none hfree, if_neg (by decide)]
  refine Proc.wp_bind.mpr (hlook.wp ?_ fun e => e.elim)
  intro x hx
  cases hx
  rw [if_neg (by omega), hrequest]
  refine Proc.wp_bind.mpr ((C.writeFrame_served T_GET _).wp ?_ fun e => e.elim)
  intro ok hok
  cases hok
  rw [if_neg (by decide)]
  exact hread

end Get

end Retriever
