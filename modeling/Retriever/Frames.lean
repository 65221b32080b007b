/-
# Retriever.Frames — the bytes of a frame

`frameBytes t payload` is the frame the writers produce: on every length a program can hand them,
`write_frame` and `send_error` are one `sendall` of such bytes.
-/
import Retriever.Server

namespace Retriever

/-- Header and payload of a frame. -/
def frameBytes (t : UInt8) (payload : Bytes) : Bytes :=
  MAGIC ++ [VERSION, t] ++ toBE 8 payload.length ++ payload

/-- The payload of an ERROR frame. -/
def errorPayload (reason : UInt8) (message : Text) : Bytes :=
  [reason] ++ toBE 2 (encode message).length ++ encode message

/-- The empty OK reply: to a PUT, the final one. -/
def okFrame : Bytes := frameBytes T_OK []

/-- The first reply to a PUT that is let in. -/
def offerFrame (offset : Nat) : Bytes := frameBytes T_OK (toBE 8 offset)

/-- The metadata at the front of a GET reply. -/
def getMeta (c : Bytes) (start : Nat) : Bytes := toBE 8 c.length ++ toBE 8 start ++ sha256 c

/-- The whole reply to a GET of content `c` from `start` on. -/
def getReply (c : Bytes) (start : Nat) : Bytes := frameBytes T_OK (getMeta c start ++ c.drop start)

/-- An ERROR frame with a given reason. -/
def IsErrorFrame (reason : UInt8) (b : Bytes) : Prop :=
  ∃ message, (encode message).length < 256 ^ 2 ∧ b = frameBytes T_ERROR (errorPayload reason message)

/-! ## Messages -/

theorem encode_length_le (t : Text) : (encode t).length ≤ 4 * t.length := by
  unfold encode
  induction t with
  | nil => exact Nat.le_refl 0
  | cons c t ih =>
    have hc : (String.utf8EncodeChar c).length ≤ 4 := by
      rw [String.length_utf8EncodeChar]
      exact c.utf8Size_le_four
    rw [List.flatMap_cons, List.length_append, List.length_cons]
    omega

/-- A short message fits into an ERROR frame. -/
theorem encode_short {t : Text} (h : t.length ≤ 1000) : (encode t).length < 256 ^ 2 := by
  have hle := encode_length_le t
  omega

/-! ## Names in payloads -/

/-- A name with its length in front, and what follows it. -/
theorem parseName_behind {name : Bytes} (hn : name.length < 256 ^ 2) (rest : Bytes) :
    parseName (toBE 2 name.length ++ name ++ rest) = .ok (decodeReplace name, rest) := by
  have hfront : (toBE 2 name.length ++ name).length = 2 + name.length := by
    rw [List.length_append, toBE_length]
  have hlen : ofBE ((toBE 2 name.length ++ name ++ rest).take 2) = name.length := by
    rw [List.append_assoc, List.take_left' (toBE_length 2 _), ofBE_toBE hn]
  unfold parseName
  rw [if_neg (by rw [List.length_append, hfront]; omega)]
  simp only [hlen]
  rw [if_neg (by rw [List.length_append, hfront]; omega), List.drop_left' hfront, List.append_assoc,
    List.drop_left' (toBE_length 2 _), List.take_left' rfl]

theorem parseName_named {name : Bytes} (hn : name.length < 256 ^ 2) :
    parseName (toBE 2 name.length ++ name) = .ok (decodeReplace name, []) := by
  have h := parseName_behind hn []
  rwa [List.append_nil] at h

/-! ## Payloads that cannot be parsed -/

theorem parseName_error {payload : Bytes} {e : Exn} (h : parseName payload = .error e) :
    ∃ m, e = .frameError E_MALFORMED m := by
  unfold parseName at h
  split at h
  · cases h
    exact ⟨_, rfl⟩
  · simp only at h
    split at h
    · cases h
      exact ⟨_, rfl⟩
    · cases h

theorem parsePut_error {payload : Bytes} {e : Exn} (h : parsePut payload = .error e) :
    ∃ m, e = .frameError E_MALFORMED m := by
  unfold parsePut at h
  split at h
  · cases h
    exact ⟨_, rfl⟩
  · cases hp : parseName (payload.drop (8 + HASH_SIZE)) with
    | error e' =>
      rw [hp] at h
      cases h
      exact parseName_error hp
    | ok x =>
      rw [hp] at h
      simp only at h
      split at h
      · cases h
        exact ⟨_, rfl⟩
      · cases h

/-! ## Frames that are sent -/

theorem toBytes_of_lt {k n : Nat} (h : n < 256 ^ k) : toBytes k n = .ok (toBE k n) := by
  simp [toBytes, h]

theorem writeFrameHeader_eq {t : UInt8} {n : Nat} (h : n < 256 ^ 8) :
    writeFrameHeader t n = Py.sendall (MAGIC ++ [VERSION, t] ++ toBE 8 n) := by
  simp [writeFrameHeader, frameHeader, toBytes_of_lt h, Except.map]

theorem writeFrame_eq {t : UInt8} {payload : Bytes} (h : payload.length < 256 ^ 8) :
    writeFrame t payload = Py.sendall (frameBytes t payload) := by
  simp [writeFrame, frameHeader, toBytes_of_lt h, Except.map, frameBytes]

theorem errorPayload_length (reason : UInt8) (message : Text) :
    (errorPayload reason message).length = 3 + (encode message).length := by
  simp only [errorPayload, List.length_append, toBE_length, List.length_cons, List.length_nil]

theorem sendError_eq {reason : UInt8} {message : Text} (h : (encode message).length < 256 ^ 2) :
    sendError reason message = Py.sendall (frameBytes T_ERROR (errorPayload reason message)) := by
  have hp : packError reason message = .ok (errorPayload reason message) := by
    simp [packError, toBytes_of_lt h, Except.map, errorPayload]
  have hl : (errorPayload reason message).length < 256 ^ 8 := by
    rw [errorPayload_length]
    omega
  simp only [sendError, hp, Proc.ofExcept_ok, Proc.done_bind]
  exact writeFrame_eq hl

/-- Frames of different types are different: the type is the sixth byte. -/
theorem frameBytes_type {t t' : UInt8} {p p' : Bytes} (h : frameBytes t p = frameBytes t' p') :
    t = t' := by
  have := congrArg (fun l => l.getD 5 0) h
  simpa [frameBytes, MAGIC] using this

theorem IsErrorFrame.ne_okFrame {reason : UInt8} {b : Bytes} (h : IsErrorFrame reason b) :
    b ≠ okFrame := by
  obtain ⟨m, -, rfl⟩ := h
  intro hb
  exact absurd (frameBytes_type hb) (by decide)

theorem frameBytes_length (t : UInt8) (payload : Bytes) :
    (frameBytes t payload).length = HEADER_SIZE + payload.length := by
  simp only [frameBytes, List.length_append, toBE_length, MAGIC, List.length_cons, List.length_nil,
    HEADER_SIZE]

/-- A frame ends where its header says. -/
theorem frameBytes_append_inj {t t' : UInt8} {p p' r r' : Bytes} (hp : p.length < 256 ^ 8)
    (hp' : p'.length < 256 ^ 8) (h : frameBytes t p ++ r = frameBytes t' p' ++ r') :
    t = t' ∧ p = p' ∧ r = r' := by
  simp only [frameBytes, List.append_assoc, List.append_cancel_left_eq] at h
  obtain ⟨ht, h⟩ := List.append_inj h rfl
  obtain ⟨hlen, h⟩ := List.append_inj h (by simp)
  obtain ⟨hpay, hrest⟩ := List.append_inj h (toBE_inj hp hp' hlen)
  exact ⟨by simpa using ht, hpay, hrest⟩

theorem IsErrorFrame.ne_offerFrame {reason : UInt8} {b : Bytes} (h : IsErrorFrame reason b)
    (x : Nat) : b ≠ offerFrame x := by
  obtain ⟨m, -, rfl⟩ := h
  intro hb
  exact absurd (frameBytes_type hb) (by decide)

/-- An ERROR frame does not begin as an OK frame does. -/
theorem IsErrorFrame.not_ok {reason : UInt8} {b : Bytes} (h : IsErrorFrame reason b) :
    ¬ MAGIC ++ [VERSION, T_OK] <+: b := by
  obtain ⟨m, -, rfl⟩ := h
  rintro ⟨rest, hrest⟩
  have := congrArg (fun l => l.getD 5 0) hrest
  simp [frameBytes, MAGIC, T_OK, T_ERROR] at this

/-- The reason is the byte after the header. -/
theorem IsErrorFrame.reason_eq {r r' : UInt8} {b : Bytes} (h : IsErrorFrame r b)
    (h' : IsErrorFrame r' b) : r = r' := by
  obtain ⟨m, -, rfl⟩ := h
  obtain ⟨m', -, he⟩ := h'
  have hd := congrArg (fun l => (l.drop HEADER_SIZE).head?) he
  have hdrop : ∀ p, (frameBytes T_ERROR p).drop HEADER_SIZE = p := by
    intro p
    rw [frameBytes, List.drop_left' (by simp [MAGIC, HEADER_SIZE])]
  simp only [hdrop, errorPayload] at hd
  simpa using hd

theorem offerFrame_inj {x y : Nat} (hx : x < 256 ^ 8) (hy : y < 256 ^ 8)
    (h : offerFrame x = offerFrame y) : x = y := by
  have h' := (List.append_inj' h (by simp)).2
  exact toBE_inj hx hy h'

theorem offerFrame_ne_okFrame (r : Nat) : offerFrame r ≠ okFrame := by
  intro h
  have := congrArg List.length h
  simp [offerFrame, okFrame, frameBytes_length] at this

end Retriever
