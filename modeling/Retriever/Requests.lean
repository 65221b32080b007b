/-
# Retriever.Requests — the payloads of GET and PUT

Both requests are a number, some bytes of a fixed length, and a name behind its own length. The server
accepts exactly the payloads of this form and reads back what they were made of (`parseGet_ok_iff`,
`parsePut_ok_iff`). The two clients write the same payload. Python's name is a `str` that it encodes as
UTF-8, so it writes none for a name that is not.
-/
import Retriever.Exchange

namespace Retriever

/-! ## The layout -/

/-- A number, `k` bytes, and a name behind its length. -/
structure Layout (k : Nat) (payload : Bytes) (v : Nat) (bytes name : Bytes) : Prop where
  number : v < 2 ^ 64
  fixed : bytes.length = k
  short : name.length < 2 ^ 16
  eq : payload = toBE 8 v ++ bytes ++ toBE 2 name.length ++ name

/-- A payload that is long enough, with a name after its fixed fields. -/
theorem Layout.of_parts {k : Nat} {payload name : Bytes} (h : 8 + k ≤ payload.length)
    (hshort : name.length < 2 ^ 16) (hname : payload.drop (8 + k) = toBE 2 name.length ++ name) :
    Layout k payload (ofBE (payload.take 8)) ((payload.drop 8).take k) name := by
  have h8 : (payload.take 8).length = 8 := by
    rw [List.length_take]
    omega
  refine ⟨?_, ?_, hshort, ?_⟩
  · calc ofBE (payload.take 8) < 256 ^ (payload.take 8).length := ofBE_lt _
      _ = 2 ^ 64 := by rw [h8]; rfl
  · rw [List.length_take, List.length_drop]
    omega
  · rw [toBE_ofBE_of_length h8, List.append_assoc, ← hname, List.append_assoc, ← List.drop_drop,
      List.take_append_drop, List.take_append_drop]

/-- `parse_name` with nothing left over. -/
theorem parseName_ok {payload : Bytes} {t : Text} (h : parseName payload = .ok (t, [])) :
    ∃ name, name.length < 2 ^ 16 ∧ t = decodeReplace name ∧
      payload = toBE 2 name.length ++ name := by
  unfold parseName at h
  split at h
  · cases h
  next hlen =>
  simp only at h
  split at h
  · cases h
  next hname =>
  have h2 : (payload.take 2).length = 2 := by
    rw [List.length_take]
    omega
  have hlt : ofBE (payload.take 2) < 2 ^ 16 := by
    calc ofBE (payload.take 2) < 256 ^ (payload.take 2).length := ofBE_lt _
      _ = 2 ^ 16 := by rw [h2]; rfl
  simp only [Except.ok.injEq, Prod.mk.injEq] at h
  obtain ⟨ht, hrest⟩ := h
  -- nothing is left, so the name is all that follows its length
  have hend : (payload.drop 2).length = ofBE (payload.take 2) := by
    have := List.drop_eq_nil_iff.mp hrest
    rw [List.length_drop]
    omega
  rw [← hend, List.take_length] at ht
  refine ⟨payload.drop 2, by omega, ht.symm, ?_⟩
  rw [hend, toBE_ofBE_of_length h2, List.take_append_drop]

/-- **What the server accepts as a GET** is what is laid out as one. -/
theorem parseGet_ok_iff {payload : Bytes} {g : GetRequest} : parseGet payload = .ok g ↔
    ∃ name, Layout TOKEN_SIZE payload g.offset g.token name ∧ g.name = decodeReplace name := by
  constructor
  · intro h
    unfold parseGet at h
    split at h
    · cases h
    next hlen =>
    cases hn : parseName (payload.drop 16) with
    | error e =>
      rw [hn] at h
      cases h
    | ok x =>
      obtain ⟨t, rest⟩ := x
      rw [hn] at h
      simp only at h
      split at h
      · cases h
      next hrest =>
      obtain rfl := not_ne_iff.mp hrest
      cases h
      obtain ⟨name, hshort, rfl, hbytes⟩ := parseName_ok hn
      exact ⟨name, .of_parts (by simp only [GET_PREFIX] at hlen; omega) hshort hbytes, rfl⟩
  · rintro ⟨name, ⟨hnum, hfix, hshort, rfl⟩, hname⟩
    rw [show g = ⟨g.offset, g.token, decodeReplace name⟩ by rw [← hname]]
    exact parseGet_getPayload hnum hfix hshort

/-- **What the server accepts as a PUT** is what is laid out as one. -/
theorem parsePut_ok_iff {payload : Bytes} {req : PutRequest} : parsePut payload = .ok req ↔
    ∃ name, Layout HASH_SIZE payload req.fileSize req.digest name ∧
      req.name = decodeReplace name := by
  constructor
  · intro h
    unfold parsePut at h
    split at h
    · cases h
    next hlen =>
    cases hn : parseName (payload.drop (8 + HASH_SIZE)) with
    | error e =>
      rw [hn] at h
      cases h
    | ok x =>
      obtain ⟨t, rest⟩ := x
      rw [hn] at h
      simp only at h
      split at h
      · cases h
      next hrest =>
      obtain rfl := not_ne_iff.mp hrest
      cases h
      obtain ⟨name, hshort, rfl, hbytes⟩ := parseName_ok hn
      exact ⟨name, .of_parts (by simp only [PUT_PREFIX] at hlen; omega) hshort hbytes, rfl⟩
  · rintro ⟨name, ⟨hnum, hfix, hshort, rfl⟩, hname⟩
    rw [show req = ⟨req.fileSize, req.digest, decodeReplace name⟩ by rw [← hname]]
    exact parsePut_putPayload hnum hfix hshort

/-! ## The clients -/

/-- The bytes are UTF-8. -/
def IsUtf8 (bs : Bytes) : Prop := (utf8Decode bs).all (·.isOk) = true

instance (bs : Bytes) : Decidable (IsUtf8 bs) := inferInstanceAs (Decidable (_ = true))

/-- UTF-8 is decoded to the text it is the encoding of. -/
theorem IsUtf8.encode_decodeReplace {bs : Bytes} (h : IsUtf8 bs) : encode (decodeReplace bs) = bs := by
  have hbytes : unitBytes (utf8Decode bs) = bs := (utf8DecodeFrom_spec bs .start).1
  unfold IsUtf8 at h
  unfold decodeReplace
  conv_rhs => rw [← hbytes]
  generalize utf8Decode bs = us at h
  induction us with
  | nil => rfl
  | cons u us ih =>
    rw [List.all_cons, Bool.and_eq_true] at h
    have ih' := ih h.2
    unfold encode unitBytes at ih' ⊢
    rw [List.map_cons, List.flatMap_cons, List.flatMap_cons, ih']
    cases u with
    | ok c => rfl
    | error bad => cases h.1

theorem decodeStrict_eq (bs : Bytes) :
    decodeStrict bs = if IsUtf8 bs then .ok (decodeReplace bs) else .error .unicodeError := by
  unfold decodeStrict decodeReplace
  show _ = if (utf8Decode bs).all (·.isOk) = true then _ else _
  generalize utf8Decode bs = us
  induction us with
  | nil => rfl
  | cons u us ih =>
    rw [List.mapM_cons, ih]
    cases u with
    | error bad => rfl
    | ok c =>
      rw [List.all_cons, show (Except.ok c : Except Bytes Char).isOk = true from rfl, Bool.true_and]
      cases us.all (·.isOk) with
      | false => rfl
      | true => rfl

/-- An ERROR payload of fitting lengths. -/
theorem unpackError_eq {p : Bytes} (h : p.length = 3 + ofBE ((p.drop 1).take 2)) : unpackError p =
    if IsUtf8 (p.drop 3) then .ok (p.getD 0 0, decodeReplace (p.drop 3)) else .error .unicodeError := by
  unfold unpackError
  rw [if_neg (by omega), if_neg (not_not.mpr h), decodeStrict_eq]
  split <;> rfl

/-- The lengths do not fit together. -/
theorem unpackError_unequal {p : Bytes}
    (h : p.length < 3 ∨ p.length ≠ 3 + ofBE ((p.drop 1).take 2)) :
    ∃ reason message, unpackError p = .error (.frameError reason message) := by
  unfold unpackError
  split
  · exact ⟨_, _, rfl⟩
  · next hlong => exact ⟨_, _, if_pos (h.resolve_left hlong)⟩

/-- The payload `rtrv_do_get` builds. -/
def C.getRequest (offset : UInt64) (token remoteName : Bytes) : Bytes :=
  C.putU64 offset ++ token ++ C.putU16 (UInt16.ofNat remoteName.length) ++ remoteName

/-- The payload `rtrv_do_put` builds. -/
def C.putRequest (fileSize : UInt64) (digest remoteName : Bytes) : Bytes :=
  C.putU64 fileSize ++ digest ++ C.putU16 (UInt16.ofNat remoteName.length) ++ remoteName

/-- `rtrv_do_get` sends it. -/
theorem C.doGet_request (remoteName dest : Bytes) : C.doGet remoteName dest = (do
    if ← C.fileExists dest then return false
    else do
      let existing ← C.findPartial dest
      if remoteName.length > C.MAX_NAME then return false
      else if (← C.writeFrame T_GET (C.getRequest existing.offer.1 existing.offer.2 remoteName)) = false
        then return false
      else C.receiveGetReply dest existing) := rfl

/-- What `rtrv_do_put` does with the frame that answers the request. -/
def C.receiveStep1 (localPath : Bytes) (fileSize : UInt64) : CProg Bool := do
  match ← C.readFrame with
  | none => return false
  | some f =>
    if f.type = T_ERROR then return false
    else if f.type ≠ T_OK ∨ f.payload.length < 8 then return false
    else C.sendUpload localPath fileSize (C.getU64 f.payload)

/-- `rtrv_do_put` sends it. -/
theorem C.doPut_request (localPath remoteName : Bytes) : C.doPut localPath remoteName = (do
    match ← Proc.perform (Sys.fs (.stat localPath)) with
    | none => return false
    | some st =>
      if st.isReg = false then return false
      else
        match ← C.sha256File localPath with
        | none => return false
        | some digest =>
          if remoteName.length > C.MAX_NAME then return false
          else if (← C.writeFrame T_PUT (C.putRequest (UInt64.ofNat st.size) digest remoteName)) = false
            then return false
          else C.receiveStep1 localPath (UInt64.ofNat st.size)) := rfl

theorem C.getRequest_eq {offset : Nat} {token name : Bytes} (hn : name.length ≤ 255) :
    C.getRequest (UInt64.ofNat offset) token name = getPayload offset token name := by
  unfold C.getRequest
  rw [C.putU64_ofNat, C.putU16_eq (by omega)]
  rfl

theorem C.putRequest_eq {fileSize : Nat} {digest name : Bytes} (hn : name.length ≤ 255) :
    C.putRequest (UInt64.ofNat fileSize) digest name = putPayload fileSize digest name := by
  unfold C.putRequest
  rw [C.putU64_ofNat, C.putU16_eq (by omega)]
  rfl

theorem encodePath_ok_iff {bs : Bytes} : encodePath bs = .ok bs ↔ IsUtf8 bs := by
  unfold encodePath IsUtf8
  split <;> simp_all

theorem encodePath_error {bs : Bytes} (h : ¬ IsUtf8 bs) : encodePath bs = .error .unicodeError :=
  if_neg h

theorem packPut_eq {fileSize : Nat} {digest name : Bytes} (henc : encodePath name = .ok name)
    (hs : fileSize < 256 ^ 8) (hn : name.length < 256 ^ 2) :
    packPut fileSize digest name = .ok (putPayload fileSize digest name) := by
  unfold packPut
  rw [henc, toBytes_of_lt hs]
  show (toBytes 2 name.length >>= _) = _
  rw [toBytes_of_lt hn]
  rfl

/-! ## Server and clients together -/

/-- The server takes the payloads of a layout and no others, and reads back what they are made of. What
it does not take is MALFORMED. -/
structure ParsesExactly {R : Type} (parse : Bytes → Except Exn R) (k : Nat)
    (make : Nat → Bytes → Text → R) : Prop where
  accepts_iff : ∀ payload, (∃ r, parse payload = .ok r) ↔ ∃ v bytes name, Layout k payload v bytes name
  reads : ∀ {payload v bytes name}, Layout k payload v bytes name →
    parse payload = .ok (make v bytes (decodeReplace name))
  rejects : ∀ {payload e}, parse payload = .error e → ∃ message, e = .frameError E_MALFORMED message

/-- Both clients write one payload for a number, `k` bytes and a name, and the server reads it as these.
Python writes it when the name is UTF-8. -/
structure WritesSame {R : Type} (pack : Nat → Bytes → Bytes → Except Exn Bytes)
    (request : UInt64 → Bytes → Bytes → Bytes) (parse : Bytes → Except Exn R)
    (make : Nat → Bytes → Text → R) (v : Nat) (bytes name : Bytes) : Prop where
  same : IsUtf8 name → pack v bytes name = .ok (request (UInt64.ofNat v) bytes name)
  none : ¬ IsUtf8 name → pack v bytes name = .error .unicodeError
  read : parse (request (UInt64.ofNat v) bytes name) = .ok (make v bytes (decodeReplace name))
  bytes : IsUtf8 name → encode (decodeReplace name) = name

theorem parseGet_exact : ParsesExactly parseGet TOKEN_SIZE GetRequest.mk where
  accepts_iff payload := by
    constructor
    · rintro ⟨g, hg⟩
      obtain ⟨name, hl, -⟩ := parseGet_ok_iff.mp hg
      exact ⟨_, _, name, hl⟩
    · rintro ⟨v, bytes, name, hl⟩
      exact ⟨⟨v, bytes, decodeReplace name⟩, parseGet_ok_iff.mpr ⟨name, hl, rfl⟩⟩
  reads hl := parseGet_ok_iff.mpr ⟨_, hl, rfl⟩
  rejects h := by
    obtain ⟨message, -, he⟩ := parseGet_violates h
    exact ⟨message, he⟩

theorem parsePut_exact : ParsesExactly parsePut HASH_SIZE PutRequest.mk where
  accepts_iff payload := by
    constructor
    · rintro ⟨req, hreq⟩
      obtain ⟨name, hl, -⟩ := parsePut_ok_iff.mp hreq
      exact ⟨_, _, name, hl⟩
    · rintro ⟨v, bytes, name, hl⟩
      exact ⟨⟨v, bytes, decodeReplace name⟩, parsePut_ok_iff.mpr ⟨name, hl, rfl⟩⟩
  reads hl := parsePut_ok_iff.mpr ⟨_, hl, rfl⟩
  rejects h := parsePut_error h

/-- **The codec of the requests.** The server accepts exactly the payloads that are laid out as a GET or
a PUT, and reads the values. The two clients write the same payload, which the server reads as what they
put in, for every name that is UTF-8; for another name Python writes none. -/
theorem request_codec :
    ParsesExactly parseGet TOKEN_SIZE GetRequest.mk ∧ ParsesExactly parsePut HASH_SIZE PutRequest.mk ∧
    ∀ v < 2 ^ 64, ∀ bytes name : Bytes, name.length ≤ 255 →
      (bytes.length = TOKEN_SIZE → WritesSame packGet C.getRequest parseGet GetRequest.mk v bytes name) ∧
      (bytes.length = HASH_SIZE → WritesSame packPut C.putRequest parsePut PutRequest.mk v bytes name) := by
  refine ⟨parseGet_exact, parsePut_exact, fun v hv bytes name hn => ⟨fun hb => ?_, fun hb => ?_⟩⟩
  · refine ⟨fun hu => ?_, fun hu => ?_, ?_, IsUtf8.encode_decodeReplace⟩
    · rw [C.getRequest_eq hn]
      exact packGet_eq (encodePath_ok_iff.mpr hu) hv (by omega)
    · unfold packGet
      rw [encodePath_error hu]
      rfl
    · rw [C.getRequest_eq hn]
      exact parseGet_getPayload hv hb (by omega)
  · refine ⟨fun hu => ?_, fun hu => ?_, ?_, IsUtf8.encode_decodeReplace⟩
    · rw [C.putRequest_eq hn]
      exact packPut_eq (encodePath_ok_iff.mpr hu) hv (by omega)
    · unfold packPut
      rw [encodePath_error hu]
      rfl
    · rw [C.putRequest_eq hn]
      exact parsePut_putPayload hv hb (by omega)

/-- A GET for `a` from the fifth byte on. -/
theorem request_codec_a :
    WritesSame packGet C.getRequest parseGet GetRequest.mk 5 (List.replicate 8 7) (ascii "a") :=
  (request_codec.2.2 5 (by decide) (List.replicate 8 7) (ascii "a") (by decide)).1 (by decide)

/-- The name of one byte that is not UTF-8: the C client writes a payload, Python none. -/
theorem request_codec_not_utf8 :
    ¬ ∀ v < 2 ^ 64, ∀ token name : Bytes, token.length = TOKEN_SIZE → name.length ≤ 255 →
      packGet v token name = .ok (C.getRequest (UInt64.ofNat v) token name) := by
  intro h
  have hpack := h 0 (by decide) noToken [0xFF] (by decide) (by decide)
  revert hpack
  decide +kernel

end Retriever
