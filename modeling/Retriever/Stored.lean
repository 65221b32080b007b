/-
# Retriever.Stored — a PUT, from the client's file to the server's

An idle server takes the request and the stream that follows it as `Uploads` says (`serverRun_put`), so
it grants every upload it can write, with the bytes it holds as the offset (`grants_put`). Together with
the client's side: a leftover that does not fit the body costs one attempt (`uploads_heal`), and a name
can be stored when its partial has a name the filesystem takes (`stores_iff`).
-/
import Retriever.Upload

namespace Retriever

open Proc (Yields)

/-! ## One PUT on an idle server -/

/-- The request of an upload. -/
def uploadRequest (t : Text) (body : Bytes) : PutRequest := ⟨body.length, sha256 body, t⟩

section Server

variable {S : Os} {t : Text} {body stream : Bytes}

theorem putPayload_cap (body : Bytes) {name : Bytes} (h : name.length ≤ 255) :
    (putPayload body.length (sha256 body) name).length ≤ 64 * 1024 := by
  simp only [putPayload, List.length_append, toBE_length, sha256_length, HASH_SIZE]
  omega

theorem parsePut_upload (body : Bytes) (ht : checkFilename t = true) (hsize : body.length ≤ MAX_FILE_SIZE) :
    parsePut (putPayload body.length (sha256 body) (encode t)) = .ok (uploadRequest t body) := by
  have hacc := accepted_of_checkFilename ht
  have hmax : MAX_FILE_SIZE < 256 ^ 8 := by decide
  have hlen := hacc.encode_length
  exact parsePut_accepted (by omega) (sha256_length _) hacc (by omega)

/-- The turn of the server ends as the handler does. -/
theorem serverRun_of_handlePut {payload : Bytes} {m' : Machine Wire} (hp : payload.length ≤ 64 * 1024)
    (hput : Yields Net.wire.env (handlePut payload) ⟨S, ∅, ⟨stream, []⟩⟩ (.ok ()) m') :
    serverRun S (frameBytes T_PUT payload ++ stream) = m' := by
  have hnext : Yields Net.wire.env nextFrame ⟨S, ∅, ⟨frameBytes T_PUT payload ++ stream, []⟩⟩
      (.ok (some ⟨T_PUT, payload⟩)) ⟨S, ∅, ⟨stream, []⟩⟩ := nextFrame_frame rfl rfl hp
  refine serverRun_of_yields (r := .ok ()) (Yields.tryCatch (hnext.bind ?_))
  exact Yields.bind (a := true) (Yields.bind hput (Proc.yields_done true m')) (Proc.yields_done _ _)

/-- What the handler raises is handled. -/
theorem serverRun_of_handlePut_error {payload : Bytes} {e : Exn} {m₁ m' : Machine Wire}
    (hp : payload.length ≤ 64 * 1024)
    (hput : Yields Net.wire.env (handlePut payload) ⟨S, ∅, ⟨stream, []⟩⟩ (.error e) m₁)
    (hon : Yields Net.wire.env (onError e) m₁ (.ok ()) m') :
    serverRun S (frameBytes T_PUT payload ++ stream) = m' := by
  have hnext : Yields Net.wire.env nextFrame ⟨S, ∅, ⟨frameBytes T_PUT payload ++ stream, []⟩⟩
      (.ok (some ⟨T_PUT, payload⟩)) ⟨S, ∅, ⟨stream, []⟩⟩ := nextFrame_frame rfl rfl hp
  exact serverRun_of_yields (r := .ok ())
    (Yields.tryCatch_error (hnext.bind (Yields.bind_error hput.bind_error)) hon)

/-- **One PUT on an idle server** ends as an upload does, whatever stream follows the request. -/
theorem serverRun_put (stream : Bytes) (hadm : (uploadRequest t body).Admitted S)
    (hfile : S.at? (uploadRequest t body).partialPath ≠ some .subdir)
    (htakes : (uploadRequest t body).Takes S) :
    (∃ r, (uploadRequest t body).Uploads ⟨S, ∅, ⟨stream, []⟩⟩ r
      (serverRun S (putBytes body (encode t) ++ stream))) ∧
    Os.Confined ((uploadRequest t body).Paths S) S
      (serverRun S (putBytes body (encode t) ++ stream)).os := by
  have hname : checkFilename t = true := hadm.name
  have hparse := parsePut_upload body hname hadm.size
  have hcap := putPayload_cap body (accepted_of_checkFilename hname).encode_length
  unfold putBytes
  generalize putPayload body.length (sha256 body) (encode t) = payload at hparse hcap ⊢
  generalize uploadRequest t body = req at hadm hfile htakes hparse ⊢
  obtain ⟨r, m', hy, -, hframe, hup⟩ := handlePut_admitted (m := ⟨S, ∅, ⟨stream, []⟩⟩) hparse hadm
    (Finset.notMem_empty _) hfile htakes
  cases r with
  | ok u =>
    rw [serverRun_of_handlePut hcap hy]
    exact ⟨⟨_, hup⟩, hframe⟩
  | error e =>
    -- the only exception is the one for a client that has gone, which is not answered
    have he : e = .sys .connectionError := by
      unfold PutRequest.Uploads at hup
      split at hup
      · cases hup.1
        rfl
      · split at hup
        · cases hup.1
        · cases hup.1
    subst he
    rw [serverRun_of_handlePut_error hcap hy (Proc.yields_done _ _)]
    exact ⟨⟨_, hup⟩, hframe⟩

/-- A partial that cannot be opened: the upload fails and nothing changes. -/
theorem receiveUpload_unwritable {m : Machine Wire} {name p digest : Bytes} {fileSize : Nat}
    (hsize : fileSize < 256 ^ 8) (hat : ∀ i, m.os.at? p ≠ some (.file i))
    (hopen : m.os.run (.openAb p) = (.error .osError, m.os)) :
    ∃ b, Yields Net.wire.env (receiveUpload name p fileSize digest) m (.error (.sys .osError))
      (m.wired m.net.input (m.net.output ++ b)) := by
  -- whatever is offered, the partial cannot be opened afterwards
  have hrest : ∀ k < 256 ^ 8, Yields Net.wire.env (resumeOffset p fileSize) m (.ok k) m →
      ∃ b, Yields Net.wire.env (receiveUpload name p fileSize digest) m (.error (.sys .osError))
        (m.wired m.net.input (m.net.output ++ b)) := by
    intro k hk hres
    refine ⟨offerFrame k, ?_⟩
    rw [receiveUpload_eq]
    apply hres.bind
    rw [toBytes_of_lt hk, Proc.ofExcept_ok, Proc.done_bind]
    apply (yields_writeFrame (by rw [toBE_length]; decide) m).bind
    refine Yields.bind_error (Py.wpm_openAb.mpr ?_)
    rw [show (m.wired m.net.input (m.net.output ++ frameBytes T_OK (toBE 8 k))).os.run (.openAb p) =
      (.error .osError, m.os) from hopen]
    exact ⟨rfl, rfl⟩
  rcases resumeOffset_yields p fileSize m with ⟨-, hy⟩ | ⟨-, hle, hy⟩ | ⟨i, hfile, -⟩ |
    ⟨i, l, hl, hs, -⟩ | ⟨-, hy⟩
  · refine ⟨[], ?_⟩
    rw [receiveUpload_eq, List.append_nil]
    exact hy.bind_error
  · exact hrest _ (by omega) hy
  · exact absurd hfile (hat i)
  · exact absurd (Os.at?_eq_some.mpr ⟨l, hl, hs⟩) (hat i)
  · exact hrest 0 (by decide) hy

/-- An upload whose partial cannot be opened leaves the directory as it is. -/
theorem serverRun_unwritable (hadm : (uploadRequest t body).Admitted S)
    (hat : ∀ i, S.at? (uploadRequest t body).partialPath ≠ some (.file i))
    (hopen : S.run (.openAb (uploadRequest t body).partialPath) = (.error .osError, S)) :
    (serverRun S (putBytes body (encode t) ++ stream)).os = S := by
  have hname : checkFilename t = true := hadm.name
  have hparse := parsePut_upload body hname hadm.size
  have hcap := putPayload_cap body (accepted_of_checkFilename hname).encode_length
  unfold putBytes
  generalize putPayload body.length (sha256 body) (encode t) = payload at hparse hcap ⊢
  generalize uploadRequest t body = req at hadm hat hopen hparse
  have hthere : ¬ (S.at? req.path).isSome = true := by simp [hadm.free]
  have hmax : MAX_FILE_SIZE < 256 ^ 8 := by decide
  have hsize := hadm.size
  obtain ⟨b, hb⟩ := @receiveUpload_unwritable ⟨S, {req.partialPath}, ⟨stream, []⟩⟩ req.path
    req.partialPath req.digest req.fileSize (by omega) hat hopen
  have hput : Yields Net.wire.env (handlePut payload) ⟨S, ∅, ⟨stream, []⟩⟩ (.error (.sys .osError))
      ⟨S, Finset.erase {req.partialPath} req.partialPath, ⟨stream, [] ++ b⟩⟩ := by
    unfold handlePut
    simp only [hparse, Proc.ofExcept_ok, Proc.done_bind, hadm.name, Bool.true_eq_false, if_false,
      if_neg (Nat.not_lt.mpr hadm.size)]
    apply (yields_pathExists req.path _).bind
    rw [if_neg hthere]
    apply (yields_reserve (Finset.notMem_empty _)).bind
    rw [if_neg (by decide)]
    exact hb.ensure (Py.yields_discard _ _)
  rw [serverRun_of_handlePut_error hcap hput (yields_sendError (encode_short (by decide)) _)]
  rfl

/-- However an upload ends, the offer comes first. -/
theorem PutRequest.Uploads.offers {req : PutRequest} {m m' : Machine Wire} {r : Except Exn Unit}
    (h : req.Uploads m r m') :
    ∃ b, m'.net.output = m.net.output ++ offerFrame (req.kept m.os).length ++ b := by
  unfold PutRequest.Uploads at h
  split at h
  · rw [h.2.2.2]
    exact ⟨[], rfl⟩
  split at h
  · obtain ⟨b, -, hnet⟩ := h.2.2.2
    rw [hnet]
    exact ⟨b, rfl⟩
  · rw [h.2.2.2.2]
    exact ⟨okFrame, rfl⟩

/-- What the server holds of an upload. -/
def heldOf (S : Os) (t : Text) (body : Bytes) : Bytes := (uploadRequest t body).kept S

theorem heldOf_length_le (S : Os) (t : Text) (body : Bytes) :
    (heldOf S t body).length ≤ body.length :=
  keptOf_length_le _ _

/-- The server's directory after an honest PUT: what was held and the rest of the body are published, or
their hash is not that of the body and nothing is left. -/
inductive Settled (S : Os) (t : Text) (body : Bytes) (verdict : Bytes) (S' : Os) : Prop
  | published : verdict = okFrame →
      S'.content (encode t) = some (heldOf S t body ++ body.drop (heldOf S t body).length) →
      S'.at? (uploadRequest t body).partialPath = none → Settled S t body verdict S'
  | corrupt : IsErrorFrame E_CORRUPT verdict →
      sha256 (heldOf S t body ++ body.drop (heldOf S t body).length) ≠ sha256 body →
      S'.at? (encode t) = none → S'.at? (uploadRequest t body).partialPath = none →
      Settled S t body verdict S'

/-- **The server grants an upload it can write.** -/
theorem grants_put (hadm : (uploadRequest t body).Admitted S)
    (hfile : S.at? (uploadRequest t body).partialPath ≠ some .subdir)
    (htakes : (uploadRequest t body).Takes S) :
    ∃ verdict, Grants (serverReply S) body (encode t) (heldOf S t body).length verdict ∧
      Settled S t body verdict
        (serverRun S (putBytes body (encode t) ++ body.drop (heldOf S t body).length)).os := by
  have hle := heldOf_length_le S t body
  obtain ⟨⟨r₀, hfirst⟩, -⟩ := serverRun_put [] hadm hfile htakes
  obtain ⟨⟨r, hup⟩, -⟩ := serverRun_put (body.drop (heldOf S t body).length) hadm hfile htakes
  obtain ⟨b₀, hoffer⟩ := hfirst.offers
  rw [List.append_nil] at hoffer
  have hneed : (uploadRequest t body).need S = (body.drop (heldOf S t body).length).length := by
    rw [List.length_drop]
    rfl
  have hcomplete : (uploadRequest t body).complete S (body.drop (heldOf S t body).length) =
      heldOf S t body ++ body.drop (heldOf S t body).length := by
    unfold PutRequest.complete
    rw [hneed, List.take_length]
    rfl
  have hprefix : offerFrame (heldOf S t body).length <+: serverReply S (putBytes body (encode t)) :=
    ⟨b₀, hoffer.symm⟩
  unfold PutRequest.Uploads at hup
  simp only [hneed, hcomplete, lt_irrefl, if_false] at hup
  split at hup
  · next hhash =>
    obtain ⟨-, hfree, hgone, b, hb, hnet⟩ := hup
    refine ⟨b, ⟨hle, hprefix, ?_, .inr ⟨_, hb⟩⟩, .corrupt hb hhash hfree hgone⟩
    unfold serverReply
    rw [hnet]
    rfl
  · obtain ⟨-, hcontent, -, hgone, hnet⟩ := hup
    refine ⟨okFrame, ⟨hle, hprefix, ?_, .inl rfl⟩, .published rfl hcontent hgone⟩
    unfold serverReply
    rw [hnet]
    rfl

/-- Where nothing is held the body is published. -/
theorem Settled.of_fresh {verdict : Bytes} {S' : Os}
    (hnone : S.at? (uploadRequest t body).partialPath = none) (h : Settled S t body verdict S') :
    verdict = okFrame ∧ S'.content (encode t) = some body := by
  have hheld : heldOf S t body = [] := by
    unfold heldOf PutRequest.kept
    rw [Os.content, hnone]
    rfl
  rcases h with ⟨hok, hcontent, -⟩ | ⟨-, hhash, -, -⟩
  · rw [hheld] at hcontent
    exact ⟨hok, hcontent⟩
  · rw [hheld] at hhash
    exact absurd rfl hhash

end Server

/-! ## An upload and another one -/

/-- The bytes of a name the server takes. -/
theorem name_of_checkFilename {t : Text} (ht : checkFilename t = true) :
    encode t ≠ [] ∧ IsUtf8 (encode t) ∧ (encode t).length ≤ 255 := by
  have hacc := accepted_of_checkFilename ht
  refine ⟨hacc.encode_ne_nil, ?_, hacc.encode_length⟩
  have hlow : ∀ b ∈ encode t, b.toNat < 128 := by
    rw [hacc.encode_eq]
    intro b hb
    obtain ⟨c, hc, rfl⟩ := List.mem_map.mp hb
    rw [hacc.toNat_ofNat hc]
    exact hacc.lt_128 c hc
  unfold IsUtf8
  rw [utf8Decode_ascii hlow, List.all_map, List.all_eq_true]
  exact fun b _ => rfl

/-- The server's replies in a session of one PUT are an offer and `b`. -/
def Answers (S : Os) (sent b : Bytes) : Prop := ∃ k, serverReply S sent = offerFrame k ++ b

section Heal

variable {S os₁ os₂ : Os} {t : Text} {body p₁ p₂ : Bytes}

/-- An honest PUT is answered OK or CORRUPT, and what it leaves behind. -/
theorem put_settles (hadm : (uploadRequest t body).Admitted S)
    (hfile : S.at? (uploadRequest t body).partialPath ≠ some .subdir)
    (htakes : (uploadRequest t body).Takes S) (h : os₁.content p₁ = some body) (impl : Impl) :
    ∃ verdict, impl.Put (serverReply S) os₁ p₁ (encode t) fun ok m =>
      (ok = true ↔ verdict = okFrame) ∧ m.os = os₁ ∧
        m.net.sent = putBytes body (encode t) ++ body.drop (heldOf S t body).length ∧
        Answers S m.net.sent verdict ∧ Settled S t body verdict (serverRun S m.net.sent).os := by
  obtain ⟨verdict, hgrants, hsettled⟩ := grants_put hadm hfile htakes
  obtain ⟨hne, hutf8, hlen⟩ := name_of_checkFilename (t := t) hadm.name
  refine ⟨verdict, (put_granted hgrants h hne hutf8 hlen impl).mono ?_⟩
  rintro ok m ⟨hok, hos, hsent⟩
  refine ⟨hok, hos, hsent, ?_, ?_⟩
  · rw [hsent]
    exact ⟨_, hgrants.answer⟩
  · rw [hsent]
    exact hsettled

/-- Of two honest PUTs of a body, one after the other, the first is answered OK or CORRUPT; and when it
is CORRUPT the second succeeds, is answered OK and publishes the body. -/
def Heals (S : Os) (t : Text) (body : Bytes) (first : Impl) (os₁ : Os) (p₁ : Bytes) (second : Impl)
    (os₂ : Os) (p₂ : Bytes) : Prop :=
  first.Put (serverReply S) os₁ p₁ (encode t) fun _ m₁ =>
    Answers S m₁.net.sent okFrame ∨
    ∃ b, IsErrorFrame E_CORRUPT b ∧ Answers S m₁.net.sent b ∧
      second.Put (serverReply (serverRun S m₁.net.sent).os) os₂ p₂ (encode t) fun ok m₂ =>
        ok = true ∧ Answers (serverRun S m₁.net.sent).os m₂.net.sent okFrame ∧
          (serverRun (serverRun S m₁.net.sent).os m₂.net.sent).os.content (encode t) = some body

/-- **Uploads heal themselves**, whatever the partial of the upload holds. -/
theorem uploads_heal (ht : checkFilename t = true) (hsize : body.length ≤ MAX_FILE_SIZE)
    (hfree : S.at? (encode t) = none)
    (hfile : S.at? (uploadRequest t body).partialPath ≠ some .subdir)
    (htakes : (uploadRequest t body).Takes S) (h₁ : os₁.content p₁ = some body)
    (h₂ : os₂.content p₂ = some body) (first second : Impl) :
    Heals S t body first os₁ p₁ second os₂ p₂ := by
  have hadm : (uploadRequest t body).Admitted S := ⟨ht, hsize, hfree⟩
  obtain ⟨verdict, hput⟩ := put_settles hadm hfile htakes h₁ first
  apply hput.mono
  rintro ok m₁ ⟨-, -, hsent, hanswer, hsettled⟩
  have hframe := (serverRun_put (body.drop (heldOf S t body).length) hadm hfile htakes).2
  rw [← hsent] at hframe
  generalize hS' : (serverRun S m₁.net.sent).os = S' at hsettled hframe ⊢
  rcases hsettled with ⟨rfl, -, -⟩ | ⟨hcorrupt, -, hfree', hgone⟩
  · exact .inl hanswer
  -- the bad partial is gone, so the second attempt starts from nothing
  refine .inr ⟨verdict, hcorrupt, hanswer, ?_⟩
  have htakes' : (uploadRequest t body).Takes S' := by
    unfold PutRequest.Takes
    rw [hframe.accepts]
    exact htakes
  obtain ⟨verdict', hput'⟩ := put_settles ⟨ht, hsize, hfree'⟩ (by rw [hgone]; simp) htakes' h₂ second
  apply hput'.mono
  rintro ok' m₂ ⟨hok, -, -, hanswer', hsettled'⟩
  obtain ⟨rfl, hcontent⟩ := hsettled'.of_fresh hgone
  exact ⟨hok.mpr rfl, hanswer', hcontent⟩

end Heal

/-- The server's directory: a byte that is not the one of the body in the partial of `a`. -/
def garbage : Os := lone (partialBase (ascii "a") (sha256 [1])) [9]

theorem uploads_heal_garbage : Heals garbage ['a'] [1] .python (lone (ascii "f") [1]) (ascii "f") .c
    (lone (ascii "f") [1]) (ascii "f") := by
  have hlooks : garbage.at? (encode ['a']) = none ∧
      garbage.at? (uploadRequest ['a'] [1]).partialPath ≠ some .subdir ∧
      (garbage.accepts (uploadRequest ['a'] [1]).path = true ∧
        garbage.accepts (uploadRequest ['a'] [1]).partialPath = true) ∧
      (lone (ascii "f") [1]).content (ascii "f") = some [1] := by decide +kernel
  obtain ⟨hfree, hfile, htakes, hcontent⟩ := hlooks
  exact uploads_heal (by decide) (by decide) hfree hfile htakes hcontent hcontent .python .c

/-! ## What can be stored -/

/-- A filesystem whose path components may have up to 255 bytes. -/
structure Os.UpTo255 (os : Os) : Prop where
  accepts : ∀ n, os.accepts n = true ↔ n.length ≤ 255
  names : ∀ l n, os.slot (l ++ [n]) ≠ none → n.length ≤ 255

/-- An honest PUT succeeds, is answered OK and publishes the body. -/
def Stores (S : Os) (t : Text) (body : Bytes) (impl : Impl) (os : Os) (path : Bytes) : Prop :=
  impl.Put (serverReply S) os path (encode t) fun ok m => ok = true ∧ Answers S m.net.sent okFrame ∧
    (serverRun S m.net.sent).os.content (encode t) = some body

section Store

variable {S os : Os} {t : Text} {body path : Bytes}

theorem partialPath_length (body : Bytes) (ht : checkFilename t = true) :
    (uploadRequest t body).partialPath.length = (encode t).length + 23 := by
  show (partialName (encode t) (sha256 body)).length = _
  rw [partialName_plain (accepted_of_checkFilename ht).encode_no_slash]
  exact partialBase_length _ (sha256_length body)

/-- What is held is a front of the body unless a partial is there that counts and is not. -/
theorem heldOf_prefix_iff : heldOf S t body <+: body ↔
    ∀ c, S.content (uploadRequest t body).partialPath = some c → c.length ≤ body.length →
      c <+: body := by
  have hheld : heldOf S t body =
      keptOf body.length (S.content (uploadRequest t body).partialPath) := rfl
  rw [hheld]
  cases S.content (uploadRequest t body).partialPath with
  | none => simp [keptOf]
  | some c =>
    by_cases hle : c.length ≤ body.length
    · simp [keptOf, hle]
    · simp [keptOf, hle]

/-- An upload whose partial cannot be opened is not stored. -/
theorem not_stores_of_unwritable (hadm : (uploadRequest t body).Admitted S)
    (hat : ∀ i, S.at? (uploadRequest t body).partialPath ≠ some (.file i))
    (hopen : S.run (.openAb (uploadRequest t body).partialPath) = (.error .osError, S))
    (h : os.content path = some body) (impl : Impl) : ¬ Stores S t body impl os path := by
  intro hstores
  obtain ⟨hne, hutf8, hlen⟩ := name_of_checkFilename (t := t) hadm.name
  obtain ⟨ok, m, ⟨-, -, hcontent⟩, stream, hsent⟩ :=
    hstores.exists_both (put_sends_request h hne hutf8 hlen impl)
  have hfree : S.at? (encode t) = none := hadm.free
  rw [← hsent, serverRun_unwritable hadm hat hopen, Os.content, hfree] at hcontent
  cases hcontent

/-- The name of the partial is too long for the filesystem when the name has more than 232 bytes. -/
theorem unwritable_of_long (body : Bytes) (hS : S.UpTo255) (ht : checkFilename t = true)
    (hlong : 232 < (encode t).length) : S.at? (uploadRequest t body).partialPath = none ∧
      S.run (.openAb (uploadRequest t body).partialPath) = (.error .osError, S) := by
  have hlen := partialPath_length body ht
  have hplain : Plain (uploadRequest t body).partialPath :=
    Plain.partialName (accepted_of_checkFilename ht).encode_no_slash _
  have hloc := Os.locate_plain S hplain
  generalize (uploadRequest t body).partialPath = p at hlen hplain hloc
  have hnone : S.at? p = none := by
    unfold Os.at?
    rw [hloc]
    by_contra hslot
    have := hS.names _ _ hslot
    omega
  refine ⟨hnone, ?_⟩
  rcases Os.run_openAb_none hnone with hrun | ⟨l, hl, -, hc, -⟩
  · exact hrun
  · rw [hloc] at hl
    cases hl
    have haccepts : S.accepts p = true := by simpa [Os.creatable] using hc
    have := (hS.accepts p).mp haccepts
    omega

/-- **What can be stored**: on a filesystem for names of up to 255 bytes, an honest PUT of an accepted
name that is free succeeds exactly when the name has at most 232 bytes and what is left of an earlier
attempt is a file that is too long to count or a front of the body. -/
theorem stores_iff (hS : S.UpTo255) (ht : checkFilename t = true) (hsize : body.length ≤ MAX_FILE_SIZE)
    (hfree : S.at? (encode t) = none) (h : os.content path = some body) (impl : Impl) :
    Stores S t body impl os path ↔ (encode t).length ≤ 232 ∧
      S.at? (uploadRequest t body).partialPath ≠ some .subdir ∧
      ∀ c, S.content (uploadRequest t body).partialPath = some c → c.length ≤ body.length →
        c <+: body := by
  have hadm : (uploadRequest t body).Admitted S := ⟨ht, hsize, hfree⟩
  rw [← heldOf_prefix_iff]
  -- when the partial can be written, the upload ends with what it held and the rest
  have hput : (encode t).length ≤ 232 → S.at? (uploadRequest t body).partialPath ≠ some .subdir →
      ∃ verdict, impl.Put (serverReply S) os path (encode t) fun ok m =>
        (ok = true ↔ verdict = okFrame) ∧ m.os = os ∧
          m.net.sent = putBytes body (encode t) ++ body.drop (heldOf S t body).length ∧
          Answers S m.net.sent verdict ∧ Settled S t body verdict (serverRun S m.net.sent).os := by
    intro hshort hdir
    have htakes : (uploadRequest t body).Takes S := by
      refine ⟨(hS.accepts _).mpr (le_trans hshort (by decide)), (hS.accepts _).mpr ?_⟩
      rw [partialPath_length body ht]
      omega
    exact put_settles hadm hdir htakes h impl
  constructor
  · intro hstores
    have hshort : (encode t).length ≤ 232 := by
      by_contra hlong
      obtain ⟨hnone, hopen⟩ := unwritable_of_long body hS ht (not_le.mp hlong)
      exact not_stores_of_unwritable hadm (fun i => by rw [hnone]; simp) hopen h impl hstores
    have hdir : S.at? (uploadRequest t body).partialPath ≠ some .subdir := by
      intro hdir
      exact not_stores_of_unwritable hadm (fun i => by rw [hdir]; simp) (Os.run_openAb_dir hdir) h impl
        hstores
    refine ⟨hshort, hdir, ?_⟩
    obtain ⟨verdict, hends⟩ := hput hshort hdir
    obtain ⟨ok, m, ⟨-, -, hcontent⟩, -, -, -, -, hsettled⟩ := hstores.exists_both hends
    rcases hsettled with ⟨-, hpub, -⟩ | ⟨-, -, hgone, -⟩
    · rw [hpub, Option.some.injEq] at hcontent
      exact List.prefix_iff_eq_append.mpr hcontent
    · rw [Os.content, hgone] at hcontent
      cases hcontent
  · rintro ⟨hshort, hdir, hfront⟩
    obtain ⟨verdict, hends⟩ := hput hshort hdir
    have hwhole := List.prefix_iff_eq_append.mp hfront
    apply hends.mono
    rintro ok m ⟨hok, -, -, hanswer, hsettled⟩
    rcases hsettled with ⟨rfl, hpub, -⟩ | ⟨-, hhash, -, -⟩
    · rw [hwhole] at hpub
      exact ⟨hok.mpr rfl, hanswer, hpub⟩
    · rw [hwhole] at hhash
      exact absurd rfl hhash

end Store

theorem empty_upTo255 : Os.empty.UpTo255 where
  accepts n := by
    show decide (n.length ≤ 255) = true ↔ _
    exact decide_eq_true_iff
  names l n h := by
    have hnone : Os.empty.slot (l ++ [n]) = none := by
      rw [Os.slot_of_apart _ (by simp [Os.empty])]
      rfl
    exact absurd hnone h

/-- A short name on an empty server. -/
theorem stores_short : Stores Os.empty ['a'] [1] .python (lone (ascii "f") [1]) (ascii "f") := by
  have hlooks : Os.empty.at? (encode ['a']) = none ∧
      Os.empty.at? (uploadRequest ['a'] [1]).partialPath = none ∧
      (lone (ascii "f") [1]).content (ascii "f") = some [1] := by decide +kernel
  obtain ⟨hfree, hnone, hcontent⟩ := hlooks
  refine (stores_iff empty_upTo255 (by decide) (by decide) hfree hcontent .python).mpr
    ⟨by decide, by rw [hnone]; simp, fun c hc => ?_⟩
  rw [Os.content, hnone] at hc
  cases hc

/-- A name of 233 bytes is accepted and free, the filesystem takes it, and it cannot be stored. -/
theorem not_stores_long : checkFilename (List.replicate 233 'a') = true ∧
    Os.empty.accepts (encode (List.replicate 233 'a')) = true ∧
    Os.empty.at? (encode (List.replicate 233 'a')) = none ∧
    (lone (ascii "f") [1]).content (ascii "f") = some [1] ∧
    ¬ Stores Os.empty (List.replicate 233 'a') [1] .python (lone (ascii "f") [1]) (ascii "f") := by
  have hlooks : checkFilename (List.replicate 233 'a') = true ∧
      Os.empty.accepts (encode (List.replicate 233 'a')) = true ∧
      Os.empty.at? (encode (List.replicate 233 'a')) = none ∧
      (lone (ascii "f") [1]).content (ascii "f") = some [1] ∧
      232 < (encode (List.replicate 233 'a')).length := by decide +kernel
  generalize List.replicate 233 'a' = t at hlooks ⊢
  obtain ⟨hcheck, haccepts, hfree, hcontent, hlong⟩ := hlooks
  obtain ⟨hnone, hopen⟩ := unwritable_of_long [1] empty_upTo255 hcheck hlong
  refine ⟨hcheck, haccepts, hfree, hcontent, ?_⟩
  have hadm : (uploadRequest t [1]).Admitted Os.empty :=
    ⟨hcheck, show ([1] : Bytes).length ≤ MAX_FILE_SIZE by decide, hfree⟩
  exact not_stores_of_unwritable hadm (fun i => by rw [hnone]; simp) hopen hcontent
    .python

end Retriever
