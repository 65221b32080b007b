/-
# Retriever.Network.Delivery — what the clients can rely on

The two ends put together. A client that ends with the status 0 has read the replies of its session, and its
session has heard its request; so what the server says of its replies holds for what the client has asked.

An upload that has ended with 0 is stored, from then on and for good, with the hash of the file that was
uploaded (`upload_delivered`), and of all the clients that upload under a name at most one ends with 0
(`upload_exclusive`). A download that has ended with 0 has saved a file with the hash of the one that the
server has (`download_delivered`). All of this holds in every run of any number of clients of both kinds,
with connections that fail at any time.
-/
import Retriever.Network.Commands
import Retriever.Server.Assured
import Retriever.Server.Restart

namespace Retriever

variable {T : Type}

/-- The name under which the server stores what is uploaded under a name: bytes that are no UTF-8 are
replaced. -/
def storedName (name : Bytes) : Bytes := encode (decodeReplace name)

/-- A session has heard the request that its client has sent. -/
theorem Opens.eq {f : Frame} {h x payload : Bytes} {t : UInt8} (ho : Opens f h) (hp : payload.length < 256 ^ 8)
    (hx : frameBytes T_HELLO [] ++ frameBytes t payload <+: h ++ x) : f = ⟨t, payload⟩ := by
  obtain ⟨g, hg, hf, y, hy⟩ := ho
  obtain ⟨z, hz⟩ := hx
  rw [← hy] at hz
  simp only [List.append_assoc] at hz
  obtain ⟨-, -, hz⟩ := frameBytes_append_inj (by decide) hg hz
  obtain ⟨ht, hpay, -⟩ := frameBytes_append_inj hp hf hz
  rw [ht, hpay]

/-- A reply that is announced is no ERROR. -/
theorem Announced.noError {x : Bytes} (h : Announced x) (y : Bytes) : NoError (x ++ y) := by
  obtain ⟨hlen, t, n, hp, ht⟩ := h
  have htake : (x.take HEADER_SIZE).length = HEADER_SIZE := by
    rw [List.length_take]
    omega
  obtain ⟨hhead, -, -⟩ := (parseHeader_eq_ok htake).mp hp
  have hx : x = MAGIC ++ [VERSION, t] ++ toBE 8 n ++ x.drop HEADER_SIZE := by
    rw [← hhead, List.take_append_drop]
  rw [hx]
  refine ⟨by simp [MAGIC], ?_⟩
  rintro reason b ⟨message, -, rfl⟩ ⟨z, hz⟩
  simp only [frameBytes, List.append_assoc, List.append_cancel_left_eq, List.cons_append] at hz
  exact ht (List.cons.inj (List.cons.inj hz).2).1.symm

/-- The hash in the metadata of a reply. -/
theorem metaHash_reply (c : Bytes) (start : Nat) (y : Bytes) :
    metaHash (getHeader c start ++ getMeta c start ++ y) = sha256 c := by
  unfold metaHash getMeta
  rw [List.append_assoc, ← List.drop_drop, List.drop_left' (getHeader_length c start), List.append_assoc,
    List.drop_left' (by rw [List.length_append, toBE_length, toBE_length]),
    List.take_left' (sha256_length c)]

namespace Network

variable [DecidableEq T] {os : Os} {clients : T → Client} {n : Network T} {t : T} {path : Bytes}
  {other : Option Bytes}

/-- An upload that has ended with 0 has been confirmed by its session. -/
theorem Run.put_confirmed (hr : Run (start os clients) n) (hc : (clients t).command = .put path other)
    (hdone : (n.parties t).status = some 0) :
    ∃ body f u, (clients t).os.content path = some body ∧ uploadOf (0, f) = some u ∧
      u.path = storedName ((clients t).remote path other) ∧ u.digest = sha256 body ∧
      ∃ e ∈ n.server.world.log, e.Of t (0, f) ∧ e.Sends okFrame := by
  obtain ⟨m, got, sent, hcomes, -, hpassed⟩ := hr.finished hdone
  obtain ⟨body, hput⟩ := hcomes.put hc
  obtain ⟨f₀, f₁, f₂, more, hl₀, hl₁, hl₂, ht₁, ht₂, hgot⟩ := hput.answered
  -- what the client has read begins what the session has said
  obtain ⟨rest, hsaid⟩ := hpassed.got.trans (carried_le_said _ _).flatten
  rw [hgot] at hsaid
  simp only [List.append_assoc] at hsaid
  obtain ⟨f, hopens, hsure⟩ := hr.server.put_assured hl₀ hl₁ hl₂ hsaid.symm ht₁ ht₂
  -- and what the session has heard begins what the client has sent
  obtain rfl := hopens.eq (putPayload_short hput.short) (hput.asked.trans hpassed.sent)
  have hsmall : body.length < 256 ^ 8 := by
    obtain ⟨i, -, hdata⟩ := Os.content_at hput.file
    have := (clients t).os.small i
    have : OFF_MAX = 2 ^ 63 := rfl
    rw [← hdata]
    omega
  refine ⟨body, _, ⟨body.length, sha256 body, decodeReplace ((clients t).remote path other)⟩,
    hput.file, ?_, rfl, rfl, hsure rfl⟩
  unfold uploadOf
  rw [if_pos rfl, parsePut_putPayload hsmall (sha256_length body) hput.short]
  rfl

/-- An upload that has ended with 0 is on the shelf. -/
theorem Run.put_stored (h : Shelved os) (hr : Run (start os clients) n)
    (hc : (clients t).command = .put path other)
    (hn : ¬ IsPartialName (storedName ((clients t).remote path other)))
    (hdone : (n.parties t).status = some 0) :
    ∃ body c, (clients t).os.content path = some body ∧ sha256 c = sha256 body ∧
      ∃ ho : Ordinary (storedName ((clients t).remote path other)),
        n.server.world.os.shelf ⟨_, ho⟩ = some (.file c) := by
  obtain ⟨body, f, u, hbody, hu, hpath, hdigest, e, he, hof, hsend⟩ := hr.put_confirmed hc hdone
  have hup : e.Uploads u := ⟨(0, f), hof.2, hu⟩
  rw [← hpath] at hn ⊢
  have hord : Ordinary u.path := ⟨(hr.server.confirmed_binds he hup hsend).1, hn⟩
  obtain ⟨c, hitem, hsha⟩ := hr.server.confirmed_item h he hup hord hsend
  exact ⟨body, c, hbody, hsha.trans hdigest, hord, hitem⟩

/-- **A client can rely on an upload that has ended with 0.** In every run of the network, from the end of such
an upload on and whatever happens then, the server has one and the same file under its name, and its hash is
that of the file that was uploaded. -/
theorem upload_delivered (h : Shelved os) (hr : Run (start os clients) n)
    (hc : (clients t).command = .put path other)
    (hn : ¬ IsPartialName (storedName ((clients t).remote path other)))
    (hdone : (n.parties t).status = some 0) :
    ∃ body c, (clients t).os.content path = some body ∧ sha256 c = sha256 body ∧
      ∀ n', Run n n' →
        n'.server.world.os.content (storedName ((clients t).remote path other)) = some c := by
  obtain ⟨body, c, hbody, hsha, ho, hshelf⟩ := hr.put_stored h hc hn hdone
  refine ⟨body, c, hbody, hsha, fun n' hrun => ?_⟩
  exact (Os.item_content ho).mp (Server.Run.shelf_run h hr.server hrun.server hshelf)

/-- A Python client uploads a file; a C client downloads it. -/
def handover : Bool → Client
  | false => ⟨.python, .put (ascii "a") none, lone (ascii "a") [1, 2, 3]⟩
  | true => ⟨.c, .get (ascii "a") none, Os.empty⟩

/-- The upload, and then some turns of the download. -/
def handedOver (k : Nat) : Network Bool := (start Os.empty handover).play (turns false 33 ++ turns true k)

theorem handedOver_run (k : Nat) : Run (start Os.empty handover) (handedOver k) := by
  rw [handedOver]
  exact play_run _ _

theorem handedOver_uploaded : ((handedOver 0).parties false).status = some 0 := by decide +kernel

theorem storedName_a : storedName (ascii "a") = ascii "a" := by decide +kernel

theorem ordinary_a : Ordinary (ascii "a") :=
  ⟨⟨by decide, by decide, by decide, by decide⟩, fun hp => absurd hp.suffix.length_le (by decide)⟩

/-- The file of the Python client is on the server for good. -/
theorem upload_delivered_handover :
    ((handedOver 0).parties false).status = some 0 ∧ ∃ c, sha256 c = sha256 [1, 2, 3] ∧
      ∀ n', Run (handedOver 0) n' → n'.server.world.os.content (ascii "a") = some c := by
  have hname : storedName ((handover false).remote (ascii "a") none) = ascii "a" := storedName_a
  have hfile : (handover false).os.content (ascii "a") = some [1, 2, 3] := by decide +kernel
  obtain ⟨body, c, hbody, hsha, hkept⟩ := upload_delivered shelved_empty (handedOver_run 0) rfl
    (hname ▸ ordinary_a.notPartial) handedOver_uploaded
  rw [hfile] at hbody
  cases hbody
  rw [hname] at hkept
  exact ⟨handedOver_uploaded, c, hsha, hkept⟩

/-- **At most one upload of a name ends with 0**, on every directory. -/
theorem upload_exclusive (hr : Run (start os clients) n) {t' : T} {path' : Bytes}
    {other' : Option Bytes} (hne : t ≠ t') (hc : (clients t).command = .put path other)
    (hc' : (clients t').command = .put path' other')
    (hsame : storedName ((clients t).remote path other) = storedName ((clients t').remote path' other'))
    (hn : ¬ IsPartialName (storedName ((clients t).remote path other)))
    (hdone : (n.parties t).status = some 0) : (n.parties t').status ≠ some 0 := by
  intro hdone'
  obtain ⟨-, f, u, -, hu, hpath, -, e, he, hof, hsend⟩ := hr.put_confirmed hc hdone
  obtain ⟨-, f', u', -, hu', hpath', -, e', he', hof', hsend'⟩ := hr.put_confirmed hc' hdone'
  have hup : e.Uploads u := ⟨(0, f), hof.2, hu⟩
  have hup' : e'.Uploads u' := ⟨(0, f'), hof'.2, hu'⟩
  rw [← hpath] at hn hsame
  rw [← hpath'] at hsame
  apply hne
  rw [← hof.1, ← hof'.1]
  exact hr.server.confirmed_once he he' hup hup' hsame hn hsend hsend'

/-- A C client uploads another file under the name that a Python client uploads under. -/
def rivals : Bool → Client
  | false => ⟨.python, .put (ascii "a") none, lone (ascii "a") [1, 2, 3]⟩
  | true => ⟨.c, .put (ascii "b") (some (ascii "a")), lone (ascii "b") [4]⟩

/-- Both have come to an end. -/
def rivalsDone : Network Bool := (start Os.empty rivals).play (turns false 33 ++ turns true 16)

theorem rivalsDone_run : Run (start Os.empty rivals) rivalsDone := by
  rw [rivalsDone]
  exact play_run _ _

/-- The second of them does not end with 0. -/
theorem upload_exclusive_rivals :
    (rivalsDone.parties false).status = some 0 ∧ (rivalsDone.parties true).status = some 1 ∧
      (rivalsDone.parties true).status ≠ some 0 := by
  have hdone : (rivalsDone.parties false).status = some 0 := by decide +kernel
  have hname : storedName ((rivals false).remote (ascii "a") none) = ascii "a" := storedName_a
  refine ⟨hdone, by decide +kernel, ?_⟩
  exact upload_exclusive rivalsDone_run (by decide) rfl rfl
    (by decide +kernel) (hname ▸ ordinary_a.notPartial) hdone

/-- A download that has ended with 0 has the hash of what is on the shelf. -/
theorem Run.get_saved (h : Shelved os) (hr : Run (start os clients) n) {filename : Bytes}
    {output : Option Bytes} (hc : (clients t).command = .get filename output)
    (hn : Ordinary (storedName filename)) (hdone : (n.parties t).status = some 0) :
    ∃ d c, (n.parties t).machine.os.content ((clients t).dest filename output) = some d ∧
      n.server.world.os.shelf ⟨_, hn⟩ = some (.file c) ∧ sha256 d = sha256 c := by
  obtain ⟨m, got, sent, hcomes, hos, hpassed⟩ := hr.finished hdone
  obtain ⟨hshort, ⟨f₀, more, hlen, rfl, hann, d, hd, hsha⟩, offset, token, ho, ht, hasked⟩ := hcomes.get hc
  obtain ⟨rest, hcarried⟩ := hpassed.got
  rw [List.append_assoc] at hcarried
  obtain ⟨f, hopens, hsure⟩ := hr.server.get_assured h hlen hcarried.symm (hann.noError rest)
    (by rw [List.length_append]; exact hann.1.trans (Nat.le_add_right _ _))
  have hpayload : (getPayload offset token filename).length < 256 ^ 8 := by
    rw [getPayload_length ht, show GET_PREFIX = 18 from rfl]
    omega
  obtain rfl := hopens.eq hpayload (hasked.trans hpassed.sent)
  obtain ⟨c, hshelf, y, hy⟩ := hsure _ rfl (parseGet_getPayload ho ht hshort) hn
  refine ⟨d, c, by rw [hos]; exact hd, hshelf, ?_⟩
  rw [hsha, ← metaHash_append (by rw [← hsha]; exact sha256_length d) rest, ← hy]
  exact metaHash_reply c _ y

/-- **What is downloaded is what was uploaded.** In every run of the network, a download that has ended
with 0 has saved a file whose hash is that of the file that the server has under the name; and it is the
hash of the file of every upload under that name that has ended with 0. -/
theorem download_delivered (h : Shelved os) (hr : Run (start os clients) n) {filename : Bytes}
    {output : Option Bytes} (hc : (clients t).command = .get filename output)
    (hn : Ordinary (storedName filename)) (hdone : (n.parties t).status = some 0) :
    ∃ d, (n.parties t).machine.os.content ((clients t).dest filename output) = some d ∧
      (∃ c, n.server.world.os.content (storedName filename) = some c ∧ sha256 d = sha256 c) ∧
      ∀ t' path other, (clients t').command = .put path other →
        storedName ((clients t').remote path other) = storedName filename →
        (n.parties t').status = some 0 →
        ∃ body, (clients t').os.content path = some body ∧ sha256 d = sha256 body := by
  obtain ⟨d, c, hd, hshelf, hsha⟩ := hr.get_saved h hc hn hdone
  refine ⟨d, hd, ⟨c, (Os.item_content hn).mp hshelf, hsha⟩, ?_⟩
  intro t' path other hc' hsame hdone'
  obtain ⟨body, c', hbody, hsha', ho, hshelf'⟩ := hr.put_stored h hc' (by rw [hsame]; exact hn.notPartial)
    hdone'
  have hname : (⟨_, ho⟩ : {n // Ordinary n}) = ⟨_, hn⟩ := Subtype.ext hsame
  rw [hname, hshelf] at hshelf'
  cases hshelf'
  exact ⟨body, hbody, hsha.trans hsha'⟩

/-- The C client has the file of the Python client. -/
theorem download_delivered_handover :
    ((handedOver 27).parties true).status = some 0 ∧
      ∃ d, ((handedOver 27).parties true).machine.os.content (ascii "a") = some d ∧
        sha256 d = sha256 [1, 2, 3] := by
  have hup : ((handedOver 27).parties false).status = some 0 := by decide +kernel
  have hdown : ((handedOver 27).parties true).status = some 0 := by decide +kernel
  have hfile : (handover false).os.content (ascii "a") = some [1, 2, 3] := by decide +kernel
  obtain ⟨d, hd, -, hall⟩ := download_delivered shelved_empty (handedOver_run 27) rfl
    (storedName_a ▸ ordinary_a) hdown
  obtain ⟨body, hbody, hsha⟩ := hall false (ascii "a") none rfl (by decide +kernel) hup
  rw [hfile] at hbody
  cases hbody
  exact ⟨hdown, d, hd, hsha⟩

end Network

end Retriever
