/-
# Retriever.Server.Resume — honest uploads that are cut off and resumed

Every client states the true size and hash of a body and, once the server has offered to resume from
some offset, sends the body from there on, possibly cut short. Then a partial is always a prefix of
the body it is for, the server offers to resume from exactly what has arrived since the partial was
last absent, a partial is never found too long, and no upload ends in CORRUPT.
-/
import Retriever.Server.Uploads

namespace Retriever

variable {T : Type}

/-! ## What is said about the log -/

namespace Event

/-- The partial path of the upload an event belongs to. -/
def partialPath (e : Event T) : Option Bytes := (e.request.bind uploadOf).map PutRequest.partialPath

/-- `os.remove(p)` succeeded. -/
def Removes (p : Bytes) : Event T → Prop
  | ⟨_, _, .fs (.unlink p'), .ok (), _⟩ => p' = p
  | _ => False

end Event

/-- The body bytes that have arrived for the partial `k` since it was last absent. -/
def delivered (k : Bytes) : List (Event T) → Bytes
  | [] => []
  | e :: past =>
    if e.os.content k = none then []
    else delivered k past ++ if e.partialPath = some k then e.data else []

/-- The clients of a run are honest: an upload states the size and the hash of one of the bodies,
and what arrives after an offer to resume from `x` is that body from `x` on, cut off anywhere. -/
structure HonestClients [DecidableEq T] (bodies : Set Bytes) (log : List (Event T)) : Prop where
  states : ∀ e ∈ log, ∀ u, e.Uploads u →
    ∃ b ∈ bodies, u.fileSize = b.length ∧ u.digest = sha256 b
  sends : ∀ e ∈ log, ∀ r u x, e.request = some r → uploadOf r = some u → e.Offers x →
    ∀ b ∈ bodies, u.digest = sha256 b → received e.sid r log <+: b.drop x

/-- Two bodies that share the token of a partial name are the same. -/
def TokensDistinct (bodies : Set Bytes) : Prop :=
  ∀ b ∈ bodies, ∀ b' ∈ bodies, (sha256 b).take TOKEN_SIZE = (sha256 b').take TOKEN_SIZE → b = b'

theorem received_prefix_cons [DecidableEq T] (t : T) (r : Request) (e : Event T)
    (log : List (Event T)) : received t r log <+: received t r (e :: log) :=
  List.prefix_append _ _

theorem HonestClients.tail [DecidableEq T] {bodies : Set Bytes} {e : Event T}
    {log : List (Event T)} (h : HonestClients bodies (e :: log)) : HonestClients bodies log where
  states := fun e' he' => h.states e' (List.mem_cons_of_mem _ he')
  sends := by
    intro e' he' r u x hr hu hx b hb hd
    exact (received_prefix_cons _ _ _ _).trans
      (h.sends e' (List.mem_cons_of_mem _ he') r u x hr hu hx b hb hd)

/-! ## The body of an upload -/

/-- The upload is one of the body `b`. -/
structure PutRequest.Announces (bodies : Set Bytes) (u : PutRequest) (b : Bytes) : Prop where
  mem : b ∈ bodies
  size : u.fileSize = b.length
  digest : u.digest = sha256 b

theorem PutRequest.Announces.unique {bodies : Set Bytes} (htok : TokensDistinct bodies)
    {u u' : PutRequest} {f f' : Frame} {b b' : Bytes} (hu : u.OfFrame f) (hu' : u'.OfFrame f')
    (h : u.Announces bodies b) (h' : u'.Announces bodies b')
    (hp : u.partialPath = u'.partialPath) : b = b' := by
  obtain ⟨-, htoken⟩ := partialName_inj hu.accepted.encode_no_slash hu'.accepted.encode_no_slash
    (parsePut_digest_length hu.parsed) (parsePut_digest_length hu'.parsed) hp
  rw [h.digest, h'.digest] at htoken
  exact htok b h.mem b' h'.mem htoken

/-- Every entry with a partial name is a file that holds a prefix of the body it is for. -/
def Resumable (bodies : Set Bytes) (os : Os) : Prop :=
  ∀ k sl, IsPartialName k → os.entry k = some sl → ∃ i u f b, sl = .file i ∧
    PutRequest.OfFrame u f ∧ u.Announces bodies b ∧ u.partialPath = k ∧ os.store.data i <+: b

/-- The partial of an upload holds a prefix of the body. -/
theorem Resumable.prefix_of {bodies : Set Bytes} {os : Os} (h : Resumable bodies os)
    (htok : TokensDistinct bodies) {u : PutRequest} {f : Frame} {b : Bytes} (hu : u.OfFrame f)
    (hb : u.Announces bodies b) {i : Nat} (he : os.entry u.partialPath = some (.file i)) :
    os.store.data i <+: b := by
  obtain ⟨j, u', f', b', hj, hu', hb', hp, hpre⟩ := h _ _ hu.isPartialName he
  cases hj
  rwa [hb'.unique htok hu' hu hb hp] at hpre

/-! ## What honest uploads do in each phase -/

/-- An upload is never found too long or corrupt, and a chunk in hand is the next piece of the
body. -/
def Phase.Sound (bodies : Set Bytes) (os : Os) (log : List (Event T)) (u : PutRequest) :
    Phase → Prop
  | .oversize | .corrupt => False
  | .rejecting reason => reason = E_ALREADY_EXISTS
  | .storing _ h _ c => (∃ b, u.Announces bodies b ∧ os.store.data h ++ c <+: b) ∧
      delivered u.partialPath log = os.store.data h ++ c
  | _ => True

/-- A session has received a chunk for the partial `k` and is about to write it. -/
def Storing (phs : T → Local) (k : Bytes) : Prop :=
  ∃ t r u x h n c, phs t = .put r u (.storing x h n c) ∧ u.partialPath = k

structure Resumes (bodies : Set Bytes) (w : World T) (phs : T → Local) : Prop where
  partials : Resumable bodies w.os
  sound : ∀ t r u ph, phs t = .put r u ph → ph.Sound bodies w.os w.log u
  absent : ∀ k, w.os.content k = none → delivered k w.log = []
  settled : ∀ k i, IsPartialName k → w.os.entry k = some (.file i) → ¬ Storing phs k →
    delivered k w.log = w.os.store.data i
  offers : ∀ later e past, w.log = later ++ e :: past → ∀ r u x, e.request = some r →
    uploadOf r = some u → e.Offers x → x = (delivered u.partialPath past).length
  removals : ∀ later e past, w.log = later ++ e :: past → ∀ p, e.Removes p →
    ∃ r, e.request = some r ∧ ∃ e' ∈ past, e'.Of e.sid r ∧ ∃ x, e'.Offers x
  corrupts : ∀ e ∈ w.log, ∀ r, e.request = some r → r.2.type = T_PUT → ∀ b, e.Sends b →
    ¬ IsErrorFrame E_CORRUPT b

/-! ## One step -/

section Events

variable {t : T} {q : Option Request} {o : Sys} {a : o.Ans} {os : Os}

/-- An upload gets data only while it is receiving, and then it has a chunk in hand. -/
theorem Phase.Move.data_nil {u : PutRequest} {ph ph' : Phase} (hm : ph.Move u o a ph') :
    (⟨t, q, o, a, os⟩ : Event T).data = [] ∨
      ∃ x h n c, ph = .receiving x h n ∧ ph' = .storing x h n c := by
  cases hm with
  | receive hw hn hc => exact .inr ⟨_, _, _, _, rfl, rfl⟩
  | abort ht hf =>
    left
    cases hf <;> rfl
  | _ => exact .inl rfl

/-- What only looks brings no data to a request. -/
theorem Sys.Quiet.data_nil (h : o.Quiet q) : q = none ∨ (⟨t, q, o, a, os⟩ : Event T).data = [] := by
  cases h with
  | recv n hq => exact .inl hq
  | send hb => exact .inr rfl
  | fs hl => exact .inr rfl

theorem delivered_silent {k : Bytes} {e : Event T} {log : List (Event T)}
    (hc : e.os.content k ≠ none) (hd : e.partialPath = some k → e.data = []) :
    delivered k (e :: log) = delivered k log := by
  rw [delivered, if_neg hc]
  split
  · next hk => rw [hd hk, List.append_nil]
  · rw [List.append_nil]

end Events

/-- Every partial stays a prefix of its body. -/
theorem Change.resumable {bodies : Set Bytes} {os os' : Os} {u : PutRequest} {f : Frame} {b : Bytes}
    {ph ph' : Phase} (hc : Change u os ph ph' os') (hu : u.OfFrame f) (hb : u.Announces bodies b)
    (hnp : ¬ IsPartialName u.path)
    (hstrict : ∀ k k' i, IsPartialName k → IsPartialName k' → os.entry k = some (.file i) →
      os.entry k' = some (.file i) → k = k')
    (hR : Resumable bodies os)
    (hchunk : ∀ x h n c, ph = .storing x h n c → os.store.data h ++ c <+: b) :
    Resumable bodies os' := by
  intro k sl hk he
  by_cases hown : ph.holds = true → k ≠ u.partialPath
  · obtain ⟨hent, hdata⟩ := hc.partials hu hnp hstrict hk hown
    rw [hent] at he
    obtain ⟨i, u', f', b', rfl, hu', hb', hp, hpre⟩ := hR k sl hk he
    exact ⟨i, u', f', b', rfl, hu', hb', hp, by rwa [hdata i he]⟩
  · obtain ⟨hh, rfl⟩ : ph.holds = true ∧ k = u.partialPath := by simpa using hown
    cases hc with
    | same ph ph' _ => exact hR _ sl hk he
    | create r hnone =>
      rw [Os.createAt_entry, if_pos rfl] at he
      cases he
      refine ⟨_, u, f, b, rfl, hu, hb, rfl, ?_⟩
      rw [Os.createAt_data, if_pos rfl]
      exact List.nil_prefix
    | @append x h n c hlt hent =>
      rw [Os.appendTo_entry, hent] at he
      cases he
      refine ⟨h, u, f, b, rfl, hu, hb, rfl, ?_⟩
      rw [Os.appendTo_data, if_pos rfl]
      exact hchunk x h n c rfl
    | unlink hent _ =>
      rw [Os.removeAt_entry, if_pos rfl] at he
      cases he
    | @link i hent hs hnone =>
      rw [Os.linkAt_entry hent, if_neg fun h : u.partialPath = u.path => hnp (h ▸ hk)] at he
      obtain ⟨j, u', f', b', rfl, hu', hb', hp, hpre⟩ := hR _ sl hk he
      exact ⟨j, u', f', b', rfl, hu', hb', hp, by rwa [Os.linkAt_data]⟩

section

variable [DecidableEq T] {bodies : Set Bytes}

/-- The next chunk of an honest client continues the partial. -/
theorem chunk_continues {w : World T} {os' : Os} {t : T} {r : Request} {u : PutRequest}
    {x h : Nat} {c b : Bytes} {o : Sys} {a : o.Ans}
    (hhold : Holding w.os w.log t r u.partialPath h x (received t r w.log))
    (hpre : w.os.store.data h <+: b) (hb : u.Announces bodies b) (hr : uploadOf r = some u)
    (hh : HonestClients bodies (⟨t, some r, o, a, os'⟩ :: w.log))
    (hc : (⟨t, some r, o, a, os'⟩ : Event T).data = c) : w.os.store.data h ++ c <+: b := by
  obtain ⟨kept, ⟨e, he, hof, hoff, -⟩, hlen, hdata⟩ := hhold
  have hsent := hh.sends e (List.mem_cons_of_mem _ he) r u x hof.2 hr hoff b hb.mem hb.digest
  rw [hof.1, received, if_pos (show Event.Of _ t r from ⟨rfl, rfl⟩), hc] at hsent
  have hkept : kept = b.take x := by
    have : kept <+: b := (hdata ▸ List.prefix_append kept _).trans hpre
    rw [← hlen]
    exact List.prefix_iff_eq_take.mp this
  rw [hdata, List.append_assoc, hkept]
  conv_rhs => rw [← List.take_append_drop x b]
  exact (List.prefix_append_right_inj _).mpr hsent

/-- **What an honest upload does next.** -/
theorem Phase.Move.sound (htok : TokensDistinct bodies) {w : World T} {os' : Os} {fl : Finset Bytes}
    {t : T} {r : Request} {u : PutRequest} {ph ph' : Phase} {o : Sys} {a : o.Ans} {b : Bytes}
    (hok : (Local.put r u ph).Ok w.os) (htrail : ph.Trail w.os w.log t r u)
    (hs : ph.Sound bodies w.os w.log u) (hR : Resumable bodies w.os) (hb : u.Announces bodies b)
    (hset : ∀ i, w.os.entry u.partialPath = some (.file i) →
      (∀ x h n c, ph ≠ .storing x h n c) → ph.holds = true →
      delivered u.partialPath w.log = w.os.store.data i)
    (hh : HonestClients bodies (⟨t, some r, o, a, os'⟩ :: w.log)) (hx : w.Answers o a os' fl)
    (hm : ph.Move u o a ph') :
    ph'.Sound bodies os' (⟨t, some r, o, a, os'⟩ :: w.log) u := by
  obtain ⟨hu, hplain, hk⟩ := hok
  have hp := hu.partial_plain
  cases hm with
  | @exceeds st hlt =>
    -- a partial that is there holds a prefix of the body, so it is not longer
    have hst := hx.1
    rw [Os.run_stat_plain hp] at hst
    cases he : w.os.entry u.partialPath with
    | none =>
      rw [he] at hst
      cases hst
    | some sl =>
      obtain ⟨i, -, -, -, rfl, -⟩ := hR _ _ hu.isPartialName he
      have hlen := (hR.prefix_of htok hu hb he).length_le
      rw [he] at hst
      cases hst
      rw [hb.size] at hlt
      exact absurd hlen (Nat.not_le.mpr hlt)
  | @receive x h n m c hw hn hc =>
    have hchunk := chunk_continues htrail.1 (hR.prefix_of htok hu hb hk) hb hu.uploadOf hh rfl
    have hos : os' = w.os := hx.2.1
    subst hos
    refine ⟨⟨b, hb, hchunk⟩, ?_⟩
    have hcontent : w.os.content u.partialPath ≠ none := by
      rw [Os.content_of_entry hp hk]
      simp
    have hpath : (⟨t, some r, .recv m, .ok c, w.os⟩ : Event T).partialPath = some u.partialPath := by
      simp [Event.partialPath, hu.uploadOf]
    rw [delivered, if_neg hcontent, if_pos hpath, hset h hk (by simp) rfl]
    rfl
  | @mismatch i n acc hn hd =>
    -- the whole body is there, and it has the stated hash
    obtain ⟨j, x, hent, -, hsize⟩ := htrail
    have hacc := eq_data_of_read_nil hn hk.2 hx.1
    obtain rfl : j = i := by
      rw [hk.1] at hent
      cases hent
      rfl
    have hall : w.os.store.data j = b :=
      (hR.prefix_of htok hu hb hent).eq_of_length_le (by rw [← hb.size]; exact hsize)
    exact absurd (by rw [hacc, hall, hb.digest]) hd
  | drop | dropCorrupt => exact hs.elim
  | dropLost => rfl
  | _ => trivial

end

/-- Only an upload that is ready to makes an offer. -/
theorem Local.Move.of_offer {o : Sys} {a : o.Ans} {l l' : Local} {x : Nat} (hm : l.Move o a l')
    (ho : o = .send (offerFrame x)) (hput : IsPut l.request) :
    ∃ r u y, l = .put r u (.ready y) ∧ offerFrame y = offerFrame x := by
  rcases hm.split with ⟨hq, -⟩ | ⟨r, u, ph, ph', rfl, hm, -⟩
  · subst ho
    cases hq with
    | send hb =>
      obtain ⟨reason, -, herr⟩ := hb hput
      exact absurd rfl (herr.ne_offerFrame x)
  · cases hm with
    | offer y => exact ⟨r, u, y, rfl, Sys.send.inj ho⟩
    | turnAway a hb | tellBusy a hb | reject a hb =>
      exact absurd (Sys.send.inj ho) (hb.ne_offerFrame x)
    | confirm a => exact absurd (Sys.send.inj ho).symm (offerFrame_ne_okFrame x)
    | abort ht hf =>
      cases hf with
      | offer y e =>
        -- only phase `ready` can fail at sending
        cases ph with
        | ready z => exact ⟨r, u, z, rfl, (Sys.send.inj ht).symm.trans (Sys.send.inj ho)⟩
        | receiving => rcases ht with ⟨n, ht⟩ | ⟨-, ht⟩ <;> cases ht
        | hashing => exact absurd ht.choose_spec (by simp)
        | sniffing => exact absurd ht.choose_spec.choose_spec (by simp)
        | _ => cases ht
      | _ => cases ho
    | _ => cases ho

/-- A session that removes a file has linked it, has lost the race for the name, or has found its
partial too long or corrupt. -/
theorem Local.Move.of_removes {t : T} {q : Option Request} {o : Sys} {a : o.Ans} {os : Os}
    {l l' : Local} {p : Bytes} (hm : l.Move o a l')
    (h : (⟨t, q, o, a, os⟩ : Event T).Removes p) :
    ∃ r u ph, l = .put r u ph ∧
      (ph = .oversize ∨ ph = .corrupt ∨ ph = .linked ∨ ph = .lost) := by
  rcases hm.split with ⟨hq, -⟩ | ⟨r, u, ph, ph', rfl, hm, -⟩
  · cases hq with
    | recv | send => exact h.elim
    | fs hl => cases hl <;> exact h.elim
  · refine ⟨r, u, ph, rfl, ?_⟩
    cases hm with
    | drop => exact .inl rfl
    | dropCorrupt => exact .inr (.inl rfl)
    | unlink => exact .inr (.inr (.inl rfl))
    | dropLost => exact .inr (.inr (.inr rfl))
    | abort ht hf =>
      cases hf with
      | fs hr => cases hr <;> exact h.elim
      | _ => exact h.elim
    | _ => exact h.elim

/-- Only an upload that is being rejected as corrupt says CORRUPT. -/
theorem Local.Move.of_corrupt {o : Sys} {a : o.Ans} {l l' : Local} {b : Bytes} (hm : l.Move o a l')
    (ho : o = .send b) (hput : IsPut l.request) (hb : IsErrorFrame E_CORRUPT b) :
    ∃ r u, l = .put r u (.rejecting E_CORRUPT) := by
  subst ho
  rcases hm.split with ⟨hq, -⟩ | ⟨r, u, ph, ph', rfl, hm, -⟩
  · cases hq with
    | send hq =>
      obtain ⟨reason, hne, herr⟩ := hq hput
      exact absurd (herr.reason_eq hb) hne
  · cases hm with
    | turnAway a herr | tellBusy a herr => exact absurd (herr.reason_eq hb) (by decide)
    | reject a herr =>
      rw [herr.reason_eq hb]
      exact ⟨r, u, rfl⟩
    | offer y => exact absurd rfl (hb.ne_offerFrame y)
    | confirm a => exact absurd rfl hb.ne_okFrame
    | abort ht hf =>
      cases hf with
      | offer y e => exact absurd rfl (hb.ne_offerFrame y)

section

variable {bodies : Set Bytes} {w w' : World T} {phs : T → Local} {t : T}
  {s : Session} {o : Sys} {a : o.Ans} {l : Local}

theorem Event.partialPath_of {e : Event T} {r : Request} {u : PutRequest} (h : e.request = some r)
    (hu : uploadOf r = some u) : e.partialPath = some u.partialPath := by
  simp [Event.partialPath, h, hu]

theorem Phase.Sound.frame {os os' : Os} {log log' : List (Event T)} {u : PutRequest} {ph : Phase}
    (h : ph.Sound bodies os log u)
    (hf : ∀ x i n c, ph = .storing x i n c → os'.store.data i = os.store.data i ∧
      delivered u.partialPath log' = delivered u.partialPath log) : ph.Sound bodies os' log' u := by
  cases ph with
  | storing x i n c =>
    obtain ⟨hd, hdel⟩ := hf x i n c rfl
    obtain ⟨hb, hc⟩ := h
    rw [Phase.Sound, hd, hdel]
    exact ⟨hb, hc⟩
  | _ => exact h

/-- What has arrived for a partial is what it holds, when its session has no chunk in hand. -/
theorem Resumes.settled_own (hi : Inv IsPartialName w phs) (hR : Resumes bodies w phs) {r : Request}
    {u : PutRequest} {ph : Phase} (ht : phs t = .put r u ph) (hh : ph.holds = true)
    (hns : ∀ x h n c, ph ≠ .storing x h n c) {i : Nat}
    (he : w.os.entry u.partialPath = some (.file i)) :
    delivered u.partialPath w.log = w.os.store.data i := by
  have hok := hi.ok t
  rw [ht] at hok
  apply hR.settled _ _ hok.1.isPartialName he
  rintro ⟨t', r', u', x, h, n, c, ht', hp⟩
  have : t' = t := hi.leases.unique t' t u.partialPath (hp ▸ Local.held_of_holds ht' rfl)
    (Local.held_of_holds ht hh)
  subst this
  rw [ht] at ht'
  cases ht'
  exact hns _ _ _ _ rfl

/-- Nothing arrives for a partial that the session does not hold. -/
theorem delivered_other (hi : Inv IsPartialName w phs) (hrel : Local.Rel s (phs t))
    (hx : World.Exec t s w o a w') (hm : (phs t).Move o a l) {k : Bytes}
    (hc : w'.os.content k ≠ none)
    (hne : ∀ r u ph, phs t = .put r u ph → ph.holds = true → k ≠ u.partialPath) :
    delivered k w'.log = delivered k w.log := by
  have hreq := hrel.request
  rw [hx.2]
  refine delivered_silent hc fun hp => ?_
  rcases hm.split with ⟨hq, -⟩ | ⟨r, u, ph, ph', hl, hm, -⟩
  · rw [hreq] at hp ⊢
    rcases hq.data_nil with hnone | hnil
    · rw [hnone] at hp
      cases hp
    · exact hnil
  · have hok := hi.ok t
    rw [hl] at hok hreq
    rw [Event.partialPath_of hreq hok.1.uploadOf] at hp
    rcases hm.data_nil with hnil | ⟨x, h, n, c, rfl, -⟩
    · exact hnil
    · exact absurd (Option.some.inj hp).symm (hne _ _ _ hl rfl)

variable [DecidableEq T]

/-- A step changes no partial that its session does not hold. -/
theorem Trails.partial_other (hi : Inv IsPartialName w phs) (htr : Trails w phs)
    (hnp : NoPartialNames w'.log) (hrel : Local.Rel s (phs t)) (hx : World.Exec t s w o a w')
    (hm : (phs t).Move o a l) {k : Bytes} (hk : IsPartialName k)
    (hne : ∀ r u ph, phs t = .put r u ph → ph.holds = true → k ≠ u.partialPath) :
    w'.os.entry k = w.os.entry k ∧
      ∀ i, w.os.entry k = some (.file i) → w'.os.store.data i = w.os.store.data i := by
  rcases hm.effect hx.1 with ⟨hos, -⟩ | ⟨r, u, ph, ph', hl, hm, -⟩
  · rw [hos]
    exact ⟨rfl, fun _ _ => rfl⟩
  · have hok := hi.ok t
    have hreq := hrel.request
    rw [hl] at hok hreq
    have hname : ¬ IsPartialName u.path :=
      hnp _ (by rw [hx.2]; exact List.mem_cons_self) u ⟨r, hreq, hok.1.uploadOf⟩
    exact (hm.change hok hx.1).partials hok.1 hname htr.strict hk (hne r u ph hl)

theorem Storing.update {k : Bytes} (h : Storing phs k)
    (ht : ∀ r u x i n c, phs t = .put r u (.storing x i n c) → u.partialPath ≠ k) :
    Storing (Function.update phs t l) k := by
  obtain ⟨t', r, u, x, i, n, c, ht', hk⟩ := h
  have hne : t' ≠ t := by
    rintro rfl
    exact ht _ _ _ _ _ _ ht' hk
  exact ⟨t', r, u, x, i, n, c, by rw [Function.update_of_ne hne, ht'], hk⟩

/-- **What is known about an honest upload, one step further.** -/
theorem Resumes.step_sound (htok : TokensDistinct bodies) (hU : UploadInv w phs)
    (hR : Resumes bodies w phs) (hnp : NoPartialNames w'.log) (hh : HonestClients bodies w'.log)
    (hrel : Local.Rel s (phs t)) (hx : World.Exec t s w o a w') (hm : (phs t).Move o a l)
    (htr : Trails w phs) : ∀ t' r u ph, Function.update phs t l t' = .put r u ph →
      ph.Sound bodies w'.os w'.log u := by
  intro t' r' u' ph₁ ht'
  have hi := hU.base
  have hreq := hrel.request
  by_cases h : t' = t
  · subst h
    rw [Function.update_self] at ht'
    rcases hm.split with ⟨-, -, ⟨b, q, rfl⟩ | ⟨b, f, u, -, rfl, -⟩⟩ |
      ⟨r, u, ph, ph', hl, hmove, rfl | ⟨-, b, q, rfl⟩⟩
    · cases ht'
    · cases ht'
      trivial
    · cases ht'
      have hok := hi.ok t'
      rw [hl] at hok hreq
      obtain ⟨b, hb, hsize, hdig⟩ := hh.states _ (by rw [hx.2]; exact List.mem_cons_self) u'
        ⟨r', hreq, hok.1.uploadOf⟩
      have hlog := hx.2
      rw [hreq] at hlog
      rw [hlog] at hh ⊢
      exact hmove.sound htok hok (htr.trail t' _ _ _ hl) (hR.sound t' _ _ _ hl) hR.partials
        ⟨hb, hsize, hdig⟩ (fun i he hns hhold => hR.settled_own hi hl hhold hns he) hh hx.1
    · cases ht'
  · rw [Function.update_of_ne h] at ht'
    refine (hR.sound t' r' u' ph₁ ht').frame fun x i n c hph => ?_
    subst hph
    have hok' := hi.ok t'
    rw [ht'] at hok'
    have hne : ∀ r u ph, phs t = .put r u ph → ph.holds = true → u'.partialPath ≠ u.partialPath :=
      fun r u ph hl hhold => hi.partial_ne h hl ht' hhold rfl
    obtain ⟨hent, hdata⟩ := htr.partial_other hi hnp hrel hx hm hok'.1.isPartialName hne
    have hent' : w.os.entry u'.partialPath = some (.file i) := hok'.2.2
    refine ⟨hdata i hent', delivered_other hi hrel hx hm ?_ hne⟩
    rw [Os.content_of_entry hok'.1.partial_plain (hent.trans hent')]
    simp

/-- **What has arrived for a partial, one step further.** -/
theorem Resumes.step_settled (hi : Inv IsPartialName w phs)
    (hR : Resumes bodies w phs) (hnp : NoPartialNames w'.log)
    (hrel : Local.Rel s (phs t)) (hx : World.Exec t s w o a w') (hm : (phs t).Move o a l)
    (htr : Trails w phs) (hpart : Resumable bodies w'.os) :
    ∀ k i, IsPartialName k → w'.os.entry k = some (.file i) →
      ¬ Storing (Function.update phs t l) k → delivered k w'.log = w'.os.store.data i := by
  intro k i hk he hns
  have hcontent : w'.os.content k ≠ none := by
    obtain ⟨j, u, f, b, -, hu, -, rfl, -⟩ := hpart k _ hk he
    rw [Os.content_of_entry hu.partial_plain he]
    simp
  by_cases hne : ∀ r u ph, phs t = .put r u ph → ph.holds = true → k ≠ u.partialPath
  · obtain ⟨hent, hdata⟩ := htr.partial_other hi hnp hrel hx hm hk hne
    rw [hent] at he
    rw [delivered_other hi hrel hx hm hcontent hne, hdata i he]
    refine hR.settled k i hk he fun hst => hns (hst.update ?_)
    rintro r u x j n c ht rfl
    exact hne _ _ _ ht rfl rfl
  · -- the partial is the session's own
    simp only [not_forall, not_not] at hne
    obtain ⟨r, u, ph, hl, hhold, rfl⟩ := hne
    have hok := hi.ok t
    have hreq := hrel.request
    rcases hm.split with ⟨-, ⟨b, q, hl'⟩, -⟩ | ⟨r', u', ph₁, ph', hl', hmove, hlast⟩
    · rw [hl] at hl'
      cases hl'
    · rw [hl] at hl' hok hreq
      cases hl'
      have hp := hok.1.partial_plain
      have hname : ¬ IsPartialName u.path :=
        hnp _ (by rw [hx.2]; exact List.mem_cons_self) u ⟨r, hreq, hok.1.uploadOf⟩
      have hsilent : (⟨t, s.request, o, a, w'.os⟩ : Event T).data = [] := by
        rcases hmove.data_nil with hnil | ⟨x, h, n, c, -, rfl⟩
        · exact hnil
        · rcases hlast with rfl | ⟨hend, -⟩
          · exact absurd ⟨t, r, u, x, h, n, c, Function.update_self .., rfl⟩ hns
          · cases hend
      have hsame : delivered u.partialPath w'.log = delivered u.partialPath w.log := by
        rw [hx.2]
        exact delivered_silent hcontent fun _ => hsilent
      rw [hsame]
      have hc := hmove.change hok hx.1
      by_cases hst : ∃ x h n c, ph = .storing x h n c
      · obtain ⟨x, h, n, c, rfl⟩ := hst
        obtain ⟨⟨b, hb, hpre⟩, hdel⟩ := hR.sound t r u _ hl
        cases hmove with
        | store =>
          obtain ⟨hlt, hos⟩ := Os.run_write_ok hx.1.1
          have hent : w.os.entry u.partialPath = some (.file h) := hok.2.2
          rw [hx.1.2.1, hos] at he ⊢
          rw [Os.appendTo_entry, hent] at he
          cases he
          rw [hdel, Os.appendTo_data, if_pos rfl]
        | abort ht hf =>
          -- the write does not fail: the body is far below the largest file size
          cases ht
          cases hf with
          | fs href =>
            cases href with
            | write _ _ e =>
              have hmax := Os.run_write_error hx.1.1
              have hlen := hpre.length_le
              rw [List.length_append, ← hb.size] at hlen
              have hsize := hok.1.size
              have : MAX_FILE_SIZE < OFF_MAX := by decide
              omega
      · have hns' : ∀ x h n c, ph ≠ .storing x h n c := fun x h n c hph => hst ⟨x, h, n, c, hph⟩
        have hown : ∀ {j}, w.os.entry u.partialPath = some (.file j) →
            delivered u.partialPath w.log = w.os.store.data j :=
          fun he => hR.settled_own hi hl hhold hns' he
        generalize hos : w'.os = os' at hc he
        cases hc with
        | same ph ph' _ => exact hown he
        | create r hnone =>
          rw [Os.createAt_entry, if_pos rfl] at he
          cases he
          rw [hR.absent _ (Os.content_of_none hp hnone), Os.createAt_data, if_pos rfl]
        | append hlt hent => exact absurd rfl (hns' _ _ _ _)
        | unlink hent _ =>
          rw [Os.removeAt_entry, if_pos rfl] at he
          cases he
        | link hent hs hnone =>
          have hdiff : u.partialPath ≠ u.path := fun h => hname (h ▸ hk)
          rw [Os.linkAt_entry hent, if_neg hdiff] at he
          rw [Os.linkAt_data]
          exact hown he

theorem Resumes.step_partials (hi : Inv IsPartialName w phs) (hR : Resumes bodies w phs)
    (htok : TokensDistinct bodies) (hnp : NoPartialNames w'.log) (hh : HonestClients bodies w'.log)
    (hrel : Local.Rel s (phs t)) (hx : World.Exec t s w o a w') (hm : (phs t).Move o a l)
    (htr : Trails w phs) : Resumable bodies w'.os := by
  rcases hm.effect hx.1 with ⟨hos, -⟩ | ⟨r, u, ph, ph', hl, hm, -⟩
  · rw [hos]
    exact hR.partials
  · have hok := hi.ok t
    have hreq := hrel.request
    rw [hl] at hok hreq
    have hup : (⟨t, s.request, o, a, w'.os⟩ : Event T).Uploads u := ⟨r, hreq, hok.1.uploadOf⟩
    have hmem : (⟨t, s.request, o, a, w'.os⟩ : Event T) ∈ w'.log := by
      rw [hx.2]
      exact List.mem_cons_self
    obtain ⟨b, hb, hsize, hdig⟩ := hh.states _ hmem u hup
    refine (hm.change hok hx.1).resumable hok.1 ⟨hb, hsize, hdig⟩ (hnp _ hmem u hup) htr.strict
      hR.partials ?_
    rintro x h n c rfl
    obtain ⟨⟨b', hb', hpre⟩, -⟩ := hR.sound t r u _ hl
    rwa [hb'.unique htok hok.1 hok.1 ⟨hb, hsize, hdig⟩ rfl] at hpre

/-- The offset an upload is offered is what has arrived. -/
theorem Resumes.offer_eq (hi : Inv IsPartialName w phs) (hR : Resumes bodies w phs)
    (htr : Trails w phs) {r : Request} {u : PutRequest} {x : Nat}
    (hl : phs t = .put r u (.ready x)) : x = (delivered u.partialPath w.log).length := by
  have hok := hi.ok t
  rw [hl] at hok
  obtain ⟨-, -, hnone, hfile⟩ := htr.trail t r u _ hl
  cases he : w.os.entry u.partialPath with
  | none =>
    rw [hR.absent _ (Os.content_of_none hok.1.partial_plain he), hnone he]
    rfl
  | some sl =>
    obtain ⟨i, -, -, -, rfl, -⟩ := hR.partials _ _ hok.1.isPartialName he
    rw [hR.settled_own hi hl rfl (by simp) he]
    exact hfile i he

/-- **Honest uploads, one step further.** -/
theorem Resumes.step (htok : TokensDistinct bodies) (hU : UploadInv w phs)
    (hR : Resumes bodies w phs) (hnp : NoPartialNames w'.log) (hh : HonestClients bodies w'.log)
    (hrel : Local.Rel s (phs t)) (hx : World.Exec t s w o a w') (hm : (phs t).Move o a l) :
    Resumes bodies w' (Function.update phs t l) := by
  have hi := hU.base
  have hlog := hx.2
  have hreq := hrel.request
  have htr : Trails w phs := hU.trails (by rw [hlog] at hnp; exact hnp.tail)
  have hpart := hR.step_partials hi htok hnp hh hrel hx hm htr
  refine ⟨hpart, hR.step_sound htok hU hnp hh hrel hx hm htr, ?_,
    hR.step_settled hi hnp hrel hx hm htr hpart, ?_, ?_, ?_⟩
  · -- absent
    intro k hk
    rw [hlog]
    exact if_pos hk
  · -- offers
    rw [hlog]
    intro later e past hsplit r u x hr hu hoff
    cases later with
    | cons e₁ later =>
      injection hsplit with _ hsplit
      exact hR.offers later e past hsplit r u x hr hu hoff
    | nil =>
      injection hsplit with he hpast
      subst he hpast
      have hr' := hreq.symm.trans hr
      obtain ⟨r', u', y, hl, hy⟩ :=
        hm.of_offer hoff.2 ⟨r.1, r.2, hr', type_of_uploadOf hu⟩
      have hok := hi.ok t
      rw [hl] at hr' hok
      cases hr'
      cases hok.1.uploadOf.symm.trans hu
      have hylt : y < 256 ^ 8 :=
        lt_of_le_of_lt ((htr.trail t _ _ _ hl).2.1.trans hok.1.size) (by decide)
      rw [← offerFrame_inj hylt hoff.1 hy]
      exact hR.offer_eq hi htr hl
  · -- removals
    rw [hlog]
    intro later e past hsplit p hrem
    cases later with
    | cons e₁ later =>
      injection hsplit with _ hsplit
      exact hR.removals later e past hsplit p hrem
    | nil =>
      injection hsplit with he hpast
      subst he hpast
      obtain ⟨r, u, ph, hl, hph⟩ := hm.of_removes hrem
      rw [hl] at hreq
      refine ⟨r, hreq, ?_⟩
      have htrail := htr.trail t r u ph hl
      have hsound := hR.sound t r u ph hl
      rcases hph with rfl | rfl | rfl | rfl
      · exact hsound.elim
      · exact hsound.elim
      · obtain ⟨x, kept, ⟨e, he, hof, hoff, -⟩, -⟩ := htrail
        exact ⟨e, he, hof, x, hoff⟩
      · obtain ⟨x, kept, e, he, hof, hoff, -⟩ := htrail
        exact ⟨e, he, hof, x, hoff⟩
  · -- corrupts
    rw [hlog]
    intro e he r hr htype b hsend hb
    rcases List.mem_cons.mp he with rfl | he
    · have hr' := hreq.symm.trans hr
      obtain ⟨r', u, hl⟩ := hm.of_corrupt hsend ⟨r.1, r.2, hr', htype⟩ hb
      have hsound : E_CORRUPT = E_ALREADY_EXISTS := hR.sound t r' u _ hl
      exact absurd hsound (by decide)
    · exact hR.corrupts e he r hr htype b hsend hb

end

/-! ## Whole runs -/

/-- Nothing in the directory has a partial name. -/
def NoPartials (os : Os) : Prop := ∀ k, IsPartialName k → os.entry k = none

theorem NoPartials.apart {os : Os} (h : NoPartials os) : PartialsApart os := by
  intro k k' i hk _ he _
  rw [h k hk] at he
  cases he

theorem Resumes.start {bodies : Set Bytes} {os : Os} (h : NoPartials os) :
    Resumes bodies (Server.start T os).world fun _ => Local.plain 0 none := by
  have hnil : ∀ {later past : List (Event T)} {e : Event T}, [] ≠ later ++ e :: past := by simp
  refine ⟨?_, by rintro t r u ph ⟨⟩, fun k _ => rfl, ?_, ?_, ?_, by simp [Server.start]⟩
  · intro k sl hk he
    exact absurd ((h k hk).symm.trans he) (by simp)
  · intro k i hk he
    exact absurd ((h k hk).symm.trans he) (by simp)
  · intro later e past hsplit
    exact absurd hsplit hnil
  · intro later e past hsplit
    exact absurd hsplit hnil

/-- **Resumable uploads.** In every state of every run on a directory that holds no partials at the
start, with any number of sessions, honest clients that may be cut off at any byte, no upload under
a partial name, and no two bodies with a common token: the file at a partial name is a prefix of the
body it is for; every offer to resume is one from exactly the bytes that have arrived since that
partial was last absent; a file is removed only after the offer of the same request, so no partial
is ever removed for being too long; and no PUT is answered CORRUPT. -/
theorem resumable_uploads [DecidableEq T] {bodies : Set Bytes} {os : Os} (h0 : NoPartials os)
    (htok : TokensDistinct bodies) {s : Server T} (hr : Server.Run (Server.start T os) s)
    (hnp : NoPartialNames s.world.log) (hh : HonestClients bodies s.world.log) :
    (∀ name, checkFilename name = true → ∀ b ∈ bodies, ∀ c,
      s.world.os.content (partialName (encode name) (sha256 b)) = some c → c <+: b) ∧
    (∀ later e past, s.world.log = later ++ e :: past → ∀ r u x, e.request = some r →
      uploadOf r = some u → e.Offers x → x = (delivered u.partialPath past).length) ∧
    (∀ later e past, s.world.log = later ++ e :: past → ∀ p, e.Removes p →
      ∃ r, e.request = some r ∧ ∃ e' ∈ past, e'.Of e.sid r ∧ ∃ x, e'.Offers x) ∧
    ∀ e ∈ s.world.log, ∀ r, e.request = some r → r.2.type = T_PUT → ∀ b, e.Sends b →
      ¬ IsErrorFrame E_CORRUPT b := by
  have hkeep : Pool.Keeps Local.Rel (fun w phs => UploadInv w phs ∧
      (NoPartialNames w.log → HonestClients bodies w.log → Resumes bodies w phs)) s := by
    refine Pool.inv_run Local.tracks ?_ hr ⟨_, Local.shows_start os, UploadInv.start h0.apart,
      fun _ _ => Resumes.start h0⟩
    rintro w phs t l o a w' ph' ⟨hU, hR⟩ hrel hx hm
    refine ⟨hU.step hrel hx hm, fun hnp hh => ?_⟩
    have hlog := hx.2
    exact (hR (by rw [hlog] at hnp; exact hnp.tail) (by rw [hlog] at hh; exact hh.tail)).step htok hU
      hnp hh hrel hx hm
  obtain ⟨phs, -, -, hR⟩ := hkeep
  have hR := hR hnp hh
  refine ⟨?_, hR.offers, hR.removals, hR.corrupts⟩
  intro name hname b hb c hc
  have hacc := accepted_of_checkFilename hname
  obtain ⟨i, he, rfl⟩ := (Os.content_eq_some (Plain.partialName hacc.encode_no_slash _)).mp hc
  obtain ⟨j, u, f, b', hj, hu, hb', hp, hpre⟩ :=
    hR.partials _ _ ⟨_, _, sha256_length b, rfl⟩ he
  cases hj
  obtain ⟨-, htoken⟩ := partialName_inj hu.accepted.encode_no_slash hacc.encode_no_slash
    (parsePut_digest_length hu.parsed) (sha256_length b) hp
  rw [hb'.digest] at htoken
  rwa [htok b' hb'.mem b hb htoken] at hpre

/-! ## An upload that is cut off and resumed -/

/-- The offset in a first reply to a PUT. -/
def Event.offered (e : Event T) : Option Nat :=
  match e.op with
  | .send b =>
    let x := ofBE (b.drop HEADER_SIZE)
    if b = offerFrame x then some x else none
  | _ => none

theorem Event.Offers.offered {e : Event T} {x : Nat} (h : e.Offers x) : e.offered = some x := by
  obtain ⟨hx, hs⟩ := h
  have hdrop : (offerFrame x).drop HEADER_SIZE = toBE 8 x :=
    List.drop_left' (by simp [MAGIC, HEADER_SIZE])
  have hs' : e.op = .send (offerFrame x) := hs
  simp only [Event.offered, hs', hdrop, ofBE_toBE hx, if_true]

/-- What is asked of an event of a log in which every upload is one of `b` under `name`. -/
def Event.uploadsOnly [DecidableEq T] (name b digest : Bytes) (log : List (Event T))
    (e : Event T) : Bool :=
  match e.request with
  | none => true
  | some r =>
    match uploadOf r with
    | none => true
    | some u => u.path = name && u.fileSize = b.length && u.digest = digest &&
      (e.offered.all fun x => (received e.sid r log).isPrefixOf (b.drop x))

section

variable [DecidableEq T] {name b : Bytes} {log : List (Event T)}

theorem Event.uploadsOnly_spec {e : Event T} {r : Request} {u : PutRequest}
    (h : e.uploadsOnly name b (sha256 b) log = true) (hr : e.request = some r)
    (hu : uploadOf r = some u) : u.path = name ∧ u.fileSize = b.length ∧ u.digest = sha256 b ∧
      ∀ x, e.offered = some x → received e.sid r log <+: b.drop x := by
  simp only [Event.uploadsOnly, hr, hu, Bool.and_eq_true, decide_eq_true_eq] at h
  refine ⟨h.1.1.1, h.1.1.2, h.1.2, fun x hx => ?_⟩
  have := h.2
  rw [hx] at this
  exact List.isPrefixOf_iff_prefix.mp this

theorem HonestClients.of_uploadsOnly
    (h : log.all (Event.uploadsOnly name b (sha256 b) log) = true) : HonestClients {b} log where
  states := by
    rintro e he u ⟨r, hr, hu⟩
    have := Event.uploadsOnly_spec (List.all_eq_true.mp h e he) hr hu
    exact ⟨b, rfl, this.2.1, this.2.2.1⟩
  sends := by
    rintro e he r u x hr hu hx _ rfl -
    exact (Event.uploadsOnly_spec (List.all_eq_true.mp h e he) hr hu).2.2.2 x hx.offered

theorem NoPartialNames.of_uploadsOnly (hname : ¬ ascii ".part" <:+ name)
    (h : log.all (Event.uploadsOnly name b (sha256 b) log) = true) : NoPartialNames log := by
  rintro e he u ⟨r, hr, hu⟩ hpart
  rw [(Event.uploadsOnly_spec (List.all_eq_true.mp h e he) hr hu).1] at hpart
  exact hname hpart.suffix

end

/-- Two clients upload the same two bytes as `a`. The first is cut off after one of them, the second
sends what is missing. -/
def resumedInputs : Bool → Bytes
  | true => clientBytes T_PUT (putPayload 2 (sha256 [7, 9]) (ascii "a")) [7]
  | false => clientBytes T_PUT (putPayload 2 (sha256 [7, 9]) (ascii "a")) [9]

def resumed : Server Bool :=
  ((Server.start Bool Os.empty).play resumedInputs
    (List.replicate 13 true ++ List.replicate 21 false)).1

theorem resumed_run : Server.Run (Server.start Bool Os.empty) resumed := by
  rw [resumed]
  exact Server.play_run _ _ _

theorem noPartials_empty : NoPartials Os.empty := by
  intro k _
  simp [Os.entry, Os.empty, Store.lookup]

/-- In that run the second client is offered to resume from one byte, and the file is published. -/
theorem resumable_uploads_resumed :
    resumed.world.os.content (ascii "a") = some [7, 9] ∧
    (resumed.world.log.any fun e => decide (e.op = .send (offerFrame 1))) = true ∧
    ∀ later e past, resumed.world.log = later ++ e :: past → ∀ r u x, e.request = some r →
      uploadOf r = some u → e.Offers x → x = (delivered u.partialPath past).length := by
  obtain ⟨hcontent, hoffered, hlog⟩ : resumed.world.os.content (ascii "a") = some [7, 9] ∧
      (resumed.world.log.any fun e => decide (e.op = .send (offerFrame 1))) = true ∧
      resumed.world.log.all
        (Event.uploadsOnly (ascii "a") [7, 9] (sha256 [7, 9]) resumed.world.log) = true := by
    decide +kernel
  have htok : TokensDistinct {[7, 9]} := by
    rintro b rfl b' rfl -
    rfl
  have hname : ¬ ascii ".part" <:+ ascii "a" := by decide +kernel
  exact ⟨hcontent, hoffered, (resumable_uploads noPartials_empty htok resumed_run
    (.of_uploadsOnly hname hlog) (.of_uploadsOnly hlog)).2.1⟩

end Retriever
