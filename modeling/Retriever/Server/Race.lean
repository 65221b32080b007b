/-
# Retriever.Server.Race — uploads that compete for one name

However uploads of one name interleave, at most one of them is told that it has been published, and
from then on the name holds what that upload sent. If all of them are honest, none is interrupted and
the filesystem takes the names the server needs, one of them wins and all others are told
ALREADY_EXISTS.

A loser is turned away in one of four places: the first look at the name, the reservation, the link,
or, after the winner has given its reservation back, the first look again. What the places have in
common is that a session that has been turned away leaves the name taken or somebody in the race
(`Race.contested`).
-/
import Retriever.Server.Resume

namespace Retriever

variable {T : Type}

/-! ## What is said about the log -/

namespace Event

/-- The event belongs to request `r`, an upload of `name`. -/
def Contends (e : Event T) (name : Text) (r : Request) : Prop :=
  e.request = some r ∧ ∃ u, uploadOf r = some u ∧ u.name = name

end Event

theorem Event.Told.sends {e : Event T} {b : Bytes} (h : e.Told b) : e.Sends b := by
  obtain ⟨sid, q, op, ans, os⟩ := e
  cases op with
  | send b' =>
    cases ans with
    | ok => exact congrArg Sys.send h
    | error => exact h.elim
  | _ => exact h.elim

/-- Request `r` of session `t` was told that its upload is published. -/
def Won (log : List (Event T)) (t : T) (r : Request) : Prop :=
  ∃ e ∈ log, e.Of t r ∧ e.Told okFrame

/-- Request `r` of session `t` was told that the name is taken. -/
def TurnedAway (log : List (Event T)) (t : T) (r : Request) : Prop :=
  ∃ e ∈ log, e.Of t r ∧ ∃ b, e.Told b ∧ IsErrorFrame E_ALREADY_EXISTS b

/-- All uploads of `name` are honest and of a size the server takes, and none is interrupted. -/
structure FairRace [DecidableEq T] (name : Text) (log : List (Event T)) : Prop where
  honest : ∀ e ∈ log, ∀ r u, e.request = some r → uploadOf r = some u → u.name = name →
    u.fileSize ≤ MAX_FILE_SIZE ∧ ∃ b : Bytes, u.fileSize = b.length ∧ u.digest = sha256 b ∧
      ∀ e' ∈ log, e'.Of e.sid r → ∀ x, e'.Offers x → received e.sid r log <+: b.drop x
  uninterrupted : ∀ e ∈ log, ∀ r, e.Contends name r → ¬ e.Interrupted

theorem FairRace.tail [DecidableEq T] {name : Text} {e : Event T} {log : List (Event T)}
    (h : FairRace name (e :: log)) : FairRace name log where
  honest := by
    intro e₁ he₁ r u hr hu hn
    obtain ⟨hs, b, hb, hd, hsent⟩ := h.honest e₁ (List.mem_cons_of_mem _ he₁) r u hr hu hn
    refine ⟨hs, b, hb, hd, fun e' he' hof x hx => ?_⟩
    exact (received_prefix_cons _ _ _ _).trans
      (hsent e' (List.mem_cons_of_mem _ he') hof x hx)
  uninterrupted := fun e' he' => h.uninterrupted e' (List.mem_cons_of_mem _ he')

theorem Won.cons {log : List (Event T)} {t : T} {r : Request} (h : Won log t r) (e : Event T) :
    Won (e :: log) t r := by
  obtain ⟨e', he', h'⟩ := h
  exact ⟨e', List.mem_cons_of_mem _ he', h'⟩

theorem TurnedAway.cons {log : List (Event T)} {t : T} {r : Request} (h : TurnedAway log t r)
    (e : Event T) : TurnedAway (e :: log) t r := by
  obtain ⟨e', he', h'⟩ := h
  exact ⟨e', List.mem_cons_of_mem _ he', h'⟩

/-- The request has got its verdict. -/
def Answered (log : List (Event T)) (t : T) (r : Request) : Prop := Won log t r ∨ TurnedAway log t r

theorem Answered.cons {log : List (Event T)} {t : T} {r : Request} (h : Answered log t r)
    (e : Event T) : Answered (e :: log) t r := h.imp (·.cons e) (·.cons e)

/-! ## The invariant of the race -/

/-- Where an upload in a fair race stands. Its partial was absent when it began, so nothing is
resumed and nothing is found corrupt. -/
def Phase.Fair (os : Os) (log : List (Event T)) (t : T) (r : Request) (u : PutRequest) :
    Phase → Prop
  | .found | .oversize | .corrupt => False
  | .reserved => os.entry u.partialPath = none
  | .ready x | .granted x => os.entry u.partialPath = none ∧ x = 0
  | .turned | .linked | .lost => os.entry u.path ≠ none
  | .published => os.entry u.partialPath = none ∧ os.entry u.path ≠ none
  | .rejecting reason => os.entry u.partialPath = none ∧ os.entry u.path ≠ none ∧
      reason = E_ALREADY_EXISTS
  | .closing => os.entry u.partialPath = none ∧ os.entry u.path ≠ none ∧ Answered log t r
  | _ => True

/-- Some upload of `name` holds its reservation. -/
def Racing (name : Text) (phs : T → Local) : Prop :=
  ∃ t r u ph, phs t = .put r u ph ∧ u.name = name ∧ ph.holds = true

/-- Some upload of `name` has been turned away, or is about to be because of a reservation. -/
def Contested (name : Text) (log : List (Event T)) (phs : T → Local) : Prop :=
  (∃ t r u, phs t = .put r u .busy ∧ u.name = name) ∨
    ∃ t r u, uploadOf r = some u ∧ u.name = name ∧ TurnedAway log t r

structure Race (name : Text) (w : World T) (phs : T → Local) : Prop where
  accepts : w.os.accepts (encode name) = true ∧
    ∀ d, d.length = HASH_SIZE → w.os.accepts (partialName (encode name) d) = true
  idle : ∀ d, d.length = HASH_SIZE → partialName (encode name) d ∉ w.inFlight →
    w.os.entry (partialName (encode name) d) = none
  fair : ∀ t r u ph, phs t = .put r u ph → u.name = name → ph.Fair w.os w.log t r u
  offers : ∀ e ∈ w.log, ∀ r, e.Contends name r → ∀ x, e.Offers x → x = 0
  answered : ∀ e ∈ w.log, ∀ r, e.Contends name r →
    (∃ u ph, phs e.sid = .put r u ph) ∨ Answered w.log e.sid r
  released : ∀ t b r u, phs t = .plain b (some r) → uploadOf r = some u → u.name = name →
    u.fileSize ≤ MAX_FILE_SIZE → Answered w.log t r
  contested : Contested name w.log phs → w.os.entry (encode name) ≠ none ∨ Racing name phs
  winner : w.os.entry (encode name) ≠ none → ∃ t r u, uploadOf r = some u ∧ u.name = name ∧
    ((phs t = .put r u .linked ∨ phs t = .put r u .published) ∨ Won w.log t r)

/-! ## One step -/

theorem Change.accepts {u : PutRequest} {os os' : Os} {ph ph' : Phase}
    (hc : Change u os ph ph' os') : os'.accepts = os.accepts := by
  cases hc <;> rfl

/-- A name that is not a partial name stays taken. -/
theorem Change.taken {u : PutRequest} {f : Frame} {os os' : Os} {ph ph' : Phase} {N : Bytes}
    (hc : Change u os ph ph' os') (hu : u.OfFrame f) (hN : ¬ IsPartialName N)
    (h : os.entry N ≠ none) : os'.entry N ≠ none := by
  have hne : N ≠ u.partialPath := fun he => hN (he ▸ hu.isPartialName)
  cases hc with
  | same ph ph' _ => exact h
  | create r he => rwa [Os.createAt_entry, if_neg hne]
  | append hlt he => exact h
  | unlink he hh => rwa [Os.removeAt_entry, if_neg hne]
  | link he hs hn =>
    rw [Os.linkAt_entry he]
    split
    · simp
    · exact h

theorem Sys.Failed.send {b : Bytes} {a : (Sys.send b).Ans} (h : Sys.Failed (.send b) a) :
    ∃ e, a = .error e := by
  cases h with
  | offer r e => exact ⟨e, rfl⟩

/-- Nothing was kept from earlier attempts. -/
theorem Holding.fresh {os : Os} {log : List (Event T)} {t : T} {r : Request} {p got : Bytes}
    {i x : Nat} (h : Holding os log t r p i x got)
    (ho : ∀ e ∈ log, e.Of t r → ∀ x, e.Offers x → x = 0) :
    os.store.data i = got ∧ ∃ e ∈ log, e.Of t r ∧ e.Offers 0 := by
  obtain ⟨kept, ⟨e, he, hof, hx, -⟩, hlen, hdata⟩ := h
  obtain rfl := ho e he hof x hx
  rw [hdata, List.length_eq_zero_iff.mp hlen]
  exact ⟨rfl, e, he, hof, hx⟩

section

variable [DecidableEq T] {w : World T} {os' : Os} {fl : Finset Bytes} {t : T} {r : Request}
  {u : PutRequest} {ph ph' : Phase} {o : Sys} {a : o.Ans}

/-- **What an upload in a fair race does next.** -/
theorem Phase.Move.fair (hok : (Local.put r u ph).Ok w.os) (htrail : ph.Trail w.os w.log t r u)
    (hfair : ph.Fair w.os w.log t r u) (hname : Plain u.path) (hnp : ¬ IsPartialName u.path)
    (hacc : w.os.accepts u.path = true ∧ w.os.accepts u.partialPath = true)
    (hidle : u.partialPath ∉ w.inFlight → w.os.entry u.partialPath = none)
    (hoffers : ∀ e ∈ w.log, e.Of t r → ∀ x, e.Offers x → x = 0)
    (hbody : ∃ b : Bytes, u.fileSize = b.length ∧ u.digest = sha256 b ∧
      ∀ e ∈ w.log, e.Of t r → ∀ x, e.Offers x → received t r w.log <+: b.drop x)
    (hint : ¬ (⟨t, some r, o, a, os'⟩ : Event T).Interrupted) (hx : w.Answers o a os' fl)
    (hm : ph.Move u o a ph') : ph'.Fair os' (⟨t, some r, o, a, os'⟩ :: w.log) t r u := by
  obtain ⟨hu, -, hk⟩ := hok
  have hp := hu.partial_plain
  have hne : u.path ≠ u.partialPath := fun h => hnp (h ▸ hu.isPartialName)
  obtain ⟨b, hsize, hdig, hsent⟩ := hbody
  cases hm with
  | taken st =>
    have hs := hx.1
    rw [Os.run_stat_plain hname] at hs
    rw [show os' = w.os from hx.2.1]
    intro hnone
    rw [hnone] at hs
    cases hs
  | reserve =>
    obtain ⟨ha, rfl, -⟩ := hx
    exact hidle (of_decide_eq_true ha.symm)
  | absent =>
    rw [show os' = w.os from hx.2.1]
    exact ⟨hfair, rfl⟩
  | present st =>
    have hs := hx.1
    have hnone : w.os.entry u.partialPath = none := hfair
    rw [Os.run_stat_plain hp, hnone] at hs
    cases hs
  | fits | exceeds | drop | dropCorrupt => exact hfair.elim
  | offer x =>
    obtain ⟨-, rfl, -⟩ := hx
    exact hfair
  | @mismatch i n acc hn hd =>
    obtain ⟨j, x, hent, hhold, hlen⟩ := htrail
    have hacc := eq_data_of_read_nil hn hk.2 hx.1
    obtain rfl : j = i := by
      rw [hk.1] at hent
      cases hent
      rfl
    obtain ⟨hdata, e, he, hof, hoff⟩ := hhold.fresh hoffers
    have hpre := hsent e he hof 0 hoff
    rw [List.drop_zero, ← hdata] at hpre
    have hall := hpre.eq_of_length_le (by rw [← hsize]; exact hlen)
    exact absurd (by rw [hacc, hall, hdig]) hd
  | link =>
    obtain ⟨i, hi, -⟩ := hk
    obtain ⟨-, -, hos⟩ := Os.run_link_ok hp hname hx.1
    rw [show os' = _ from hx.2.1.trans hos]
    change Os.entry _ _ ≠ none
    rw [Os.linkAt_entry hi, if_pos rfl]
    simp
  | linkTaken =>
    obtain ⟨sl, hsl⟩ := Os.run_link_exists hp hname hx.1
    rw [show os' = w.os from hx.2.1.trans (Os.run_refused (.link _ _ _) hx.1)]
    change w.os.entry _ ≠ none
    rw [hsl]
    simp
  | unlink =>
    obtain ⟨i, hi⟩ := hk
    rw [show os' = _ from hx.2.1.trans (congrArg Prod.snd (Os.run_unlink_entry hp hi))]
    refine ⟨by rw [Os.removeAt_entry, if_pos rfl], ?_⟩
    rw [Os.removeAt_entry, if_neg hne]
    exact hfair
  | stuck e =>
    obtain ⟨i, hi⟩ := hk
    have hr := hx.1
    rw [Os.run_unlink_entry hp hi] at hr
    cases hr
  | dropLost =>
    obtain ⟨i, hi⟩ := hk
    rw [show os' = _ from hx.2.1.trans (congrArg Prod.snd (Os.run_unlink_entry hp hi))]
    refine ⟨by rw [Os.removeAt_entry, if_pos rfl], ?_, rfl⟩
    rw [Os.removeAt_entry, if_neg hne]
    exact hfair
  | confirm a =>
    obtain ⟨-, rfl, -⟩ := hx
    cases a with
    | ok => exact ⟨hfair.1, hfair.2, .inl ⟨_, List.mem_cons_self, ⟨rfl, rfl⟩, rfl⟩⟩
    | error e => exact absurd trivial hint
  | reject a hb =>
    obtain ⟨-, rfl, -⟩ := hx
    obtain ⟨hnone, htaken, rfl⟩ := hfair
    cases a with
    | ok => exact ⟨hnone, htaken, .inr ⟨_, List.mem_cons_self, ⟨rfl, rfl⟩, _, rfl, hb⟩⟩
    | error e => exact absurd trivial hint
  | linkFails he =>
    obtain ⟨i, hi, -⟩ := hk
    rcases Os.run_link_error hp hname hi hx.1 with h | h
    · exact absurd h he
    · rw [hacc.1] at h
      cases h
  | abort ht hfail =>
    -- in a fair race no call of an upload fails
    exfalso
    cases ph with
    | found | oversize | corrupt => exact hfair
    | lost =>
      obtain ⟨i, hi⟩ := hk
      cases ht
      have hr := hx.1
      rw [Os.run_unlink_entry hp hi] at hr
      cases hfail with
      | fs href =>
        cases href
        cases hr
    | ready x =>
      cases ht
      obtain ⟨e, rfl⟩ := hfail.send
      exact hint trivial
    | granted x =>
      cases ht
      cases hfail with
      | fs href =>
        cases href
        rcases Os.run_openAb_error hp hx.1 with h | ⟨-, h⟩
        · rw [hfair.1] at h
          cases h
        · rw [hacc.2] at h
          cases h
    | receiving x h n =>
      rcases ht with ⟨m, rfl⟩ | ⟨-, rfl⟩
      · cases hfail with
        | eof => exact hint rfl
        | recv m e => exact hint trivial
      · have hr := hx.1
        rw [Os.run_openRb_entry hp hk] at hr
        cases hfail with
        | fs href =>
          cases href
          cases hr
    | storing x h n c =>
      obtain ⟨got, hhold, hrec, -⟩ := htrail
      obtain ⟨hdata, e, he, hof, hoff⟩ := hhold.fresh hoffers
      have hlen := (hsent e he hof 0 hoff).length_le
      rw [List.drop_zero, hrec, List.length_append, ← hdata, ← hsize] at hlen
      cases ht
      cases hfail with
      | fs href =>
        cases href
        have hmax := Os.run_write_error hx.1
        have hs := hu.size
        have : MAX_FILE_SIZE < OFF_MAX := by decide
        omega
    | hashing i acc =>
      obtain ⟨n, rfl⟩ := ht
      cases hfail with
      | fs href =>
        cases href
        cases hx.1
    | checked =>
      obtain ⟨i, hi, -⟩ := hk
      cases ht
      have hr := hx.1
      rw [Os.run_openRb_entry hp hi] at hr
      cases hfail with
      | fs href =>
        cases href
        cases hr
    | sniffing =>
      obtain ⟨i, n, rfl⟩ := ht
      cases hfail with
      | fs href =>
        cases href
        cases hx.1
    | _ => exact ht
  | _ => trivial

end

theorem Phase.Fair.frame {os os' : Os} {log : List (Event T)} {t : T} {r : Request} {u : PutRequest}
    {ph : Phase} (h : ph.Fair os log t r u)
    (hpart : ph.holds = true → os'.entry u.partialPath = os.entry u.partialPath)
    (htaken : os.entry u.path ≠ none → os'.entry u.path ≠ none) (e : Event T) :
    ph.Fair os' (e :: log) t r u := by
  cases ph with
  | found | oversize | corrupt => exact h
  | reserved => exact (hpart rfl).trans h
  | ready x | granted x => exact ⟨(hpart rfl).trans h.1, h.2⟩
  | turned | linked | lost => exact htaken h
  | published => exact ⟨(hpart rfl).trans h.1, htaken h.2⟩
  | rejecting reason => exact ⟨(hpart rfl).trans h.1, htaken h.2.1, h.2.2⟩
  | closing => exact ⟨(hpart rfl).trans h.1, htaken h.2.1, h.2.2.cons e⟩
  | _ => trivial

/-- An upload gives its reservation back when it is closing, or when hashing did not come to an
end. -/
theorem Phase.Move.gives_back {u : PutRequest} {ph ph' : Phase} {o : Sys} {a : o.Ans}
    (hm : ph.Move u o a ph') (hh : ph.holds = true) (hh' : ph'.holds = false) :
    ph = .closing ∨ ∃ i acc, ph = .hashing i acc ∧ OFF_MAX ≤ acc.length := by
  cases hm with
  | release => exact .inl rfl
  | giveUp hlen => exact .inr ⟨_, _, rfl, hlen⟩
  | taken | free | turnAway | inFlight | tellBusy => cases hh
  | _ => cases hh'

/-- Hashing comes to an end. -/
theorem Phase.Knows.short {u : PutRequest} {os : Os} {i : Nat} {acc : Bytes}
    (h : (Phase.hashing i acc).Knows u os) : acc.length < OFF_MAX :=
  lt_of_le_of_lt h.2.length_le (os.small i)

theorem Local.Move.taken {w w' : World T} {phs : T → Local} {t : T} {s : Session} {o : Sys}
    {a : o.Ans} {l : Local} (hi : Inv IsPartialName w phs) (hx : World.Exec t s w o a w')
    (hm : (phs t).Move o a l) {N : Bytes} (hN : ¬ IsPartialName N) (h : w.os.entry N ≠ none) :
    w'.os.entry N ≠ none := by
  rcases hm.effect hx.1 with ⟨hos, -⟩ | ⟨r, u, ph, ph', hl, hm, -⟩
  · rwa [hos]
  · have hok := hi.ok t
    rw [hl] at hok
    exact (hm.change hok hx.1).taken hok.1 hN h

/-- The upload that wins is published. -/
theorem Won.taken [DecidableEq T] {w : World T} {phs : T → Local} {t : T} (htr : Trails w phs)
    {r : Request} {u : PutRequest} (h : Won w.log t r) (hu : uploadOf r = some u) :
    w.os.entry u.path ≠ none := by
  obtain ⟨e, he, hof, htold⟩ := h
  obtain ⟨later, past, hsplit⟩ := List.append_of_mem he
  obtain ⟨u', hu', x, kept, -, -, e', he', -, hlinks, -⟩ :=
    htr.finals later e past hsplit r hof.2 (type_of_uploadOf hu) htold.sends
  cases hu'.symm.trans hu
  obtain ⟨-, i, c, -, hpin⟩ := htr.pins e' (by rw [hsplit]; simp [he']) _ _ hlinks
  rw [hpin.entry]
  simp

/-- Uploads with one partial path are uploads of one name. -/
theorem name_of_partialPath {u u' : PutRequest} {f f' : Frame} (hu : u.OfFrame f)
    (hu' : u'.OfFrame f') (h : u.partialPath = u'.partialPath) : u.name = u'.name := by
  obtain ⟨hpath, -⟩ := partialName_inj hu.accepted.encode_no_slash hu'.accepted.encode_no_slash
    (parsePut_digest_length hu.parsed) (parsePut_digest_length hu'.parsed) h
  exact hu.accepted.encode_inj hu'.accepted hpath

/-- What a step of a fair race starts from. -/
structure RaceStep [DecidableEq T] (name : Text) (w w' : World T) (phs : T → Local) (t : T)
    (s : Session) (o : Sys) (a : o.Ans) (l : Local) : Prop where
  accepted : checkFilename name = true
  plain : Plain (encode name)
  proper : ¬ IsPartialName (encode name)
  uploads : UploadInv w phs
  trails : Trails w phs
  race : Race name w phs
  names : NoPartialNames w'.log
  clients : FairRace name w'.log
  rel : Local.Rel s (phs t)
  exec : World.Exec t s w o a w'
  move : (phs t).Move o a l

namespace RaceStep

variable [DecidableEq T] {name : Text} {w w' : World T} {phs : T → Local} {t : T}
  {s : Session} {o : Sys} {a : o.Ans} {l : Local}

theorem mem_log (h : RaceStep name w w' phs t s o a l) :
    (⟨t, s.request, o, a, w'.os⟩ : Event T) ∈ w'.log := by
  rw [h.exec.2]
  exact List.mem_cons_self

theorem taken (h : RaceStep name w w' phs t s o a l) (ht : w.os.entry (encode name) ≠ none) :
    w'.os.entry (encode name) ≠ none := h.move.taken h.uploads.base h.exec h.proper ht

/-- The event of a step of an upload of the name. -/
theorem contends (h : RaceStep name w w' phs t s o a l) {r : Request} {u : PutRequest} {ph : Phase}
    (hl : phs t = .put r u ph) (hn : u.name = name) :
    (⟨t, s.request, o, a, w'.os⟩ : Event T).Contends name r := by
  have hok := h.uploads.base.ok t
  have hreq := h.rel.request
  rw [hl] at hok hreq
  exact ⟨hreq, u, hok.1.uploadOf, hn⟩

theorem not_interrupted (h : RaceStep name w w' phs t s o a l) {r : Request} {u : PutRequest}
    {ph : Phase} (hl : phs t = .put r u ph) (hn : u.name = name) :
    ¬ (⟨t, some r, o, a, w'.os⟩ : Event T).Interrupted := by
  have hc := h.contends hl hn
  have := h.clients.uninterrupted _ h.mem_log r hc
  rwa [show s.request = some r from hc.1] at this

/-- A reply that is sent in a fair race arrives. -/
theorem told (h : RaceStep name w w' phs t s o a l) {r : Request} {u : PutRequest}
    {ph : Phase} (hl : phs t = .put r u ph) (hn : u.name = name) {b : Bytes} (ho : o = .send b) :
    (⟨t, s.request, o, a, w'.os⟩ : Event T).Told b := by
  have := h.not_interrupted hl hn
  subst ho
  cases a with
  | ok => rfl
  | error e => exact absurd trivial this

theorem fair (h : RaceStep name w w' phs t s o a l) : ∀ t' r u ph,
    Function.update phs t l t' = .put r u ph → u.name = name → ph.Fair w'.os w'.log t' r u := by
  intro t' r' u' ph₁ ht' hn
  have hi := h.uploads.base
  rw [h.exec.2]
  by_cases heq : t' = t
  · subst heq
    rw [Function.update_self] at ht'
    rcases h.move.split with ⟨-, -, ⟨b, q, rfl⟩ | ⟨b, f, u, -, rfl, -⟩⟩ |
      ⟨r, u, ph, ph', hl, hmove, rfl | ⟨-, b, q, rfl⟩⟩
    · cases ht'
    · cases ht'
      trivial
    · cases ht'
      have hok := hi.ok t'
      have hc := h.contends hl hn
      have hacc := h.race.accepts
      have hpath : encode name = u'.path := by rw [PutRequest.path, hn]
      rw [hl] at hok
      rw [hpath] at hacc
      obtain ⟨-, b, hsize, hdig, hsent⟩ := (h.exec.2 ▸ h.clients).honest _ List.mem_cons_self r' u'
        hc.1 hok.1.uploadOf hn
      have hdlen := parsePut_digest_length hok.1.parsed
      rw [show s.request = some r' from hc.1]
      refine hmove.fair hok (h.trails.trail t' _ _ _ hl) (h.race.fair t' _ _ _ hl hn)
        (hpath ▸ h.plain) (hpath ▸ h.proper) ⟨hacc.1, hacc.2 _ hdlen⟩ ?_ ?_
        ⟨b, hsize, hdig, ?_⟩ (h.not_interrupted hl hn) h.exec.1
      · intro hfl
        have := h.race.idle u'.digest hdlen
        rw [hpath] at this
        exact this hfl
      · intro e he hof x hoff
        exact h.race.offers e he r' ⟨hof.2, u', hok.1.uploadOf, hn⟩ x hoff
      · intro e he hof x hoff
        exact (received_prefix_cons _ _ _ _).trans
          (hsent e (List.mem_cons_of_mem _ he) hof x hoff)
    · cases ht'
  · rw [Function.update_of_ne heq] at ht'
    have hok' := hi.ok t'
    rw [ht'] at hok'
    have hpath : encode name = u'.path := by rw [PutRequest.path, hn]
    refine (h.race.fair t' r' u' ph₁ ht' hn).frame (fun hh => ?_) (hpath ▸ h.taken) _
    exact (h.trails.partial_other hi h.names h.rel h.exec h.move hok'.1.isPartialName
      fun r u ph hl hhold => hi.partial_ne heq hl ht' hhold hh).1

/-- An upload that ends has its verdict. -/
theorem verdict (h : RaceStep name w w' phs t s o a l) {r : Request} {u : PutRequest} {ph : Phase}
    (hl : phs t = .put r u ph) (hn : u.name = name) (hm : ph.Move u o a .finished) :
    Answered w'.log t r := by
  have hok := h.uploads.base.ok t
  have hfair := h.race.fair t r u ph hl hn
  have hc := h.contends hl hn
  rw [hl] at hok
  rw [h.exec.2]
  cases hm with
  | turnAway a hb | tellBusy a hb =>
    exact .inr ⟨_, List.mem_cons_self, ⟨rfl, hc.1⟩, _, h.told hl hn rfl, hb⟩
  | release => exact hfair.2.2.cons _
  | giveUp hlen => exact absurd hok.2.2.short (Nat.not_lt.mpr hlen)

/-- Uploads whose partial is one of the name's are uploads of the name. -/
theorem name_eq (h : RaceStep name w w' phs t s o a l) {u : PutRequest} {f : Frame} {d : Bytes}
    (hu : u.OfFrame f) (hd : d.length = HASH_SIZE)
    (hp : partialName (encode name) d = u.partialPath) : u.name = name := by
  have hacc := accepted_of_checkFilename h.accepted
  obtain ⟨hpath, -⟩ := partialName_inj hacc.encode_no_slash hu.accepted.encode_no_slash hd
    (parsePut_digest_length hu.parsed) hp
  exact hu.accepted.encode_inj hacc hpath.symm

theorem idle (h : RaceStep name w w' phs t s o a l) : ∀ d, d.length = HASH_SIZE →
    partialName (encode name) d ∉ w'.inFlight →
      w'.os.entry (partialName (encode name) d) = none := by
  intro d hd hfree
  have hi := h.uploads.base
  have hi' := (h.uploads.step h.rel h.exec h.move).base
  by_cases hmem : partialName (encode name) d ∈ w.inFlight
  · -- the reservation has just been given back
    obtain ⟨t', ht'⟩ := (hi.leases.mem_iff _).mp hmem
    by_cases heq : t' = t
    · subst heq
      have hok := hi.ok t'
      cases hl : phs t' with
      | plain b q =>
        rw [hl] at ht'
        cases ht'
      | put r u ph =>
        rw [hl] at ht' hok
        simp only [Local.held, Option.ite_none_right_eq_some, Option.some.injEq] at ht'
        obtain ⟨hh, hp⟩ := ht'
        have hn := h.name_eq hok.1 hd hp.symm
        rcases h.move.effect h.exec.1 with ⟨-, -, -, ⟨b, q, hl'⟩, -⟩ |
          ⟨r', u', ph₁, ph', hl', hmove, hlast⟩
        · rw [hl] at hl'
          cases hl'
        · rw [hl] at hl'
          cases hl'
          have hh' : ph'.holds = false := by
            rw [Bool.eq_false_iff]
            intro hholds
            rcases hlast with rfl | ⟨rfl, -⟩
            · refine hfree ((hi'.leases.mem_iff _).mpr ⟨t', ?_⟩)
              rw [Function.update_self, Local.held, if_pos hholds, hp]
            · cases hholds
          rcases hmove.gives_back hh hh' with rfl | ⟨i, acc, rfl, hlen⟩
          · have hfair := h.race.fair t' r u _ hl hn
            cases hmove with
            | release =>
              rw [show w'.os = w.os from h.exec.1.1, ← hp]
              exact hfair.1
            | abort ht => exact ht.elim
          · exact absurd hok.2.2.short (Nat.not_lt.mpr hlen)
    · refine absurd ((hi'.leases.mem_iff _).mpr ⟨t', ?_⟩) hfree
      rw [Function.update_of_ne heq]
      exact ht'
  · have hpart : IsPartialName (partialName (encode name) d) := ⟨_, d, hd, rfl⟩
    have hother := h.trails.partial_other hi h.names h.rel h.exec h.move hpart ?_
    · exact hother.1.trans (h.race.idle d hd hmem)
    · rintro r u ph hl hh hp
      exact hmem (hp ▸ hi.leases.mem (Local.held_of_holds hl hh))

theorem offers (h : RaceStep name w w' phs t s o a l) : ∀ e ∈ w'.log, ∀ r, e.Contends name r →
    ∀ x, e.Offers x → x = 0 := by
  intro e he r hc x hoff
  rw [h.exec.2] at he
  rcases List.mem_cons.mp he with rfl | he
  · obtain ⟨hr, u, hu, hn⟩ := hc
    have hr' := h.rel.request.symm.trans hr
    obtain ⟨r', u', y, hl, hy⟩ := h.move.of_offer hoff.2 ⟨r.1, r.2, hr', type_of_uploadOf hu⟩
    have hok := h.uploads.base.ok t
    rw [hl] at hr' hok
    cases hr'
    cases hok.1.uploadOf.symm.trans hu
    obtain rfl : y = 0 := (h.race.fair t _ _ _ hl hn).2
    exact (offerFrame_inj (by decide) hoff.1 hy).symm
  · exact h.race.offers e he r hc x hoff

theorem answered (h : RaceStep name w w' phs t s o a l) : ∀ e ∈ w'.log, ∀ r, e.Contends name r →
    (∃ u ph, Function.update phs t l e.sid = .put r u ph) ∨ Answered w'.log e.sid r := by
  intro e he r hc
  -- the session that takes the step, when it is the one that uploads
  have hown : ∀ {u ph}, phs t = .put r u ph →
      (∃ u ph, Function.update phs t l t = .put r u ph) ∨ Answered w'.log t r := by
    intro u ph hl
    have hok := h.uploads.base.ok t
    rw [hl] at hok
    obtain ⟨-, u', hu', hn⟩ := hc
    cases hok.1.uploadOf.symm.trans hu'
    rw [Function.update_self]
    rcases h.move.split with ⟨-, ⟨b, q, hl'⟩, -⟩ | ⟨r', u', ph₁, ph', hl', hm, hlast⟩
    · rw [hl] at hl'
      cases hl'
    · rw [hl] at hl'
      cases hl'
      rcases hlast with rfl | ⟨rfl, -⟩
      · exact .inl ⟨_, _, rfl⟩
      · exact .inr (h.verdict hl hn hm)
  rw [h.exec.2] at he
  rcases List.mem_cons.mp he with rfl | he
  · have hr' := h.rel.request.symm.trans hc.1
    cases hl : phs t with
    | put r' u ph =>
      rw [hl] at hr'
      cases hr'
      exact hown hl
    | plain b q =>
      rw [hl] at hr'
      obtain ⟨hr, u, hu, hn⟩ := hc
      have hsize := (h.clients.honest _ h.mem_log r u hr hu hn).1
      right
      rw [h.exec.2]
      exact (h.race.released t b r u (by rw [hl]; exact congrArg _ hr') hu hn hsize).cons _
  · rcases h.race.answered e he r hc with ⟨u, ph, hl⟩ | hans
    · by_cases heq : e.sid = t
      · rw [heq] at hl ⊢
        exact hown hl
      · rw [Function.update_of_ne heq]
        exact .inl ⟨u, ph, hl⟩
    · right
      rw [h.exec.2]
      exact hans.cons _

theorem released (h : RaceStep name w w' phs t s o a l) : ∀ t' b r u,
    Function.update phs t l t' = .plain b (some r) → uploadOf r = some u → u.name = name →
      u.fileSize ≤ MAX_FILE_SIZE → Answered w'.log t' r := by
  intro t' b r u hl' hu hn hsize
  have hmono : Answered w.log t' r → Answered w'.log t' r := by
    intro hans
    rw [h.exec.2]
    exact hans.cons _
  by_cases heq : t' = t
  · subst heq
    rw [Function.update_self] at hl'
    subst hl'
    have hm := h.move
    have hok := h.uploads.base.ok t'
    generalize hl : phs t' = l₀ at hm hok
    cases hm with
    | stay a hq => exact hmono (h.race.released t' b r u hl hu hn hsize)
    | begin a hq hr =>
      -- an upload that passes the checks is not merely answered
      have htype := type_of_uploadOf hu
      refine absurd ⟨u, htype, ?_, hn ▸ h.accepted, hsize⟩ (hr r rfl).2
      rw [uploadOf, if_pos htype] at hu
      cases hp : parsePut r.2.payload with
      | error e =>
        rw [hp] at hu
        cases hu
      | ok u' =>
        rw [hp] at hu
        cases hu
        rfl
    | @uploadFailed r u' ph o a hm =>
      cases hok.1.uploadOf.symm.trans hu
      exact h.verdict hl hn hm
  · rw [Function.update_of_ne heq] at hl'
    exact hmono (h.race.released t' b r u hl' hu hn hsize)

/-- Once the name is taken or somebody is in the race, this stays so. -/
theorem alive (h : RaceStep name w w' phs t s o a l)
    (hw : w.os.entry (encode name) ≠ none ∨ Racing name phs) :
    w'.os.entry (encode name) ≠ none ∨ Racing name (Function.update phs t l) := by
  rcases hw with ht | ⟨t', r, u, ph, hl, hn, hh⟩
  · exact .inl (h.taken ht)
  · by_cases heq : t' = t
    · subst heq
      have hok := h.uploads.base.ok t'
      rw [hl] at hok
      rcases h.move.split with ⟨-, ⟨b, q, hl'⟩, -⟩ | ⟨r', u', ph₁, ph', hl', hm, hlast⟩
      · rw [hl] at hl'
        cases hl'
      · rw [hl] at hl'
        cases hl'
        cases hh' : ph'.holds with
        | true =>
          rcases hlast with rfl | ⟨rfl, -⟩
          · exact .inr ⟨t', r, u, ph', by rw [Function.update_self], hn, hh'⟩
          · cases hh'
        | false =>
          rcases hm.gives_back hh hh' with rfl | ⟨i, acc, rfl, hlen⟩
          · have htaken := (h.race.fair t' r u _ hl hn).2.1
            rw [PutRequest.path, hn] at htaken
            exact .inl (h.taken htaken)
          · exact absurd hok.2.2.short (Nat.not_lt.mpr hlen)
    · exact .inr ⟨t', r, u, ph, by rw [Function.update_of_ne heq, hl], hn, hh⟩

theorem contested (h : RaceStep name w w' phs t s o a l)
    (hc : Contested name w'.log (Function.update phs t l)) :
    w'.os.entry (encode name) ≠ none ∨ Racing name (Function.update phs t l) := by
  apply h.alive
  have hi := h.uploads.base
  rcases hc with ⟨t', r, u, hl', hn⟩ | ⟨t', r, u, hu, hn, e, he, hof, b, htold, hb⟩
  · by_cases heq : t' = t
    · subst heq
      rw [Function.update_self] at hl'
      subst hl'
      have hm := h.move
      have hok := hi.ok t'
      generalize hl : phs t' = l₀ at hm hok
      cases hm with
      | upload hm =>
        cases hm with
        | inFlight =>
          -- somebody else holds the partial
          obtain ⟨ha, -, -⟩ := h.exec.1
          obtain ⟨t₀, ht₀⟩ := (hi.leases.mem_iff _).mp (not_not.mp (of_decide_eq_false ha.symm))
          have hok₀ := hi.ok t₀
          cases hl₀ : phs t₀ with
          | plain b q =>
            rw [hl₀] at ht₀
            cases ht₀
          | put r₀ u₀ ph₀ =>
            rw [hl₀] at ht₀ hok₀
            simp only [Local.held, Option.ite_none_right_eq_some, Option.some.injEq] at ht₀
            exact .inr ⟨t₀, r₀, u₀, ph₀, hl₀,
              (name_of_partialPath hok₀.1 hok.1 ht₀.2).trans hn, ht₀.1⟩
    · rw [Function.update_of_ne heq] at hl'
      exact h.race.contested (.inl ⟨t', r, u, hl', hn⟩)
  · rw [h.exec.2] at he
    rcases List.mem_cons.mp he with rfl | he
    · obtain ⟨rfl, hr⟩ := hof
      have hr' := h.rel.request.symm.trans hr
      have hop : o = .send b := htold.sends
      cases hl : phs t with
      | plain b' q =>
        rw [hl] at hr'
        have hsize := (h.clients.honest _ h.mem_log r u hr hu hn).1
        rcases h.race.released t b' r u (by rw [hl]; exact congrArg _ hr') hu hn hsize with
          hwon | haway
        · have := hwon.taken h.trails hu
          rw [PutRequest.path, hn] at this
          exact .inl this
        · exact h.race.contested (.inr ⟨t, r, u, hu, hn, haway⟩)
      | put r' u' ph =>
        have hok := hi.ok t
        have hm := h.move
        rw [hl] at hr' hok hm
        cases hr'
        cases hok.1.uploadOf.symm.trans hu
        have hfair := h.race.fair t r u ph hl hn
        rw [← hn]
        subst hop
        rcases hm.split with ⟨-, ⟨b', q, hl'⟩, -⟩ | ⟨r', u', ph₁, ph', hl', hm, -⟩
        · cases hl'
        · cases hl'
          cases hm with
          | turnAway a herr => exact .inl hfair
          | tellBusy a herr =>
            rw [hn]
            exact h.race.contested (.inl ⟨t, r, u, hl, hn⟩)
          | offer x => exact absurd rfl (hb.ne_offerFrame x)
          | confirm a => exact absurd rfl hb.ne_okFrame
          | reject a herr => exact .inl hfair.2.1
          | abort ht hfail =>
            cases hfail with
            | offer x e => exact absurd rfl (hb.ne_offerFrame x)
    · exact h.race.contested (.inr ⟨t', r, u, hu, hn, e, he, hof, b, htold, hb⟩)

theorem winner (h : RaceStep name w w' phs t s o a l) (ht : w'.os.entry (encode name) ≠ none) :
    ∃ t' r u, uploadOf r = some u ∧ u.name = name ∧
      ((Function.update phs t l t' = .put r u .linked ∨
        Function.update phs t l t' = .put r u .published) ∨ Won w'.log t' r) := by
  have hi := h.uploads.base
  by_cases htaken : w.os.entry (encode name) ≠ none
  · obtain ⟨t', r, u, hu, hn, hph | hwon⟩ := h.race.winner htaken
    · refine ⟨t', r, u, hu, hn, ?_⟩
      by_cases heq : t' = t
      · subst heq
        have hok := hi.ok t'
        have hm := h.move
        rw [Function.update_self]
        rcases hph with hl | hl
        · rw [hl] at hm hok
          obtain ⟨i, hent⟩ := hok.2.2
          cases hm with
          | upload hm =>
            cases hm with
            | unlink => exact .inl (.inr rfl)
            | stuck e =>
              have hr := h.exec.1.1
              rw [Os.run_unlink_entry hok.1.partial_plain hent] at hr
              cases hr
            | abort ht => exact ht.elim
          | uploaded hm | uploadFailed hm => cases hm
        · rw [hl] at hm
          rcases hm.split with ⟨-, ⟨b, q, hl'⟩, -⟩ | ⟨r', u', ph, ph', hl', hm, -⟩
          · cases hl'
          · cases hl'
            cases hm with
            | confirm a =>
              right
              rw [h.exec.2]
              exact ⟨_, List.mem_cons_self, ⟨rfl, (h.contends hl hn).1⟩, h.told hl hn rfl⟩
            | abort ht => exact ht.elim
      · rw [Function.update_of_ne heq]
        exact .inl hph
    · refine ⟨t', r, u, hu, hn, .inr ?_⟩
      rw [h.exec.2]
      exact hwon.cons _
  · -- the step is the link
    have hnone : w.os.entry (encode name) = none := not_not.mp htaken
    rcases h.move.effect h.exec.1 with ⟨hos, -⟩ | ⟨r, u, ph, ph', hl, hm, hlast⟩
    · rw [hos] at ht
      exact absurd hnone ht
    · have hok := hi.ok t
      rw [hl] at hok
      have hc := hm.change hok h.exec.1
      have hne : encode name ≠ u.partialPath := fun he => h.proper (he ▸ hok.1.isPartialName)
      generalize w'.os = os' at hc ht
      cases hc with
      | same ph ph' _ => exact absurd hnone ht
      | create r he =>
        rw [Os.createAt_entry, if_neg hne] at ht
        exact absurd hnone ht
      | append hlt he => exact absurd hnone ht
      | unlink he hh =>
        rw [Os.removeAt_entry, if_neg hne] at ht
        exact absurd hnone ht
      | link he hs hn =>
        rw [Os.linkAt_entry he] at ht
        split at ht
        · next hpath =>
          have hname : u.name = name :=
            hok.1.accepted.encode_inj (accepted_of_checkFilename h.accepted) hpath.symm
          rcases hlast with rfl | ⟨hend, -⟩
          · exact ⟨t, r, u, hok.1.uploadOf, hname, .inl (.inl (by rw [Function.update_self]))⟩
          · cases hend
        · exact absurd hnone ht

/-- **A fair race, one step further.** -/
theorem next (h : RaceStep name w w' phs t s o a l) : Race name w' (Function.update phs t l) where
  accepts := by
    have hsame : w'.os.accepts = w.os.accepts := by
      rcases h.move.effect h.exec.1 with ⟨hos, -⟩ | ⟨r, u, ph, ph', hl, hm, -⟩
      · rw [hos]
      · have hok := h.uploads.base.ok t
        rw [hl] at hok
        exact (hm.change hok h.exec.1).accepts
    rw [hsame]
    exact h.race.accepts
  idle := h.idle
  fair := h.fair
  offers := h.offers
  answered := h.answered
  released := h.released
  contested := h.contested
  winner := h.winner

end RaceStep

/-! ## Whole runs -/

theorem Race.start {name : Text} {os : Os} (hacc : os.accepts (encode name) = true ∧
      ∀ d, d.length = HASH_SIZE → os.accepts (partialName (encode name) d) = true)
    (hfree : os.entry (encode name) = none)
    (hpart : ∀ d, d.length = HASH_SIZE → os.entry (partialName (encode name) d) = none) :
    Race name (Server.start T os).world fun _ => Local.plain 0 none where
  accepts := hacc
  idle := fun d hd _ => hpart d hd
  fair := by rintro t r u ph ⟨⟩
  offers := by simp [Server.start]
  answered := by simp [Server.start]
  released := by rintro t b r u ⟨⟩
  contested := by
    rintro (⟨t, r, u, hl, -⟩ | ⟨t, r, u, -, -, e, he, -⟩)
    · cases hl
    · simp [Server.start] at he
  winner := fun h => absurd hfree h

/-- At most one upload of a name is told that it is published, and the name then holds what that
upload sent after what it was offered to resume from. -/
theorem one_final_ok [DecidableEq T] {w : World T} {phs : T → Local} (htr : Trails w phs)
    (name : Text) :
    (∀ e₁ ∈ w.log, ∀ e₂ ∈ w.log, ∀ r₁ r₂, e₁.Contends name r₁ → e₂.Contends name r₂ →
      e₁.Sends okFrame → e₂.Sends okFrame → e₁.sid = e₂.sid ∧ r₁ = r₂) ∧
    ∀ later e past, w.log = later ++ e :: past → ∀ r, e.Contends name r → e.Sends okFrame →
      ∃ u x kept, uploadOf r = some u ∧ Offered past e.sid r u.partialPath x kept ∧
        kept.length = x ∧ w.os.content (encode name) = some (kept ++ received e.sid r past) := by
  -- the final OK of an upload has the link of that upload before it
  have hship : ∀ later e past, w.log = later ++ e :: past → ∀ r, e.Contends name r →
      e.Sends okFrame → ∃ u, uploadOf r = some u ∧ u.name = name ∧ Shipped past e.sid r u := by
    rintro later e past hsplit r ⟨hr, u, hu, hn⟩ hsend
    obtain ⟨u', hu', hs⟩ := htr.finals later e past hsplit r hr (type_of_uploadOf hu) hsend
    cases hu'.symm.trans hu
    exact ⟨u, hu, hn, hs⟩
  refine ⟨?_, ?_⟩
  · intro e₁ he₁ e₂ he₂ r₁ r₂ hc₁ hc₂ hs₁ hs₂
    obtain ⟨later₁, past₁, hsplit₁⟩ := List.append_of_mem he₁
    obtain ⟨later₂, past₂, hsplit₂⟩ := List.append_of_mem he₂
    obtain ⟨u₁, -, hn₁, x₁, k₁, -, -, l₁, hl₁, hof₁, hlink₁, -⟩ :=
      hship later₁ e₁ past₁ hsplit₁ r₁ hc₁ hs₁
    obtain ⟨u₂, -, hn₂, x₂, k₂, -, -, l₂, hl₂, hof₂, hlink₂, -⟩ :=
      hship later₂ e₂ past₂ hsplit₂ r₂ hc₂ hs₂
    have hm₁ : l₁ ∈ w.log := by simp [hsplit₁, hl₁]
    have hm₂ : l₂ ∈ w.log := by simp [hsplit₂, hl₂]
    rw [PutRequest.path, hn₁] at hlink₁
    rw [PutRequest.path, hn₂] at hlink₂
    -- a name is linked once
    obtain rfl : l₁ = l₂ := by
      obtain ⟨later, past, hsplit⟩ := List.append_of_mem hm₁
      rw [hsplit, List.mem_append, List.mem_cons] at hm₂
      rcases hm₂ with hm₂ | rfl | hm₂
      · obtain ⟨later', past', hsplit'⟩ := List.append_of_mem hm₂
        rw [hsplit', List.append_assoc] at hsplit
        exact absurd hlink₁ (htr.once later' l₂ _ hsplit _ _ hlink₂ l₁ (by simp) _)
      · rfl
      · exact absurd hlink₂ (htr.once later l₁ past hsplit _ _ hlink₁ l₂ hm₂ _)
    exact ⟨hof₁.1.symm.trans hof₂.1, Option.some.inj (hof₁.2.symm.trans hof₂.2)⟩
  · intro later e past hsplit r hc hsend
    obtain ⟨u, hu, hn, x, kept, hoff, hlen, e', he', -, hlink, hcont⟩ :=
      hship later e past hsplit r hc hsend
    obtain ⟨hplain, i, c, hc', hpin⟩ := htr.pins e' (by simp [hsplit, he']) _ _ hlink
    refine ⟨u, x, kept, hu, hoff, hlen, ?_⟩
    rw [hcont] at hc'
    cases hc'
    rw [← hn]
    change w.os.content u.path = _
    rw [Os.content_of_entry hplain hpin.entry, hpin.data]

/-- **One winner per name.** In every run in which nobody uploads under a partial name, for every
name that check_filename accepts and that does not exist at the start: at most one upload of the
name is ever told that it is published, and in every state after that the name holds what the
upload was offered to resume from followed by what it sent. If moreover the filesystem takes the name
and its partial names, there is no partial for the name at the start, all uploads of the name are
honest and of a size within the limit, none is interrupted, there is at least one and all have ended,
then one of them was told that it is published and every other one that the name is taken. -/
theorem one_winner_per_name [DecidableEq T] {os : Os} (h0 : PartialsApart os) {s : Server T}
    (hr : Server.Run (Server.start T os) s) (hnp : NoPartialNames s.world.log) {name : Text}
    (hname : checkFilename name = true) (hfree : os.at? (encode name) = none) :
    (∀ e₁ ∈ s.world.log, ∀ e₂ ∈ s.world.log, ∀ r₁ r₂, e₁.Contends name r₁ → e₂.Contends name r₂ →
      e₁.Sends okFrame → e₂.Sends okFrame → e₁.sid = e₂.sid ∧ r₁ = r₂) ∧
    (∀ later e past, s.world.log = later ++ e :: past → ∀ r, e.Contends name r → e.Sends okFrame →
      ∃ u x kept, uploadOf r = some u ∧ Offered past e.sid r u.partialPath x kept ∧
        kept.length = x ∧
        s.world.os.content (encode name) = some (kept ++ received e.sid r past)) ∧
    (os.accepts (encode name) = true →
      (∀ d, d.length = HASH_SIZE → os.accepts (partialName (encode name) d) = true) →
      (∀ d, d.length = HASH_SIZE → os.entry (partialName (encode name) d) = none) →
      FairRace name s.world.log → (∃ e ∈ s.world.log, ∃ r, e.Contends name r) →
      (∀ t r u, (s.threads t).request = some r → uploadOf r = some u → u.name ≠ name) →
      ∃ t r, (∃ u, uploadOf r = some u ∧ u.name = name) ∧ Won s.world.log t r ∧
        ∀ e ∈ s.world.log, ∀ r', e.Contends name r' → (e.sid, r') ≠ (t, r) →
          TurnedAway s.world.log e.sid r') := by
  have hplain : Plain (encode name) := by
    rcases (accepted_of_checkFilename hname).plain_or_dot with hp | hd
    · exact hp
    · rw [hd, Os.at?_dot] at hfree
      cases hfree
  obtain ⟨phs, hshow, hU⟩ := hr.uploadInv h0
  obtain ⟨honce, hcontent⟩ := one_final_ok (hU.trails hnp) name
  refine ⟨honce, hcontent, ?_⟩
  rintro haccN haccP hpart hfairRace ⟨e, he, r, hc⟩ hended
  have hproper : ¬ IsPartialName (encode name) := by
    obtain ⟨hreq, u, hu, rfl⟩ := hc
    exact hnp e he u ⟨r, hreq, hu⟩
  have hkeep : Pool.Keeps Local.Rel (fun w phs => UploadInv w phs ∧
      (NoPartialNames w.log → FairRace name w.log → Race name w phs)) s := by
    rw [Os.at?_plain os hplain] at hfree
    refine Pool.inv_run Local.tracks ?_ hr ⟨_, Local.shows_start os, UploadInv.start h0,
      fun _ _ => Race.start ⟨haccN, haccP⟩ hfree hpart⟩
    rintro w phs t l o a w' ph' ⟨hU, hR⟩ hrel hx hm
    refine ⟨hU.step hrel hx hm, fun hnp hF => ?_⟩
    have hnp' : NoPartialNames w.log := by
      rw [hx.2] at hnp
      exact hnp.tail
    have hF' : FairRace name w.log := by
      rw [hx.2] at hF
      exact hF.tail
    exact RaceStep.next ⟨hname, hplain, hproper, hU, hU.trails hnp', hR hnp' hF', hnp, hF, hrel, hx,
      hm⟩
  obtain ⟨phs, hshow, hU, hR⟩ := hkeep
  have hR := hR hnp hfairRace
  -- no session is uploading the name any more
  have hquiet : ∀ {t r u ph}, phs t = .put r u ph → uploadOf r = some u → u.name ≠ name := by
    intro t r u ph hl hu
    refine hended t r u ?_ hu
    rw [(hshow t).request, hl]
    rfl
  have hdone : ∀ e ∈ s.world.log, ∀ r, e.Contends name r → Answered s.world.log e.sid r := by
    intro e he r hc
    rcases hR.answered e he r hc with ⟨u, ph, hl⟩ | hans
    · have hok := hU.base.ok e.sid
      rw [hl] at hok
      obtain ⟨-, u', hu', hn⟩ := hc
      cases hok.1.uploadOf.symm.trans hu'
      exact absurd hn (hquiet hl hu')
    · exact hans
  have hsomeone : ∃ t r, (∃ u, uploadOf r = some u ∧ u.name = name) ∧ Won s.world.log t r := by
    rcases hdone e he r hc with hwon | haway
    · exact ⟨e.sid, r, hc.2, hwon⟩
    · obtain ⟨-, u, hu, hn⟩ := hc
      rcases hR.contested (.inr ⟨e.sid, r, u, hu, hn, haway⟩) with ht | ⟨t, r', u', ph, hl, hn', -⟩
      · obtain ⟨t, r', u', hu', hn', (hl | hl) | hwon⟩ := hR.winner ht
        · exact absurd hn' (hquiet hl hu')
        · exact absurd hn' (hquiet hl hu')
        · exact ⟨t, r', ⟨u', hu', hn'⟩, hwon⟩
      · have hok := hU.base.ok t
        rw [hl] at hok
        exact absurd hn' (hquiet hl hok.1.uploadOf)
  obtain ⟨t, r, hup, hwon⟩ := hsomeone
  refine ⟨t, r, hup, hwon, fun e' he' r' hc' hne => ?_⟩
  rcases hdone e' he' r' hc' with hwon' | haway
  · obtain ⟨e₁, he₁, hof₁, ht₁⟩ := hwon
    obtain ⟨e₂, he₂, hof₂, ht₂⟩ := hwon'
    obtain ⟨hsid, hreq⟩ := honce e₁ he₁ e₂ he₂ r r' ⟨hof₁.2, hup⟩ ⟨hof₂.2, hc'.2⟩ ht₁.sends ht₂.sends
    exact absurd (Prod.ext (hof₂.1.symm.trans (hsid.symm.trans hof₁.1)) hreq.symm) hne
  · exact haway

/-! ## A race, and an upload that nobody can win -/

theorem FairRace.of_uploadsOnly [DecidableEq T] {name : Text} {b : Bytes} {log : List (Event T)}
    (hsize : b.length ≤ MAX_FILE_SIZE)
    (h : log.all (Event.uploadsOnly (encode name) b (sha256 b) log) = true)
    (hint : (log.all fun e => decide (e.request = none ∨ ¬ e.Interrupted)) = true) :
    FairRace name log where
  honest := by
    intro e he r u hr hu _
    have hspec := Event.uploadsOnly_spec (List.all_eq_true.mp h e he) hr hu
    refine ⟨by rwa [hspec.2.1], b, hspec.2.1, hspec.2.2.1, fun e' he' hof x hx => ?_⟩
    have := (Event.uploadsOnly_spec (List.all_eq_true.mp h e' he') hof.2 hu).2.2.2 x hx.offered
    rwa [hof.1] at this
  uninterrupted := by
    rintro e he r ⟨hr, -⟩ hcut
    rcases of_decide_eq_true (List.all_eq_true.mp hint e he) with hnone | hnot
    · rw [hr] at hnone
      cases hnone
    · exact hnot hcut

/-- The name an event's request uploads, if it does. -/
def Event.uploadName (e : Event T) : Option Text := (e.request.bind uploadOf).map PutRequest.name

theorem Event.contends_of_uploadName {e : Event T} {name : Text} (h : e.uploadName = some name) :
    ∃ r, e.Contends name r := by
  obtain ⟨u, hu, hn⟩ := Option.map_eq_some_iff.mp h
  obtain ⟨r, hr, hu⟩ := Option.bind_eq_some_iff.mp hu
  exact ⟨r, hr, u, hu, hn⟩

theorem contends_of_any {log : List (Event T)} {name : Text}
    (h : (log.any fun e => decide (e.uploadName = some name)) = true) :
    ∃ e ∈ log, ∃ r, e.Contends name r := by
  obtain ⟨e, he, hn⟩ := List.any_eq_true.mp h
  exact ⟨e, he, Event.contends_of_uploadName (of_decide_eq_true hn)⟩

/-- Two clients upload the same file `a`, one after the other. -/
def secondComesLate : Server Bool :=
  ((Server.start Bool Os.empty).play
    (fun _ => clientBytes T_PUT (putPayload 2 (sha256 [4, 5]) (ascii "a")) [4, 5])
    (List.replicate 20 true ++ List.replicate 6 false)).1

theorem secondComesLate_run : Server.Run (Server.start Bool Os.empty) secondComesLate := by
  rw [secondComesLate]
  exact Server.play_run _ _ _

/-- In that run there is a winner, and the other one is turned away. -/
theorem one_winner_per_name_secondComesLate :
    secondComesLate.world.os.content (encode ['a']) = some [4, 5] ∧
    ∃ t r, (∃ u, uploadOf r = some u ∧ u.name = ['a']) ∧ Won secondComesLate.world.log t r ∧
      ∀ e ∈ secondComesLate.world.log, ∀ r', e.Contends ['a'] r' → (e.sid, r') ≠ (t, r) →
        TurnedAway secondComesLate.world.log e.sid r' := by
  -- one evaluation of the run for all that is read off it
  obtain ⟨hcontent, hlog, hint, hsome, hended⟩ :
      secondComesLate.world.os.content (encode ['a']) = some [4, 5] ∧
      secondComesLate.world.log.all
        (Event.uploadsOnly (encode ['a']) [4, 5] (sha256 [4, 5]) secondComesLate.world.log) = true ∧
      (secondComesLate.world.log.all fun e => decide (e.request = none ∨ ¬ e.Interrupted)) = true ∧
      (secondComesLate.world.log.any fun e => decide (e.uploadName = some ['a'])) = true ∧
      ∀ t, (secondComesLate.threads t).request = none := by
    decide +kernel
  have hname : ¬ ascii ".part" <:+ encode ['a'] := by decide +kernel
  have hslash : Os.SLASH ∉ encode ['a'] := by decide +kernel
  refine ⟨hcontent, (one_winner_per_name partialsApart_empty secondComesLate_run
    (.of_uploadsOnly hname hlog) (by decide +kernel) (by decide +kernel)).2.2 (by decide +kernel) ?_ ?_
    (.of_uploadsOnly (by decide) hlog hint) (contends_of_any hsome) ?_⟩
  · intro d hd
    apply decide_eq_true
    rw [partialName_length hslash hd]
    decide +kernel
  · intro d hd
    exact noPartials_empty _ ⟨_, d, hd, rfl⟩
  · intro t r u hr
    rw [hended t] at hr
    cases hr

/-- A name of 233 letters. Its partial names have 256 bytes. -/
def longName : Text := List.replicate 233 'x'

/-- One client uploads an empty file under that name. -/
def longUpload : Server Unit :=
  ((Server.start Unit Os.empty).play
    (fun _ => clientBytes T_PUT (putPayload 0 (sha256 []) (encode longName)) [])
    (List.replicate 30 ())).1

theorem longUpload_run : Server.Run (Server.start Unit Os.empty) longUpload := by
  rw [longUpload]
  exact Server.play_run _ _ _

/-- **Without the condition on the filesystem there may be no winner.** Where a file name has at most
255 bytes, the partial of a legal name cannot be made, and the upload ends with INTERNAL. -/
theorem no_winner_for_longName :
    ¬ ∀ (os : Os) (s : Server Unit) (name : Text), PartialsApart os →
      Server.Run (Server.start Unit os) s → NoPartialNames s.world.log →
      checkFilename name = true → os.at? (encode name) = none →
      (∀ d, d.length = HASH_SIZE → os.entry (partialName (encode name) d) = none) →
      FairRace name s.world.log → (∃ e ∈ s.world.log, ∃ r, e.Contends name r) →
      (∀ t r u, (s.threads t).request = some r → uploadOf r = some u → u.name ≠ name) →
      ∃ t r, (∃ u, uploadOf r = some u ∧ u.name = name) ∧ Won s.world.log t r := by
  intro h
  obtain ⟨hlog, hint, hsome, hended, hnone⟩ :
      longUpload.world.log.all
        (Event.uploadsOnly (encode longName) [] (sha256 []) longUpload.world.log) = true ∧
      (longUpload.world.log.all fun e => decide (e.request = none ∨ ¬ e.Interrupted)) = true ∧
      (longUpload.world.log.any fun e => decide (e.uploadName = some longName)) = true ∧
      (longUpload.threads PUnit.unit).request = none ∧
      (longUpload.world.log.all fun e => decide (e.request = none ∨ e.op ≠ .send okFrame)) = true := by
    decide +kernel
  have hname : ¬ ascii ".part" <:+ encode longName := by decide +kernel
  have hidle : ∀ t, (longUpload.threads t).request = none := by
    rintro ⟨⟩
    exact hended
  have hfair : FairRace longName longUpload.world.log := .of_uploadsOnly (Nat.zero_le _) hlog hint
  obtain ⟨t, r, -, e, he, hof, htold⟩ := h Os.empty longUpload longName partialsApart_empty
    longUpload_run (.of_uploadsOnly hname hlog) (by decide +kernel) (by decide +kernel)
    (fun d hd => noPartials_empty _ ⟨_, d, hd, rfl⟩) hfair (contends_of_any hsome)
    fun t r u hr => by cases (hidle t).symm.trans hr
  rcases of_decide_eq_true (List.all_eq_true.mp hnone e he) with hreq | hop
  · rw [hof.2] at hreq
    cases hreq
  · exact hop htold.sends

end Retriever
