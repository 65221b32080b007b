/-
# Retriever.Server.Uploads — the content an upload publishes

As long as nobody uploads under a name that has the form of a partial name, partials are touched by
the session that holds them only. Then the bytes of an upload can be followed through its log: what
the partial held when the server offered to resume, followed by what the request received, is what
gets hashed and published; and a published name is linked once and keeps its file for good.
-/
import Retriever.Server.Immutable

namespace Retriever

variable {T : Type}

/-- No upload in the log is for a name of the form of a partial name. -/
def NoPartialNames (log : List (Event T)) : Prop :=
  ∀ e ∈ log, ∀ u, e.Uploads u → ¬ IsPartialName u.path

theorem NoPartialNames.tail {e : Event T} {log : List (Event T)} (h : NoPartialNames (e :: log)) :
    NoPartialNames log := fun e' he' => h e' (List.mem_cons_of_mem _ he')

/-! ## The bytes of an upload -/

/-- The server offered request `r` to resume from `x`, and the partial `p` then held `kept`. -/
def Offered (log : List (Event T)) (t : T) (r : Request) (p : Bytes) (x : Nat) (kept : Bytes) :
    Prop :=
  ∃ e ∈ log, e.Of t r ∧ e.Offers x ∧ (e.os.content p).getD [] = kept

/-- The size of the partial `p` is `x`, a missing one counting as empty. -/
def Sized (os : Os) (p : Bytes) (x : Nat) : Prop :=
  (os.entry p = none → x = 0) ∧ ∀ i, os.entry p = some (.file i) → x = (os.store.data i).length

/-- File `i` holds what was kept for request `r` followed by `got`. -/
def Holding (os : Os) (log : List (Event T)) (t : T) (r : Request) (p : Bytes) (i x : Nat)
    (got : Bytes) : Prop :=
  ∃ kept, Offered log t r p x kept ∧ kept.length = x ∧ os.store.data i = kept ++ got

/-- The request has linked a file with what was kept and received for it. -/
def Shipped [DecidableEq T] (log : List (Event T)) (t : T) (r : Request) (u : PutRequest) : Prop :=
  ∃ x kept, Offered log t r u.partialPath x kept ∧ kept.length = x ∧
    ∃ e ∈ log, e.Of t r ∧ e.Links u.partialPath u.path ∧
      e.os.content u.path = some (kept ++ received t r log)

theorem Offered.cons {log : List (Event T)} {t : T} {r : Request} {p : Bytes} {x : Nat}
    {kept : Bytes} (h : Offered log t r p x kept) (e : Event T) :
    Offered (e :: log) t r p x kept := by
  obtain ⟨e', he', h'⟩ := h
  exact ⟨e', List.mem_cons_of_mem _ he', h'⟩

theorem Sized.congr {os os' : Os} {p : Bytes} {x : Nat} (h : Sized os p x)
    (he : os'.entry p = os.entry p)
    (hd : ∀ i, os.entry p = some (.file i) → os'.store.data i = os.store.data i) :
    Sized os' p x := by
  refine ⟨fun hn => h.1 (he ▸ hn), fun i hi => ?_⟩
  rw [he] at hi
  rw [hd i hi]
  exact h.2 i hi

theorem Holding.congr {os os' : Os} {log : List (Event T)} {t : T} {r : Request} {p : Bytes}
    {i x : Nat} {got : Bytes} (h : Holding os log t r p i x got)
    (hd : os'.store.data i = os.store.data i) (e : Event T) :
    Holding os' (e :: log) t r p i x got := by
  obtain ⟨kept, hoff, hlen, hdata⟩ := h
  exact ⟨kept, hoff.cons e, hlen, by rw [hd, hdata]⟩

section

variable [DecidableEq T]

/-- What the log and the directory say about an upload in each phase. -/
def Phase.Trail (os : Os) (log : List (Event T)) (t : T) (r : Request) (u : PutRequest) :
    Phase → Prop
  | .asked | .clear | .reserved | .found | .oversize => received t r log = []
  | .ready x => received t r log = [] ∧ x ≤ u.fileSize ∧ Sized os u.partialPath x
  | .granted x => received t r log = [] ∧ Sized os u.partialPath x ∧
      Offered log t r u.partialPath x ((os.content u.partialPath).getD [])
  | .receiving x h w => Holding os log t r u.partialPath h x (received t r log) ∧
      w = (os.store.data h).length
  | .storing x h w c => ∃ got, Holding os log t r u.partialPath h x got ∧
      received t r log = got ++ c ∧ w = (os.store.data h).length
  | .hashing _ _ | .checked | .sniffing | .verified =>
    ∃ i x, os.entry u.partialPath = some (.file i) ∧
      Holding os log t r u.partialPath i x (received t r log) ∧
      u.fileSize ≤ (os.store.data i).length
  | .corrupt | .lost => ∃ x kept, Offered log t r u.partialPath x kept
  | .linked | .published => Shipped log t r u
  | _ => True

theorem received_other {t : T} {r : Request} {e : Event T} {log : List (Event T)}
    (h : ¬ e.Of t r) : received t r (e :: log) = received t r log := by
  simp [received, h]

theorem received_silent {t : T} {r : Request} {e : Event T} {log : List (Event T)}
    (h : e.data = []) : received t r (e :: log) = received t r log := by
  simp [received, h]

theorem Shipped.cons {log : List (Event T)} {t : T} {r : Request} {u : PutRequest}
    (h : Shipped log t r u) {e : Event T} (hr : received t r (e :: log) = received t r log) :
    Shipped (e :: log) t r u := by
  obtain ⟨x, kept, hoff, hlen, e', he', hof, hl, hc⟩ := h
  exact ⟨x, kept, hoff.cons e, hlen, e', List.mem_cons_of_mem _ he', hof, hl, by rw [hr, hc]⟩

/-- An event that is not a `recv` of request `r` leaves the trail as it is, if the partial does not
change. -/
theorem Phase.Trail.frame {os os' : Os} {log : List (Event T)} {t : T} {r : Request}
    {u : PutRequest} {ph : Phase} {e : Event T} (h : ph.Trail os log t r u) (hp : Plain u.partialPath)
    (hk : ph.Knows u os) (hr : received t r (e :: log) = received t r log)
    (he : os'.entry u.partialPath = os.entry u.partialPath)
    (hd : ∀ i, os.entry u.partialPath = some (.file i) → os'.store.data i = os.store.data i) :
    ph.Trail os' (e :: log) t r u := by
  cases ph with
  | asked | clear | reserved | found | oversize => exact hr.trans h
  | ready x => exact ⟨hr.trans h.1, h.2.1, h.2.2.congr he hd⟩
  | granted x =>
    refine ⟨hr.trans h.1, h.2.1.congr he hd, ?_⟩
    rw [Os.content_congr hp he hd]
    exact h.2.2.cons e
  | receiving x i w =>
    have hi := hd i hk
    exact ⟨hr ▸ h.1.congr hi e, by rw [hi]; exact h.2⟩
  | storing x i w c =>
    have hi := hd i hk
    obtain ⟨got, hhold, hrec, hw⟩ := h
    exact ⟨got, hhold.congr hi e, hr.trans hrec, by rw [hi]; exact hw⟩
  | hashing | checked | sniffing | verified =>
    obtain ⟨i, x, hent, hhold, hsize⟩ := h
    have hi := hd i hent
    exact ⟨i, x, he.trans hent, hr ▸ hhold.congr hi e, by rw [hi]; exact hsize⟩
  | corrupt | lost =>
    obtain ⟨x, kept, hoff⟩ := h
    exact ⟨x, kept, hoff.cons e⟩
  | linked | published => exact Shipped.cons h hr
  | _ => trivial

end

/-- The size `stat` reports of a partial. -/
theorem sized_of_stat {os : Os} {p : Bytes} (hp : Plain p) {st : Stat}
    (hs : (os.run (.stat p)).1 = some st) : Sized os p st.size := by
  rw [Os.run_stat_plain hp] at hs
  refine ⟨fun hn => ?_, fun i hi => ?_⟩
  · rw [hn] at hs
    cases hs
  · rw [hi] at hs
    cases hs
    rfl

theorem sized_of_none {os : Os} {p : Bytes} (h : os.entry p = none) : Sized os p 0 :=
  ⟨fun _ => rfl, fun i hi => by rw [h] at hi; cases hi⟩

theorem entry_of_stat_none {os : Os} {p : Bytes} (hp : Plain p) (hs : (os.run (.stat p)).1 = none) :
    os.entry p = none := by
  rw [Os.run_stat_plain hp] at hs
  cases he : os.entry p with
  | none => rfl
  | some sl =>
    rw [he] at hs
    cases sl <;> cases hs

theorem Os.content_of_none {os : Os} {p : Bytes} (hp : Plain p) (h : os.entry p = none) :
    os.content p = none := by
  simp [Os.content, Os.at?_plain os hp, h, Os.bytesOf]

section

variable [DecidableEq T]

/-- **The trail of an upload, one step further.** -/
theorem Phase.Move.trail {w : World T} {os' : Os} {fl : Finset Bytes} {t : T} {r : Request}
    {u : PutRequest} {ph ph' : Phase} {o : Sys} {a : o.Ans} (hok : (Local.put r u ph).Ok w.os)
    (htrail : ph.Trail w.os w.log t r u) (hx : w.Answers o a os' fl) (hm : ph.Move u o a ph') :
    ph'.Trail os' (⟨t, some r, o, a, os'⟩ :: w.log) t r u := by
  obtain ⟨hu, hplain, hk⟩ := hok
  have hp := hu.partial_plain
  -- steps that change neither the directory nor what the request has received
  have hlook : os' = w.os → (⟨t, some r, o, a, os'⟩ : Event T).data = [] →
      ph.Trail os' (⟨t, some r, o, a, os'⟩ :: w.log) t r u := by
    rintro rfl hd
    exact htrail.frame hp hk (received_silent hd) rfl fun _ _ => rfl
  cases hm with
  | free => exact hlook hx.2.1 rfl
  | reserve => exact hlook hx.2.1 rfl
  | absent =>
    have hos : os' = w.os := hx.2.1
    rw [hos]
    exact ⟨(received_silent rfl).trans htrail, Nat.zero_le _,
      sized_of_none (entry_of_stat_none hp hx.1)⟩
  | present st => exact hlook hx.2.1 rfl
  | fits hs =>
    have hos : os' = w.os := hx.2.1
    rw [hos]
    exact ⟨(received_silent rfl).trans htrail, hs, sized_of_stat hp hx.1⟩
  | exceeds hs => exact hlook hx.2.1 rfl
  | drop =>
    obtain ⟨-, hos⟩ := Os.run_unlink_ok hp hx.1
    refine ⟨(received_silent rfl).trans htrail, Nat.zero_le _, sized_of_none ?_⟩
    rw [hx.2.1, hos, Os.removeAt_entry, if_pos rfl]
  | offer x =>
    obtain ⟨-, rfl, -⟩ := hx
    have hlt : x < 256 ^ 8 := lt_of_le_of_lt (htrail.2.1.trans hu.size) (by decide)
    exact ⟨(received_silent rfl).trans htrail.1, htrail.2.2,
      _, List.mem_cons_self, ⟨rfl, rfl⟩, ⟨hlt, rfl⟩, rfl⟩
  | openPartial x h =>
    obtain ⟨hrec, hsized, hoff⟩ := htrail
    rcases Os.run_openAb_ok hp hx.1 with ⟨hent, hos⟩ | ⟨hent, rfl, hos⟩
    · rw [Os.content_of_entry hp hent] at hoff
      have hos' : os' = w.os := hx.2.1.trans hos
      rw [hos']
      refine ⟨⟨_, hoff.cons _, (hsized.2 h hent).symm, ?_⟩, hsized.2 h hent⟩
      rw [received_silent rfl, hrec, Option.getD_some, List.append_nil]
    · rw [Os.content_of_none hp hent] at hoff
      have hos' : os' = _ := hx.2.1.trans hos
      have hx0 := hsized.1 hent
      subst hx0
      rw [hos']
      refine ⟨⟨[], hoff.cons _, rfl, ?_⟩, by simp⟩
      rw [received_silent rfl, hrec]
      simp
  | @receive x h w' n c hw hn hc =>
    obtain ⟨hhold, hlen⟩ := htrail
    have hos : os' = w.os := hx.2.1
    rw [hos]
    refine ⟨_, hhold.congr rfl _, ?_, hlen⟩
    simp [received, Event.Of, Event.data]
  | store x h w' c =>
    obtain ⟨got, ⟨kept, hoff, hlen, hdata⟩, hrec, hw⟩ := htrail
    obtain ⟨hlt, hos⟩ := Os.run_write_ok hx.1
    have hos' : os' = _ := hx.2.1.trans hos
    rw [hos']
    refine ⟨⟨kept, hoff.cons _, hlen, ?_⟩, ?_⟩
    · rw [received_silent rfl, hrec, Os.appendTo_data, if_pos rfl, hdata, List.append_assoc]
    · rw [Os.appendTo_data, if_pos rfl, List.length_append, hw]
  | @rehash x h w' i hw =>
    have hos : os' = w.os := hx.2.1.trans (Os.run_looks (.openRb _))
    obtain ⟨hhold, hlen⟩ := htrail
    rw [hos]
    refine ⟨h, x, hk, ?_, hlen ▸ hw⟩
    rw [received_silent rfl]
    exact hhold.congr rfl _
  | readMore hc => exact hlook (hx.2.1.trans (Os.run_looks (.read _ _ _))) rfl
  | mismatch hn hd =>
    obtain ⟨i, x, hent, ⟨kept, hoff, -⟩, -⟩ := htrail
    exact ⟨x, kept, hoff.cons _⟩
  | matched hn hd => exact hlook (hx.2.1.trans (Os.run_looks (.read _ _ _))) rfl
  | reopen i => exact hlook (hx.2.1.trans (Os.run_looks (.openRb _))) rfl
  | sniff c => exact hlook (hx.2.1.trans (Os.run_looks (.read _ _ _))) rfl
  | link =>
    obtain ⟨i, x, hent, ⟨kept, hoff, hlen, hdata⟩, -⟩ := htrail
    obtain ⟨-, -, hos⟩ := Os.run_link_ok hp (hplain rfl) hx.1
    have hos' : os' = _ := hx.2.1.trans hos
    rw [hos']
    refine ⟨x, kept, hoff.cons _, hlen, _, List.mem_cons_self, ⟨rfl, rfl⟩, ⟨rfl, rfl⟩, ?_⟩
    have hname := Os.content_of_entry (hplain rfl)
      ((Os.linkAt_entry hent u.path u.path).trans (if_pos rfl))
    rw [Os.linkAt_data] at hname
    rw [received_silent rfl, ← hdata]
    exact hname
  | linkTaken =>
    obtain ⟨i, x, hent, ⟨kept, hoff, -⟩, -⟩ := htrail
    exact ⟨x, kept, hoff.cons _⟩
  | unlink => exact Shipped.cons htrail (received_silent rfl)
  | _ => trivial

end

/-! ## Request numbers -/

/-- How many requests a session has been given. -/
def Local.bound : Local → Nat
  | .plain b _ => b
  | .put r _ _ => r.1 + 1

/-- Requests are numbered in order: no event belongs to a request that is still to come. -/
structure Numbered (w : World T) (phs : T → Local) : Prop where
  bounded : ∀ e ∈ w.log, ∀ r, e.request = some r → r.1 < (phs e.sid).bound
  current : ∀ t b r, phs t = .plain b (some r) → r.1 < b

theorem Local.Move.bound_le {l l' : Local} {o : Sys} {a : o.Ans} (h : l.Move o a l') :
    l.bound ≤ l'.bound := by
  cases h <;> simp [Local.bound]

theorem Numbered.request_lt {w : World T} {phs : T → Local} (h : Numbered w phs) {t : T}
    {r : Request} (hr : (phs t).request = some r) : r.1 < (phs t).bound := by
  cases hl : phs t with
  | plain b q =>
    rw [hl] at hr
    cases hr
    exact h.current t b r hl
  | put r' u ph =>
    rw [hl] at hr
    cases hr
    exact Nat.lt_succ_self _

section

variable [DecidableEq T] {w w' : World T} {phs : T → Local} {t : T} {s : Session} {o : Sys}
  {a : o.Ans} {l : Local}

theorem Numbered.step (h : Numbered w phs) (hrel : Local.Rel s (phs t))
    (hx : World.Exec t s w o a w') (hm : (phs t).Move o a l) :
    Numbered w' (Function.update phs t l) where
  bounded := by
    intro e he r hr
    have hold : ∀ t', r.1 < (phs t').bound → r.1 < (Function.update phs t l t').bound := by
      intro t' hlt
      by_cases ht : t' = t
      · subst ht
        rw [Function.update_self]
        exact hlt.trans_le hm.bound_le
      · rwa [Function.update_of_ne ht]
    rw [hx.2] at he
    rcases List.mem_cons.mp he with rfl | he
    · exact hold t (h.request_lt (hrel.request.symm.trans hr))
    · exact hold e.sid (h.bounded e he r hr)
  current := by
    intro t' b r hl
    by_cases ht : t' = t
    · subst ht
      rw [Function.update_self] at hl
      subst hl
      generalize hl₀ : phs t' = l₀ at hm
      cases hm with
      | stay a hq => exact h.current t' b r hl₀
      | begin a hq hr => exact Nat.lt_succ_of_le (hr r rfl).1.le
      | uploadFailed hm => exact Nat.lt_succ_self _
    · rw [Function.update_of_ne ht] at hl
      exact h.current t' b r hl

theorem received_eq_nil {r : Request} {log : List (Event T)} (h : ∀ e ∈ log, ¬ e.Of t r) :
    received t r log = [] := by
  induction log with
  | nil => rfl
  | cons e log ih =>
    rw [received_other (h e List.mem_cons_self)]
    exact ih fun e' he' => h e' (List.mem_cons_of_mem _ he')

end

/-! ## The directory while nobody uploads under a partial name -/

structure Trails [DecidableEq T] (w : World T) (phs : T → Local) : Prop where
  strict : ∀ k k' i, IsPartialName k → IsPartialName k' → w.os.entry k = some (.file i) →
    w.os.entry k' = some (.file i) → k = k'
  trail : ∀ t r u ph, phs t = .put r u ph → ph.Trail w.os w.log t r u
  pins : ∀ e ∈ w.log, ∀ p N, e.Links p N → Plain N ∧
    ∃ i c, e.os.content N = some c ∧ Pinned N i c w.os phs
  once : ∀ later e past, w.log = later ++ e :: past → ∀ p N, e.Links p N →
    ∀ e' ∈ past, ∀ p', ¬ e'.Links p' N
  finals : ∀ later e past, w.log = later ++ e :: past → ∀ r, e.request = some r →
    r.2.type = T_PUT → e.Sends okFrame → ∃ u, uploadOf r = some u ∧ Shipped past e.sid r u

/-- A step of an upload to a proper name changes no partial but its own. -/
theorem Change.partials {os os' : Os} {u : PutRequest} {ph ph' : Phase} {f : Frame}
    (hu : u.OfFrame f) (hc : Change u os ph ph' os') (hnp : ¬ IsPartialName u.path)
    (hstrict : ∀ k k' i, IsPartialName k → IsPartialName k' → os.entry k = some (.file i) →
      os.entry k' = some (.file i) → k = k')
    {k : Bytes} (hk : IsPartialName k) (hne : ph.holds = true → k ≠ u.partialPath) :
    os'.entry k = os.entry k ∧
      ∀ i, os.entry k = some (.file i) → os'.store.data i = os.store.data i := by
  cases hc with
  | same ph ph' _ => exact ⟨rfl, fun _ _ => rfl⟩
  | create r he =>
    refine ⟨by rw [Os.createAt_entry, if_neg (hne rfl)], fun i hi => ?_⟩
    rw [Os.createAt_data, if_neg (Os.entry_lt_next hi).ne]
  | @append r h w c hlt hent =>
    refine ⟨rfl, fun i hi => ?_⟩
    rw [Os.appendTo_data, if_neg]
    rintro rfl
    exact hne rfl (hstrict _ _ _ hk hu.isPartialName hi hent)
  | @unlink ph ph' j hent hh =>
    exact ⟨by rw [Os.removeAt_entry, if_neg (hne hh)], fun _ _ => rfl⟩
  | @link j hent hs hnone =>
    refine ⟨?_, fun i hi => by rw [Os.linkAt_data]⟩
    rw [Os.linkAt_entry hent, if_neg]
    rintro rfl
    exact hnp hk

/-- Partial names stay the only partial names of their files. -/
theorem Change.strict {os os' : Os} {u : PutRequest} {ph ph' : Phase} (hc : Change u os ph ph' os')
    (hnp : ¬ IsPartialName u.path)
    (hstrict : ∀ k k' i, IsPartialName k → IsPartialName k' → os.entry k = some (.file i) →
      os.entry k' = some (.file i) → k = k') :
    ∀ k k' i, IsPartialName k → IsPartialName k' → os'.entry k = some (.file i) →
      os'.entry k' = some (.file i) → k = k' :=
  hc.relates (fun _ => rfl) (fun hp => absurd hp hnp) hstrict

/-- Reserved paths are partial names. -/
theorem Inv.isPartialName {watch : Bytes → Prop} {w : World T} {phs : T → Local}
    (hi : Inv watch w phs) {k : Bytes}
    (hk : k ∈ w.inFlight) : IsPartialName k := by
  obtain ⟨t, ht⟩ := (hi.leases.mem_iff k).mp hk
  have hok := hi.ok t
  cases hl : phs t with
  | plain b q =>
    rw [hl] at ht
    cases ht
  | put r u ph =>
    rw [hl] at ht hok
    simp only [Local.held, Option.ite_none_right_eq_some, Option.some.injEq] at ht
    exact ht.2 ▸ hok.1.isPartialName

section

variable [DecidableEq T] {w w' : World T} {phs : T → Local} {t : T} {s : Session} {o : Sys}
  {a : o.Ans} {l : Local}

theorem Phase.Trail.idle {os os' : Os} {log : List (Event T)} {r : Request} {u : PutRequest}
    {ph : Phase} {e : Event T} (h : ph.Trail os log t r u) (hh : ph.holds = false)
    (hr : received t r (e :: log) = received t r log) : ph.Trail os' (e :: log) t r u := by
  cases ph with
  | asked | clear => exact hr.trans h
  | turned | busy | finished => trivial
  | _ => cases hh

/-- The trails of the other sessions. -/
theorem Trails.trail_other (hi : Inv IsPartialName w phs) (ht : Trails w phs) {r : Request}
    {u : PutRequest} {ph ph' : Phase} {os' : Os} {e : Event T} (hl : phs t = .put r u ph)
    (hc : Change u w.os ph ph' os') (hnp : ¬ IsPartialName u.path) (he : e.sid = t) {t' : T}
    (hne : t' ≠ t) {r' : Request} {u' : PutRequest} {ph₁ : Phase} (hl' : phs t' = .put r' u' ph₁) :
    ph₁.Trail os' (e :: w.log) t' r' u' := by
  have hok := hi.ok t
  have hok' := hi.ok t'
  rw [hl] at hok
  rw [hl'] at hok'
  have hr : received t' r' (e :: w.log) = received t' r' w.log := by
    refine received_other fun hof => hne ?_
    rw [← hof.1, he]
  have htrail := ht.trail t' r' u' ph₁ hl'
  cases hh : ph₁.holds with
  | false => exact htrail.idle hh hr
  | true =>
    obtain ⟨hent, hdata⟩ := hc.partials hok.1 hnp ht.strict hok'.1.isPartialName
      fun hh' => hi.partial_ne hne hl hl' hh' hh
    exact htrail.frame hok'.1.partial_plain hok'.2.2 hr hent hdata

/-- **The trails of all uploads, one step further.** -/
theorem Trails.step (hi : Inv IsPartialName w phs) (hp : PublicationInv w phs)
    (hnum : Numbered w phs) (ht : Trails w phs) (hnp : NoPartialNames w'.log)
    (hrel : Local.Rel s (phs t)) (hx : World.Exec t s w o a w') (hm : (phs t).Move o a l) :
    Trails w' (Function.update phs t l) := by
  have hreq := hrel.request
  have hlog := hx.2
  -- the name of the upload that takes the step is a proper one
  have hname : ∀ {r u ph}, phs t = .put r u ph → ¬ IsPartialName u.path := by
    intro r u ph hl
    have hok := hi.ok t
    rw [hl] at hok hreq
    exact hnp _ (by rw [hlog]; exact List.mem_cons_self) u ⟨r, hreq, hok.1.uploadOf⟩
  have hpin : ∀ {N i c}, ¬ IsPartialName N → Pinned N i c w.os phs →
      Pinned N i c w'.os (Function.update phs t l) := fun hN hpin =>
    hpin.step hi (fun hmem => hN (hi.isPartialName hmem)) hx hm
  refine ⟨?_, ?_, ?_, ?_, ?_⟩
  · -- strict
    rcases hm.effect hx.1 with ⟨hos, -⟩ | ⟨r, u, ph, ph', hl, hm, -⟩
    · rw [hos]
      exact ht.strict
    · have hok := hi.ok t
      rw [hl] at hok
      exact (hm.change hok hx.1).strict (hname hl) ht.strict
  · -- trail
    intro t' r' u' ph₁ hl'
    rw [hlog]
    by_cases h : t' = t
    · subst h
      rw [Function.update_self] at hl'
      rcases hm.effect hx.1 with ⟨hos, -, -, -, ⟨b, q, rfl⟩ | ⟨b, f, u, hl, rfl, hu⟩⟩ |
        ⟨r, u, ph, ph', hl, hmove, rfl | ⟨-, b, q, rfl⟩⟩
      · cases hl'
      · cases hl'
        refine (received_eq_nil fun e he hof => ?_ : received t' (b, f) _ = [])
        rcases List.mem_cons.mp he with rfl | he
        · rw [hl] at hreq
          have := hof.2.symm.trans hreq
          cases this
        · have := hnum.bounded e he _ hof.2
          rw [hof.1, hl] at this
          exact absurd this (Nat.lt_irrefl _)
      · cases hl'
        have hok := hi.ok t'
        rw [hl] at hok hreq
        have := hmove.trail hok (ht.trail t' _ _ _ hl) hx.1
        rwa [hreq]
      · cases hl'
    · rw [Function.update_of_ne h] at hl'
      rcases hm.effect hx.1 with ⟨hos, -⟩ | ⟨r, u, ph, ph', hl, hm, -⟩
      · have hok' := hi.ok t'
        rw [hl'] at hok'
        refine (ht.trail t' r' u' ph₁ hl').frame hok'.1.partial_plain hok'.2.2 ?_ (by rw [hos])
          fun _ _ => by rw [hos]
        exact received_other fun hof => h hof.1.symm
      · have hok := hi.ok t
        rw [hl] at hok
        exact ht.trail_other hi hl (hm.change hok hx.1) (hname hl) rfl h hl'
  · -- pins
    rw [hlog]
    intro e he p N hlinks
    rcases List.mem_cons.mp he with rfl | he
    · obtain ⟨r, u, hl, rfl, rfl, rfl⟩ := hm.of_links hlinks
      have hok := hi.ok t
      rw [hl] at hok hm
      cases hm with
      | upload hm =>
        cases hm with
        | link =>
          obtain ⟨i, c, hpin⟩ := Pinned.of_link hi hl hx.1
          have hplain := hok.2.1 rfl
          refine ⟨hplain, i, c, ?_, hpin⟩
          rw [Os.content_of_entry hplain hpin.entry, hpin.data]
    · obtain ⟨hplain, i, c, hc, hpinned⟩ := ht.pins e he p N hlinks
      obtain ⟨u, hu, -, rfl, -⟩ := hp.sound e he p N hlinks
      exact ⟨hplain, i, c, hc, hpin (hnp e (by rw [hlog]; exact List.mem_cons_of_mem _ he) u hu)
        hpinned⟩
  · -- once
    rw [hlog]
    intro later e past hsplit p N hlinks e' he' p' hlinks'
    cases later with
    | cons e₁ later =>
      injection hsplit with _ hsplit
      exact ht.once later e past hsplit p N hlinks e' he' p' hlinks'
    | nil =>
      injection hsplit with he hpast
      subst he hpast
      obtain ⟨r, u, hl, rfl, rfl, rfl⟩ := hm.of_links hlinks
      have hok := hi.ok t
      rw [hl] at hok hm
      cases hm with
      | upload hm =>
        cases hm with
        | link =>
          obtain ⟨-, hnone, -⟩ := Os.run_link_ok hok.1.partial_plain (hok.2.1 rfl) hx.1.1
          obtain ⟨-, i, c, -, hpinned⟩ := ht.pins e' he' p' _ hlinks'
          rw [hpinned.entry] at hnone
          cases hnone
  · -- finals
    rw [hlog]
    intro later e past hsplit r hr htype hsend
    cases later with
    | cons e₁ later =>
      injection hsplit with _ hsplit
      exact ht.finals later e past hsplit r hr htype hsend
    | nil =>
      injection hsplit with he hpast
      subst he hpast
      have hr' := hreq.symm.trans hr
      obtain ⟨r', u, hl⟩ := hm.of_confirm hsend ⟨r.1, r.2, hr', htype⟩
      rw [hl] at hr'
      cases hr'
      have hok := hi.ok t
      rw [hl] at hok
      exact ⟨u, hok.1.uploadOf, ht.trail t r u _ hl⟩

end

/-! ## Whole runs -/

/-- Everything that is kept about uploads. -/
structure UploadInv [DecidableEq T] (w : World T) (phs : T → Local) : Prop where
  base : Inv IsPartialName w phs
  publication : PublicationInv w phs
  numbered : Numbered w phs
  trails : NoPartialNames w.log → Trails w phs

section

variable [DecidableEq T]

theorem UploadInv.step {w w' : World T} {phs : T → Local} {t : T} {s : Session} {o : Sys}
    {a : o.Ans} {l : Local} (h : UploadInv w phs) (hrel : Local.Rel s (phs t))
    (hx : World.Exec t s w o a w') (hm : (phs t).Move o a l) :
    UploadInv w' (Function.update phs t l) where
  base := Inv.step (fun _ h => h) w phs t s o a w' l h.base hrel hx hm
  publication := h.publication.step h.base hrel hx hm
  numbered := h.numbered.step hrel hx hm
  trails := by
    intro hnp
    have hnp' : NoPartialNames w.log := by
      rw [hx.2] at hnp
      exact hnp.tail
    exact (h.trails hnp').step h.base h.publication h.numbered hnp hrel hx hm

theorem UploadInv.start {os : Os} (h : PartialsApart os) :
    UploadInv (Server.start T os).world fun _ => Local.plain 0 none where
  base := Inv.start h
  publication := PublicationInv.start os
  numbered := ⟨by simp [Server.start], by rintro t b r ⟨⟩⟩
  trails := by
    intro _
    refine ⟨fun k k' i hk hk' => h k k' i hk hk', by rintro t r u ph ⟨⟩, by simp [Server.start],
      ?_, ?_⟩
    · rintro later e past hsplit
      simp [Server.start] at hsplit
    · rintro later e past hsplit
      simp [Server.start] at hsplit

theorem Server.Run.uploadInv {os : Os} (h : PartialsApart os) {s : Server T}
    (hr : Server.Run (Server.start T os) s) : Pool.Keeps Local.Rel UploadInv s :=
  Pool.inv_run Local.tracks (fun _ _ _ _ _ _ _ _ hi hrel hx hm => hi.step hrel hx hm) hr
    ⟨_, Local.shows_start os, UploadInv.start h⟩

end

end Retriever
