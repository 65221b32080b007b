/-
# Retriever.Server.Snapshot — a GET among uploads

A GET looks at its file three times: for the size, for the hash, for the body. As long as no upload
that has the name as its partial path holds its reservation, nobody touches the file in between:
what the handler sees is what `Retriever.Server.GetView` asks for, and the reply is one of a single
content (`get_snapshot`). But a partial can be fetched under its own name while it is being
written, and then the reply may be cut in two by an error frame (`get_not_snapshot`).
-/
import Retriever.Server.GetView
import Retriever.Server.Uploads

namespace Retriever

variable {T : Type}

/-! ## The file stays as it is -/

section

variable {watch : Bytes → Prop} {w w' : World T} {phs : T → Local} {t : T} {s : Session} {o : Sys}
  {a : o.Ans} {l : Local}

/-- A watched name that is bound to a file and not reserved keeps the file and its bytes. -/
theorem Inv.steady (hi : Inv watch w phs) (hw : ∀ p, IsPartialName p → watch p) {N : Bytes}
    (hN : watch N) (hfree : N ∉ w.inFlight) (hx : World.Exec t s w o a w')
    (hm : (phs t).Move o a l) {i : Nat} (he : w.os.entry N = some (.file i)) :
    w'.os.entry N = some (.file i) ∧ w'.os.store.data i = w.os.store.data i := by
  rcases hm.effect hx.1 with ⟨hos, -⟩ | ⟨r, u, ph, ph', hl, hm, -⟩
  · rw [hos]
    exact ⟨he, rfl⟩
  · have hok := hi.ok t
    rw [hl] at hok
    have hne : ph.holds = true → N ≠ u.partialPath := by
      rintro hh rfl
      exact hfree (hi.leases.mem (Local.held_of_holds hl hh))
    have hc := hm.change hok hx.1
    generalize w'.os = os' at hc
    cases hc with
    | same ph ph' _ => exact ⟨he, rfl⟩
    | create r hnone =>
      rw [Os.createAt_entry, if_neg (hne rfl), Os.createAt_data, if_neg (Os.entry_lt_next he).ne]
      exact ⟨he, rfl⟩
    | @append r h n c hlt hent =>
      refine ⟨he, ?_⟩
      rw [Os.appendTo_data, if_neg]
      -- a file that is being written has no other watched name that stays
      rintro rfl
      rcases hi.other_name hw hl rfl (by simp) hent hN he with h | ⟨t', r', u', hl', hp⟩
      · exact hne rfl h
      · exact hfree (hp ▸ hi.leases.mem (Local.held_of_holds hl' rfl))
    | unlink hent hh =>
      rw [Os.removeAt_entry, if_neg (hne hh)]
      exact ⟨he, rfl⟩
    | link hent hs hnone =>
      rw [Os.linkAt_entry hent, if_neg, Os.linkAt_data]
      · exact ⟨he, rfl⟩
      · rintro rfl
        rw [he] at hnone
        cases hnone

end

/-! ## What the handler has seen is so -/

section

variable [DecidableEq T]

/-- What request `r` of session `t` has seen of `N` is so, and it has sent what it thinks. -/
structure View.Holds (v : View) (N : Bytes) (os : Os) (log : List (Event T)) (t : T) (r : Request) :
    Prop where
  sent : v.sent = replied t r log
  unknown : v.known = none → v.file = none
  known : ∀ c, v.known = some c → Plain N ∧
    (∃ i, os.entry N = some (.file i) ∧ os.store.data i = c ∧ ∀ f, v.file = some f → f = i) ∧
    ∃ e ∈ log, e.Of t r ∧ e.os.content N = some c

theorem replied_other {t : T} {r : Request} {e : Event T} {log : List (Event T)}
    (h : ¬ e.Of t r) : replied t r (e :: log) = replied t r log := by
  simp [replied, h]

theorem replied_own {t : T} {r : Request} {e : Event T} {log : List (Event T)} (h : e.Of t r) :
    replied t r (e :: log) = replied t r log ++ e.out := by
  simp [replied, h]

variable {N : Bytes} {t : T} {r : Request} {v : View}

/-- It stays so while the name keeps its file and the request does nothing. -/
theorem View.Holds.frame {os os' : Os} {log : List (Event T)} {e : Event T}
    (h : v.Holds N os log t r) (he : ¬ e.Of t r)
    (hf : ∀ i, os.entry N = some (.file i) → os'.entry N = some (.file i) ∧
      os'.store.data i = os.store.data i) : v.Holds N os' (e :: log) t r where
  sent := by rw [replied_other he, h.sent]
  unknown := h.unknown
  known := by
    intro c hc
    obtain ⟨hplain, ⟨i, hi, hd, hfile⟩, e', he', hof, hcont⟩ := h.known c hc
    obtain ⟨hi', hd'⟩ := hf i hi
    exact ⟨hplain, ⟨i, hi', hd'.trans hd, hfile⟩, e', List.mem_cons_of_mem _ he', hof, hcont⟩

/-- **A call of the handler is answered as its view foresees.** -/
theorem View.Holds.step {w : World T} {os' : Os} {fl : Finset Bytes} {o : Sys} {a : o.Ans}
    (h : v.Holds N w.os w.log t r) (hmay : View.May N v o) (hx : w.Answers o a os' fl)
    (hnet : ¬ (⟨t, some r, o, a, os'⟩ : Event T).Interrupted) :
    ∃ v', View.Gives N v o a v' ∧ v'.Holds N os' (⟨t, some r, o, a, os'⟩ :: w.log) t r := by
  have hof : (⟨t, some r, o, a, os'⟩ : Event T).Of t r := ⟨rfl, rfl⟩
  -- a call that looks adds nothing to what has been sent
  have hquiet : os' = w.os → (⟨t, some r, o, a, os'⟩ : Event T).out = [] →
      v.Holds N os' (⟨t, some r, o, a, os'⟩ :: w.log) t r := by
    rintro rfl hout
    refine ⟨by rw [replied_own hof, hout, List.append_nil, h.sent], h.unknown, ?_⟩
    intro c hc
    obtain ⟨hplain, hi, e, he, h'⟩ := h.known c hc
    exact ⟨hplain, hi, e, List.mem_cons_of_mem _ he, h'⟩
  cases hmay with
  | stat hN =>
    obtain ⟨ha, hos, -⟩ := hx
    obtain rfl : os' = w.os := hos
    have hkeep := hquiet rfl rfl
    rcases hN with hp | rfl
    · rw [Os.run_stat_plain hp] at ha
      cases he : w.os.entry N with
      | none =>
        rw [he] at ha
        refine ⟨v, .unseen ?_ (by rw [← ha]; simp), hkeep⟩
        cases hk : v.known with
        | none => rfl
        | some c =>
          obtain ⟨-, ⟨i, hi, -⟩, -⟩ := h.known c hk
          rw [he] at hi
          cases hi
      | some sl =>
        rw [he] at ha
        cases sl with
        | subdir =>
          refine ⟨v, .unseen ?_ (by rw [← ha]; simp), hkeep⟩
          cases hk : v.known with
          | none => rfl
          | some c =>
            obtain ⟨-, ⟨i, hi, -⟩, -⟩ := h.known c hk
            rw [he] at hi
            cases hi
        | file i =>
          subst ha
          have hsame : ∀ c, v.known = some c → c = w.os.store.data i ∧
              ∀ f, v.file = some f → f = i := by
            intro c hk
            obtain ⟨-, ⟨j, hj, hd, hfile⟩, -⟩ := h.known c hk
            rw [he] at hj
            cases hj
            exact ⟨hd.symm, hfile⟩
          refine ⟨_, .seen (fun c hk => (hsame c hk).1) (w.os.small i), hkeep.sent, ?_, ?_⟩
          · rintro ⟨⟩
          · rintro c ⟨⟩
            refine ⟨hp, ⟨i, he, rfl, ?_⟩, _, List.mem_cons_self, hof, Os.content_of_entry hp he⟩
            intro f hf
            cases hk : v.known with
            | none =>
              rw [h.unknown hk] at hf
              cases hf
            | some c => exact (hsame c hk).2 f hf
    · have hnone : v.known = none := by
        cases hk : v.known with
        | none => rfl
        | some c => exact absurd rfl (h.known c hk).1.ne_dot
      refine ⟨v, .unseen hnone ?_, hkeep⟩
      intro n hn
      rw [hn] at ha
      simp [Os.run, Os.statAt, Os.at?_dot] at ha
  | openRb hk =>
    obtain ⟨hp, ⟨i, hi, hd, hfile⟩, -⟩ := h.known _ hk
    obtain ⟨ha, hos, -⟩ := hx
    rw [Os.run_openRb_entry hp hi] at ha
    subst ha
    have hkeep := hquiet (hos.trans (Os.run_looks (.openRb _))) rfl
    refine ⟨_, .opened i, hkeep.sent, ?_, ?_⟩
    · intro hnone
      rw [show v.known = none from hnone] at hk
      cases hk
    · intro c hc
      obtain ⟨-, ⟨j, hj, hd', -⟩, hmoment⟩ := hkeep.known c hc
      refine ⟨hp, ⟨j, hj, hd', ?_⟩, hmoment⟩
      rintro f ⟨⟩
      rw [show os' = w.os from hos.trans (Os.run_looks (.openRb _)), hi] at hj
      cases hj
      rfl
  | @read f pos n c hk hf =>
    obtain ⟨-, ⟨i, -, hd, hfile⟩, -⟩ := h.known _ hk
    obtain rfl := hfile f hf
    obtain ⟨ha, hos, -⟩ := hx
    have hread : a = .ok ((c.drop pos).take n) := by
      rw [← ha, ← hd]
      rfl
    subst hread
    exact ⟨v, .got hk, hquiet hos rfl⟩
  | send b =>
    obtain ⟨-, rfl, -⟩ := hx
    cases a with
    | error e => exact absurd trivial hnet
    | ok =>
      refine ⟨_, .sent b, ?_, h.unknown, ?_⟩
      · rw [replied_own hof, ← h.sent]
        rfl
      · intro c hc
        obtain ⟨hplain, hi, e, he, h'⟩ := h.known c hc
        exact ⟨hplain, hi, e, List.mem_cons_of_mem _ he, h'⟩

end

/-! ## The session that serves the GET -/

/-- Where a session stands with a given request: nothing is said, it is busy with it, it is done
with it. -/
inductive Getting where
  | idle
  | busy (v : View)
  | ended (v : View)

/-- A refusal that is raised is sent by `handle_client`. -/
def GetRequest.Refused (e : Exn) (v : View) : Prop :=
  v.sent = [] ∧ ∃ m, (encode m).length < 256 ^ 2 ∧ e = .frameError E_MALFORMED m

/-- What is left of the session's program does right by the request. -/
inductive Getting.Rel (g : GetRequest) (r : Request) : Session → Getting → Prop
  | idle (l : Session) : Rel g r l .idle
  | serving {o : Sys} {k : o.Ans → Py Bool} {v : View} :
      (Proc.call o k).wp (View.env (encode g.name) g.Underway) (fun _ v => g.Served v)
        GetRequest.Refused v → Rel g r (.serving r (.call o k)) (.busy v)
  | failing {o : Sys} {k : o.Ans → Py Unit} {v : View} :
      (Proc.call o k).wp (View.env (encode g.name) g.Underway) (fun _ v => g.Served v)
        (fun _ v => g.Served v) v → Rel g r (.failing (some r) (.call o k)) (.busy v)
  | ended {l : Session} {v : View} : g.Served v → Rel g r l (.ended v)

/-- The session goes on with the request, or is done with it. -/
def Getting.Next (g : GetRequest) (r : Request) (l : Session) (v : View) : Prop :=
  Getting.Rel g r l (.busy v) ∨ g.Served v ∧ l.request = none

theorem Getting.Rel.request {g : GetRequest} {r : Request} {l : Session} {v : View}
    (h : Getting.Rel g r l (.busy v)) : l.request = some r := by
  cases h <;> rfl

theorem Getting.Rel.underway {g : GetRequest} {r : Request} {l : Session} {v : View}
    (h : Getting.Rel g r l (.busy v)) : g.Underway v := by
  cases h with
  | serving hwp => exact hwp.1.1
  | failing hwp => exact hwp.1.1

theorem Getting.Rel.served {g : GetRequest} {r : Request} {l : Session} {v : View}
    (h : Getting.Rel g r l (.ended v)) : g.Served v := by
  cases h with
  | ended hs => exact hs

theorem Getting.settleFailing {g : GetRequest} {r : Request} {p : Py Unit} {v : View}
    (h : p.wp (View.env (encode g.name) g.Underway) (fun _ v => g.Served v)
      (fun _ v => g.Served v) v) :
    Getting.Next g r (Session.settleFailing (some r) p) v := by
  cases p with
  | done x => exact .inr ⟨h, rfl⟩
  | raise e => exact .inr ⟨h, rfl⟩
  | call o k => exact .inl (.failing h)

theorem Getting.settleServing {g : GetRequest} {r : Request} {p : Py Bool} {v : View}
    (h : p.wp (View.env (encode g.name) g.Underway) (fun _ v => g.Served v)
      GetRequest.Refused v) : Getting.Next g r (Session.settleServing r p) v := by
  cases p with
  | done b =>
    refine .inr ⟨h, ?_⟩
    cases b <;> rfl
  | raise e =>
    obtain ⟨hs, m, hm, rfl⟩ := h
    apply Getting.settleFailing
    exact View.wp_sendError (.inl hs) hs hm fun v' h' => .inl ⟨_, h'⟩
  | call o k => exact .inl (.serving h)

/-- One call of the session that serves the GET. -/
theorem Getting.Rel.step {g : GetRequest} {r : Request} {l : Session} {v : View} {o : Sys}
    {k : o.Ans → Session} (h : Getting.Rel g r l (.busy v)) (hn : Session.next l = some ⟨o, k⟩) :
    View.May (encode g.name) v o ∧
      ∀ a v', View.Gives (encode g.name) v o a v' → Getting.Next g r (k a) v' := by
  cases h with
  | serving hwp =>
    cases hn
    exact ⟨hwp.1.2, fun a v' hv' => Getting.settleServing (hwp.2 a v' hv')⟩
  | failing hwp =>
    cases hn
    exact ⟨hwp.1.2, fun a v' hv' => Getting.settleFailing (hwp.2 a v' hv')⟩

/-- A session that takes up a GET. -/
theorem Getting.dispatch {g : GetRequest} {r : Request} (ht : r.2.type = T_GET)
    (hg : parseGet r.2.payload = .ok g) :
    Getting.Next g r (Session.settleServing r (dispatch r.2)) View.fresh := by
  apply Getting.settleServing
  have hd : Retriever.dispatch r.2 = handleGet r.2.payload >>= fun _ => pure true := by
    simp only [Retriever.dispatch, ht, if_neg (show T_GET ≠ T_QUIT by decide),
      if_neg (show T_GET ≠ T_LIST by decide), if_true]
  rw [hd]
  exact Proc.wp_bind.mpr (handleGet_wp hg rfl)

section

variable [DecidableEq T]

/-- The invariant of a GET: the uploads keep theirs, and what the session of the GET has seen is
so. -/
structure SnapshotInv (watch : Bytes → Prop) (t : T) (r : Request) (g : GetRequest) (w : World T)
    (phs : T → Local × Getting) : Prop where
  base : Inv watch w (Prod.fst ∘ phs)
  numbered : Numbered w (Prod.fst ∘ phs)
  others : ∀ t', t' ≠ t → (phs t').2 = .idle
  view : (∀ e ∈ w.log, e.Of t r → ¬ e.Interrupted) →
    (∃ v, (phs t).2 = .busy v ∧ (phs t).1.request = some r ∧ v.Holds (encode g.name) w.os w.log t r) ∨
    ∃ v, (phs t).2 = .ended v ∧ (phs t).1.request ≠ some r ∧ r.1 < (phs t).1.bound ∧
      v.sent = replied t r w.log ∧ ∀ c, v.known = some c →
        ∃ e ∈ w.log, e.Of t r ∧ e.os.content (encode g.name) = some c

/-- A request that is over does not come back. -/
theorem Local.Move.request_ne {l l' : Local} {o : Sys} {a : o.Ans} {r : Request}
    (hm : l.Move o a l') (hb : r.1 < l.bound) (hne : l.request ≠ some r) :
    l'.request ≠ some r := by
  cases hm with
  | stay a hq => exact hne
  | finish a hq => simp [Local.request]
  | begin a hq hr =>
    rintro rfl
    exact absurd (hr r rfl).1 (Nat.ne_of_lt hb)
  | beginPut a hq hu =>
    rintro ⟨⟩
    exact absurd hb (Nat.lt_irrefl _)
  | upload hm => exact hne
  | uploaded hm => simp [Local.request]
  | uploadFailed hm => exact hne

/-- **One step among a GET and everything else.** -/
theorem SnapshotInv.step {watch : Bytes → Prop} (hw : ∀ p, IsPartialName p → watch p) {t : T}
    {r : Request} {g : GetRequest} (hN : watch (encode g.name)) {w w' : World T}
    {phs : T → Local × Getting} {t' : T} {l : Session} {o : Sys} {k : o.Ans → Session} {a : o.Ans}
    (h : SnapshotInv watch t r g w phs) (hfree : encode g.name ∉ w.inFlight)
    (hrel : Local.Rel l (phs t').1 ∧ Getting.Rel g r l (phs t').2)
    (hn : Session.next l = some ⟨o, k⟩) (hx : World.Exec t' l w o a w') :
    ∃ ph', (Local.Rel (k a) ph'.1 ∧ Getting.Rel g r (k a) ph'.2) ∧
      SnapshotInv watch t r g w' (Function.update phs t' ph') := by
  obtain ⟨l', hmove, hrel'⟩ := Local.tracks l (phs t').1 o k hrel.1 hn a
  have hbase := Inv.step hw w _ t' l o a w' l' h.base hrel.1 hx hmove
  have hnum := h.numbered.step hrel.1 hx hmove
  -- the first components after the step, whatever the second becomes
  have hfst : ∀ q, Prod.fst ∘ Function.update phs t' (l', q) =
      Function.update (Prod.fst ∘ phs) t' l' := fun q => Function.comp_update _ _ _ _
  have hnet' : (∀ e ∈ w'.log, e.Of t r → ¬ e.Interrupted) →
      ∀ e ∈ w.log, e.Of t r → ¬ e.Interrupted := by
    intro hnet e he
    exact hnet e (by rw [hx.2]; exact List.mem_cons_of_mem _ he)
  by_cases ht : t' = t
  · subst ht
    have hmk : ∀ q, ((∀ e ∈ w'.log, e.Of t' r → ¬ e.Interrupted) →
        (∃ v, q = .busy v ∧ l'.request = some r ∧
          v.Holds (encode g.name) w'.os w'.log t' r) ∨
        ∃ v, q = .ended v ∧ l'.request ≠ some r ∧ r.1 < l'.bound ∧
          v.sent = replied t' r w'.log ∧ ∀ c, v.known = some c →
            ∃ e ∈ w'.log, e.Of t' r ∧ e.os.content (encode g.name) = some c) →
        SnapshotInv watch t' r g w' (Function.update phs t' (l', q)) := by
      intro q hq
      refine ⟨by rw [hfst]; exact hbase, by rw [hfst]; exact hnum, ?_, ?_⟩
      · intro t₁ ht₁
        rw [Function.update_of_ne ht₁]
        exact h.others t₁ ht₁
      · rw [Function.update_self]
        exact hq
    by_cases hnet : ∀ e ∈ w'.log, e.Of t' r → ¬ e.Interrupted
    · rcases h.view (hnet' hnet) with ⟨v, hq, hreq, hv⟩ | ⟨v, hq, hreq, hb, hs, hm⟩
      · have hget := hrel.2
        rw [hq] at hget
        obtain ⟨hmay, hnext⟩ := hget.step hn
        have hlog := hx.2
        rw [hget.request] at hlog
        obtain ⟨v', hgives, hv'⟩ := hv.step hmay hx.1
          (hnet _ (by rw [hlog]; exact List.mem_cons_self) ⟨rfl, rfl⟩)
        rw [← hlog] at hv'
        rcases hnext a v' hgives with hbusy | ⟨hserved, hnone⟩
        · refine ⟨(l', .busy v'), ⟨hrel', hbusy⟩, hmk _ fun _ => .inl ⟨v', rfl, ?_, hv'⟩⟩
          rw [← hrel'.request]
          exact hbusy.request
        · refine ⟨(l', .ended v'), ⟨hrel', .ended hserved⟩, hmk _ fun _ => .inr ⟨v', rfl, ?_, ?_,
            hv'.sent, fun c hc => (hv'.known c hc).2.2⟩⟩
          · rw [← hrel'.request, hnone]
            simp
          · exact lt_of_lt_of_le (h.numbered.request_lt hreq) hmove.bound_le
      · have hget := hrel.2
        rw [hq] at hget
        cases hget with
        | ended hserved =>
          have hother : ¬ (⟨t', l.request, o, a, w'.os⟩ : Event T).Of t' r := by
            intro hof
            exact hreq (hrel.1.request.symm.trans hof.2)
          refine ⟨(l', .ended v), ⟨hrel', .ended hserved⟩, hmk _ fun _ => .inr ⟨v, rfl,
            hmove.request_ne hb hreq, lt_of_lt_of_le hb hmove.bound_le, ?_, fun c hc => ?_⟩⟩
          · rw [hx.2, replied_other hother, hs]
          · obtain ⟨e, he, h'⟩ := hm c hc
            rw [hx.2]
            exact ⟨e, List.mem_cons_of_mem _ he, h'⟩
    · -- once the connection has failed nothing more is said
      exact ⟨(l', .idle), ⟨hrel', .idle _⟩, hmk _ fun h' => absurd h' hnet⟩
  · refine ⟨(l', (phs t').2), ⟨hrel', ?_⟩, ?_⟩
    · rw [h.others t' ht]
      exact .idle _
    · refine ⟨by rw [hfst]; exact hbase, by rw [hfst]; exact hnum, ?_, ?_⟩
      · intro t₁ ht₁
        by_cases h₁ : t₁ = t'
        · subst h₁
          rw [Function.update_self]
          exact h.others t₁ ht₁
        · rw [Function.update_of_ne h₁]
          exact h.others t₁ ht₁
      · intro hnet
        rw [Function.update_of_ne (Ne.symm ht), hx.2]
        have hother : ¬ (⟨t', l.request, o, a, w'.os⟩ : Event T).Of t r := fun hof => ht hof.1
        rcases h.view (hnet' hnet) with ⟨v, hq, hreq, hv⟩ | ⟨v, hq, hreq, hb, hs, hm⟩
        · refine .inl ⟨v, hq, hreq, hv.frame hother fun i hi => ?_⟩
          exact h.base.steady hw hN hfree hx hmove hi
        · refine .inr ⟨v, hq, hreq, hb, by rw [replied_other hother, hs], fun c hc => ?_⟩
          obtain ⟨e, he, h'⟩ := hm c hc
          exact ⟨e, List.mem_cons_of_mem _ he, h'⟩

/-! ## Whole runs -/

/-- The step from `s₀` to `s₁` is the one with which session `t` takes up request `r`. -/
def Begins (s₀ s₁ : Server T) (t : T) (r : Request) : Prop :=
  Server.Step s₀ s₁ ∧ (s₀.threads t).request = none ∧ (s₁.threads t).request = some r

/-- A request is taken up when its frame has been read. -/
theorem Session.next_begins {l : Session} {o : Sys} {k : o.Ans → Session} {a : o.Ans} {r : Request}
    (hn : l.next = some ⟨o, k⟩) (h0 : l.request = none) (h1 : (k a).request = some r) :
    k a = Session.settleServing r (Retriever.dispatch r.2) := by
  have hfail : ∀ p : Py Unit, (Session.settleFailing none p).request = none := by
    intro p
    cases p <;> rfl
  cases l with
  | greeting p =>
    cases p with
    | done | raise => cases hn
    | call o' k' =>
      cases hn
      change (Session.settleGreeting (k' a)).request = some r at h1
      cases hp : k' a with
      | done x =>
        rw [hp] at h1
        cases h1
      | raise e =>
        rw [hp] at h1
        exact absurd h1 (by simp [Session.settleGreeting, Session.fail, hfail])
      | call o₁ k₁ =>
        rw [hp] at h1
        cases h1
  | awaiting n p =>
    cases p with
    | done | raise => cases hn
    | call o' k' =>
      cases hn
      change (Session.settleAwaiting n (k' a)).request = some r at h1
      change Session.settleAwaiting n (k' a) = _
      cases hp : k' a with
      | done x =>
        rw [hp] at h1
        cases x with
        | none => cases h1
        | some f =>
          change (Session.settleServing (n, f) (Retriever.dispatch f)).request = some r at h1
          change Session.settleServing (n, f) (Retriever.dispatch f) = _
          have hr : r = (n, f) := by
            cases hd : Retriever.dispatch f with
            | done b =>
              rw [hd] at h1
              cases b <;> cases h1
            | raise e =>
              rw [hd] at h1
              change (Session.settleFailing (some (n, f)) (onError e)).request = some r at h1
              cases ho : onError e with
              | done | raise =>
                rw [ho] at h1
                cases h1
              | call o₁ k₁ =>
                rw [ho] at h1
                cases h1
                rfl
            | call o₁ k₁ =>
              rw [hd] at h1
              cases h1
              rfl
          rw [hr]
      | raise e =>
        rw [hp] at h1
        exact absurd h1 (by simp [Session.settleAwaiting, Session.fail, hfail])
      | call o₁ k₁ =>
        rw [hp] at h1
        cases h1
  | serving r' p => cases h0
  | failing q p =>
    cases p with
    | done | raise => cases hn
    | call o' k' =>
      cases hn
      have hq : q = none := h0
      subst hq
      exact absurd h1 (by simp [hfail])
  | closed => cases hn

theorem Local.Move.begins {b : Nat} {o : Sys} {a : o.Ans} {l : Local} {r : Request}
    (hm : (Local.plain b none).Move o a l) (hr : l.request = some r) : r.1 = b := by
  cases hm with
  | stay a hq => cases hr
  | finish a hq => cases hr
  | begin a hq hr' => exact (hr' r hr).1
  | beginPut a hq hu =>
    cases hr
    rfl

theorem replied_eq_nil {t : T} {r : Request} {log : List (Event T)} (h : ∀ e ∈ log, ¬ e.Of t r) :
    replied t r log = [] := by
  induction log with
  | nil => rfl
  | cons e log ih =>
    rw [replied_other (h e List.mem_cons_self)]
    exact ih fun e' he' => h e' (List.mem_cons_of_mem _ he')

/-- **A GET returns one content.** A session takes up a GET, and from then on the
name is not in `_in_flight`; the connection does not fail. If the server starts an
OK reply, then there is one byte string that was the content of the name at some moment during the
request such that what the server has sent is the front of the reply for it, and the whole reply
once the session is done with the request. Any number of other sessions may do anything in
between. -/
theorem get_snapshot {os : Os} {g : GetRequest}
    (h0 : ∀ k k' i, (IsPartialName k ∨ k = encode g.name) → (IsPartialName k' ∨ k' = encode g.name) →
      os.entry k = some (.file i) → os.entry k' = some (.file i) → k = k')
    {s₀ s₁ s₂ : Server T} {t : T} {r : Request} (h₀ : Server.Run (Server.start T os) s₀)
    (hb : Begins s₀ s₁ t r) (ht : r.2.type = T_GET) (hg : parseGet r.2.payload = .ok g)
    (h₂ : Server.RunIn (fun w => encode g.name ∉ w.inFlight) s₁ s₂)
    (hnet : ∀ e ∈ s₂.world.log, e.Of t r → ¬ e.Interrupted)
    (hok : MAGIC ++ [VERSION, T_OK] <+: replied t r s₂.world.log) :
    ∃ c start, (∃ e ∈ s₂.world.log, e.Of t r ∧ e.os.content (encode g.name) = some c) ∧
      start ≤ c.length ∧ replied t r s₂.world.log <+: getReply c start ∧
      ((s₂.threads t).request ≠ some r → replied t r s₂.world.log = getReply c start) := by
  have hw : ∀ p, IsPartialName p → IsPartialName p ∨ p = encode g.name := fun p hp => .inl hp
  obtain ⟨hstep, hbefore, hafter⟩ := hb
  -- up to the request
  have hkeep₀ : Pool.Keeps Local.Rel
      (fun w phs => Inv (fun k => IsPartialName k ∨ k = encode g.name) w phs ∧ Numbered w phs) s₀ := by
    refine Pool.inv_run Local.tracks ?_ h₀ ⟨_, Local.shows_start os, Inv.start h0,
      ⟨by simp [Server.start], by rintro t b r ⟨⟩⟩⟩
    rintro w phs t l o a w' ph' ⟨hi, hn⟩ hrel hx hm
    exact ⟨Inv.step hw w phs t l o a w' ph' hi hrel hx hm, hn.step hrel hx hm⟩
  obtain ⟨phs, hshow, hi, hnum⟩ := hkeep₀
  -- the step that takes it up
  have hkeep₁ : Pool.Keeps (fun l ph => Local.Rel l ph.1 ∧ Getting.Rel g r l ph.2)
      (SnapshotInv (fun k => IsPartialName k ∨ k = encode g.name) t r g) s₁ := by
    cases hstep with
    | @mk t' o k a w hn hx =>
      obtain rfl : t' = t := by
        by_contra hne
        change (Function.update s₀.threads t' (k a) t).request = some r at hafter
        rw [Function.update_of_ne (Ne.symm hne), hbefore] at hafter
        cases hafter
      change (Function.update s₀.threads t' (k a) t').request = some r at hafter
      rw [Function.update_self] at hafter
      obtain ⟨l', hmove, hrel'⟩ := Local.tracks _ _ o k (hshow t') hn a
      have hplain : ∃ b, phs t' = .plain b none := by
        have hreq := (hshow t').request.symm.trans hbefore
        cases hl : phs t' with
        | plain b q =>
          rw [hl] at hreq
          cases hreq
          exact ⟨b, rfl⟩
        | put r' u ph =>
          rw [hl] at hreq
          cases hreq
      obtain ⟨b, hl⟩ := hplain
      have hrb : r.1 = b := by
        rw [hl] at hmove
        exact hmove.begins (hrel'.request.symm.trans hafter)
      have hnew : ∀ e ∈ w.log, ¬ e.Of t' r := by
        intro e he hof
        rw [hx.2] at he
        rcases List.mem_cons.mp he with rfl | he
        · cases hbefore.symm.trans hof.2
        · have := hnum.bounded e he r hof.2
          rw [hof.1, hl] at this
          exact absurd this (by simp [Local.bound, hrb])
      have hbusy : Getting.Rel g r (k a) (.busy View.fresh) := by
        have hk := Session.next_begins hn hbefore hafter
        rw [hk] at hafter ⊢
        rcases Getting.dispatch ht hg with h | ⟨-, hnone⟩
        · exact h
        · rw [hnone] at hafter
          cases hafter
      refine ⟨fun t₁ => (Function.update phs t' l' t₁, if t₁ = t' then .busy .fresh else .idle),
        ?_, ?_⟩
      · intro t₁
        by_cases h₁ : t₁ = t'
        · subst h₁
          simpa using ⟨hrel', hbusy⟩
        · simpa [h₁] using ⟨hshow t₁, Getting.Rel.idle _⟩
      · refine ⟨Inv.step hw _ phs t' _ o a w l' hi (hshow t') hx hmove,
          hnum.step (hshow t') hx hmove, fun t₁ h₁ => if_neg h₁, fun _ => .inl ⟨.fresh, ?_, ?_, ?_⟩⟩
        · exact if_pos rfl
        · simpa using hrel'.request.symm.trans hafter
        · exact ⟨(replied_eq_nil hnew).symm, fun _ => rfl, by rintro c ⟨⟩⟩
  -- while it is served
  obtain ⟨phs₂, hshow₂, hinv⟩ := Pool.sim_runIn
    (fun w phs t l o k a w' hi hfree hrel hn hx => hi.step hw (.inr rfl) hfree hrel hn hx) h₂ hkeep₁
  have hnil : replied t r s₂.world.log ≠ [] := by
    intro h
    rw [h] at hok
    simp [MAGIC] at hok
  rcases hinv.view hnet with ⟨v, hq, hreq, hv⟩ | ⟨v, hq, hreq, -, hs, hm⟩
  · have hget := (hshow₂ t).2
    rw [hq] at hget
    rcases hget.underway with hnone | ⟨c, hc, hoff, hpre⟩
    · exact absurd (hv.sent.symm.trans hnone) hnil
    · refine ⟨c, g.start c, (hv.known c hc).2.2, GetRequest.start_le hoff, hv.sent ▸ hpre, ?_⟩
      intro hne
      exact absurd hget.request hne
  · have hget := (hshow₂ t).2
    rw [hq] at hget
    rcases hget.served with ⟨reason, herr⟩ | ⟨c, hc, hoff, hall⟩
    · rw [hs] at herr
      exact absurd hok herr.not_ok
    · rw [hs] at hall
      exact ⟨c, g.start c, hm c hc, GetRequest.start_le hoff, by rw [hall], fun _ => hall⟩

end

/-! ## Two downloads -/

/-- The file of one byte that is uploaded as `a`. -/
def stored : Bytes := [7]

/-- A GET of a whole file. -/
def wholeGet (name : Bytes) : Frame := ⟨T_GET, getPayload 0 (List.replicate 8 0) name⟩

/-- One client uploads `a`, the other downloads a file. -/
def getInputs (name : Bytes) : Bool → Bytes
  | true => clientBytes T_PUT (putPayload 1 (sha256 stored) (ascii "a")) stored
  | false => clientBytes T_GET (wholeGet name).payload []

/-- The download has been read up to its last byte after `puts` steps of the upload. -/
def getComing (name : Bytes) (puts : Nat) : Server Bool × (Bool → Bytes) :=
  (Server.start Bool Os.empty).play (getInputs name)
    (List.replicate puts true ++ List.replicate 3 false)

def getBegun (name : Bytes) (puts : Nat) : Server Bool × (Bool → Bytes) :=
  (getComing name puts).1.play (getComing name puts).2 [false]

theorem getComing_run (name : Bytes) (puts : Nat) :
    Server.Run (Server.start Bool Os.empty) (getComing name puts).1 :=
  Server.play_run _ _ _

theorem getBegun_begins {name : Bytes} {puts : Nat} {r : Request}
    (hn : ((getComing name puts).1.threads false).next.isSome = true)
    (h0 : ((getComing name puts).1.threads false).request = none)
    (h1 : ((getBegun name puts).1.threads false).request = some r) :
    Begins (getComing name puts).1 (getBegun name puts).1 false r :=
  ⟨Server.play_step _ hn, h0, h1⟩

theorem noFiles_empty (P : Bytes → Prop) : ∀ k k' i, P k → P k' →
    Os.empty.entry k = some (.file i) → Os.empty.entry k' = some (.file i) → k = k' := by
  intro k k' i _ _ hk
  simp [Os.entry, Os.empty, Store.lookup] at hk

/-- The upload has ended and `a` is sent. -/
def getWhole : Server Bool :=
  ((getBegun (ascii "a") 20).1.play (getBegun (ascii "a") 20).2 (List.replicate 10 false)).1

/-- What the run computes, checked in one go. -/
theorem getWhole_run :
    ((getComing (ascii "a") 20).1.threads false).next.isSome = true ∧
    ((getComing (ascii "a") 20).1.threads false).request = none ∧
    ((getBegun (ascii "a") 20).1.threads false).request = some (0, wholeGet (ascii "a")) ∧
    (getBegun (ascii "a") 20).1.playIn (fun w => decide (encode "a".toList ∉ w.inFlight))
      (getBegun (ascii "a") 20).2 (List.replicate 10 false) = true ∧
    (∀ e ∈ getWhole.world.log, e.Of false (0, wholeGet (ascii "a")) → ¬ e.Interrupted) ∧
    MAGIC ++ [VERSION, T_OK] <+: replied false (0, wholeGet (ascii "a")) getWhole.world.log := by
  decide +kernel

theorem getWhole_runIn : Server.RunIn (fun w => encode "a".toList ∉ w.inFlight)
    (getBegun (ascii "a") 20).1 getWhole := by
  have hplay := Server.play_runIn getWhole_run.2.2.2.1
  simp only [decide_eq_true_eq] at hplay
  exact hplay

/-- What `get_snapshot` says of that download. -/
theorem get_snapshot_getWhole :
    ∃ c start, (∃ e ∈ getWhole.world.log, e.Of false (0, wholeGet (ascii "a")) ∧
        e.os.content (ascii "a") = some c) ∧ start ≤ c.length ∧
      replied false (0, wholeGet (ascii "a")) getWhole.world.log <+: getReply c start ∧
      ((getWhole.threads false).request ≠ some (0, wholeGet (ascii "a")) →
        replied false (0, wholeGet (ascii "a")) getWhole.world.log = getReply c start) :=
  get_snapshot (g := ⟨0, List.replicate 8 0, "a".toList⟩) (noFiles_empty _) (getComing_run _ _)
    (getBegun_begins getWhole_run.1 getWhole_run.2.1 getWhole_run.2.2.1) rfl (by decide +kernel)
    getWhole_runIn getWhole_run.2.2.2.2.1 getWhole_run.2.2.2.2.2

/-- `.a.ca358758f6d27e6c.part`: the partial of the upload, and a legal file name. -/
def partialOfStored : Text :=
  ".a.ca358758f6d27e6c.part".toList

/-- Header and metadata for the partial are out when the upload links it and removes it, and then
the download opens it. -/
def getTorn : Server Bool :=
  ((getBegun (encode partialOfStored) 16).1.play (getBegun (encode partialOfStored) 16).2
    (List.replicate 7 false ++ List.replicate 2 true ++ List.replicate 2 false)).1

theorem getTorn_run :
    ((getComing (encode partialOfStored) 16).1.threads false).next.isSome = true ∧
    ((getComing (encode partialOfStored) 16).1.threads false).request = none ∧
    ((getBegun (encode partialOfStored) 16).1.threads false).request =
      some (0, wholeGet (encode partialOfStored)) ∧
    (∀ e ∈ getTorn.world.log, e.Of false (0, wholeGet (encode partialOfStored)) →
      ¬ e.Interrupted) ∧
    MAGIC ++ [VERSION, T_OK] <+:
      replied false (0, wholeGet (encode partialOfStored)) getTorn.world.log ∧
    (replied false (0, wholeGet (encode partialOfStored)) getTorn.world.log).length = 100 ∧
    getTorn.world.log.all
      (fun e => (e.os.content (encode partialOfStored)).all (·.length ≤ 1)) = true := by
  decide +kernel

/-- **Without the condition an OK reply can be torn.** A client downloads the partial of an upload
that is just being published: the server fails after the metadata and sends an ERROR frame where
the body should be. -/
theorem get_not_snapshot :
    ¬ ∀ (os : Os) (g : GetRequest) (s₀ s₁ s₂ : Server Bool) (t : Bool) (r : Request),
      (∀ k k' i, (IsPartialName k ∨ k = encode g.name) → (IsPartialName k' ∨ k' = encode g.name) →
        os.entry k = some (.file i) → os.entry k' = some (.file i) → k = k') →
      Server.Run (Server.start Bool os) s₀ → Begins s₀ s₁ t r → r.2.type = T_GET →
      parseGet r.2.payload = .ok g → Server.Run s₁ s₂ →
      (∀ e ∈ s₂.world.log, e.Of t r → ¬ e.Interrupted) →
      MAGIC ++ [VERSION, T_OK] <+: replied t r s₂.world.log →
      ∃ c start, (∃ e ∈ s₂.world.log, e.Of t r ∧ e.os.content (encode g.name) = some c) ∧
        start ≤ c.length ∧ replied t r s₂.world.log <+: getReply c start := by
  intro h
  obtain ⟨hnext, hbefore, hafter, hnet, hok, hlong, hall⟩ := getTorn_run
  obtain ⟨c, start, ⟨e, he, -, hc⟩, -, hpre⟩ :=
    h Os.empty ⟨0, List.replicate 8 0, partialOfStored⟩ _ _ getTorn false _ (noFiles_empty _)
      (getComing_run _ _) (getBegun_begins hnext hbefore hafter) rfl (by decide +kernel)
      (Server.play_run _ _ _) hnet hok
  -- the partial never holds more than the stored byte
  have hone : c.length ≤ 1 := by
    have := List.all_eq_true.mp hall e he
    simpa [hc] using this
  have hshort : (getReply c start).length ≤ 63 := by
    rw [getReply, frameBytes_length, List.length_append, getMeta_length, List.length_drop]
    simp only [GET_META, HEADER_SIZE, HASH_SIZE]
    omega
  have := hpre.length_le
  omega

end Retriever
