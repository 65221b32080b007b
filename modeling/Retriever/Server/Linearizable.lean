/-
# Retriever.Server.Linearizable — the server is a linearizable write-once store

The sessions of the server work on the directory at the same time, one system call after the other.
To the clients it is as if each request had been served at one moment between its frame and its
reply, on a store to which a name can be added once: a PUT that is confirmed adds its file there, a
PUT that is told that the name is taken finds it taken, a GET returns what stands under the name, or
says that there is no file, and a LIST returns the names. The order of these moments agrees with the
order in which the clients got their replies (`server_linearizable`).

This is about ordinary names. Under the name of a partial nothing is stored for good.
-/
import Retriever.Lib.Linear
import Retriever.Server.Listing
import Retriever.Server.Naming
import Retriever.Server.Replies
import Retriever.Server.Shelf

namespace Retriever

open Linear (IsPoint OnePoint Points Linearization)

variable {T : Type}

/-! ## The store -/

/-- What a request learns from the store. -/
inductive Shelf.Answer where
  | stored (c : Bytes)
  | taken
  | found (c : Bytes)
  | absent
  | listed (ns : List Bytes)

/-- The store serves one request. -/
inductive Shelf.Does : Shelf → T × Request → Shelf.Answer → Shelf → Prop
  | store {σ σ' : Shelf} {x : T × Request} {u : PutRequest} {c : Bytes} :
      uploadOf x.2 = some u → σ.Adds u c σ' → Does σ x (.stored c) σ'
  | refuse {σ : Shelf} {x : T × Request} {u : PutRequest} (h : Ordinary u.path) :
      uploadOf x.2 = some u → σ ⟨u.path, h⟩ ≠ none → Does σ x .taken σ
  | fetch {σ : Shelf} {x : T × Request} {g : GetRequest} {c : Bytes} (h : Ordinary (encode g.name)) :
      fetchOf x.2 = some g → σ ⟨encode g.name, h⟩ = some (.file c) → Does σ x (.found c) σ
  | miss {σ : Shelf} {x : T × Request} {g : GetRequest} (h : Ordinary (encode g.name)) :
      fetchOf x.2 = some g → (∀ c, σ ⟨encode g.name, h⟩ ≠ some (.file c)) → Does σ x .absent σ
  | list {σ : Shelf} {x : T × Request} {ns : List Bytes} : x.2.2.type = T_LIST →
      (∀ n : {n // Ordinary n}, n.1 ∈ ns ↔ σ n ≠ none) → Does σ x (.listed ns) σ

/-- The request an event belongs to, with its session. -/
def Event.call (e : Event T) : Option (T × Request) := e.request.map fun r => (e.sid, r)

/-- The event gives a request the answer of the store: the final OK of a PUT or the word that its
name is taken, the reply to a GET or a LIST. -/
def Event.Answers (e : Event T) : Prop :=
  ∃ r b, e.request = some r ∧ e.Sends b ∧
    ((∃ u, uploadOf r = some u ∧ Ordinary u.path ∧ (b = okFrame ∨ b = takenFrame)) ∨
      (∃ g, fetchOf r = some g ∧ Ordinary (encode g.name)) ∨ r.2.type = T_LIST)

/-- The request is told what the store has answered. -/
structure ToldAs [DecidableEq T] (s : Server T) (t : T) (r : Request) (a : Shelf.Answer) : Prop where
  put : ∀ u, uploadOf r = some u → ∀ e ∈ s.world.log, e.Of t r →
    (e.Sends okFrame → ∃ c, a = .stored c) ∧ (e.Sends takenFrame → a = .taken)
  get : ∀ g, fetchOf r = some g →
    (absentFrame <+: replied t r s.world.log → a = .absent) ∧
    (okFront <+: replied t r s.world.log → ∃ c, a = .found c ∧
      ((∀ e ∈ s.world.log, e.Of t r → ¬ e.Interrupted) →
        replied t r s.world.log <+: getReply c (g.start c) ∧
        ((s.threads t).request ≠ some r → replied t r s.world.log = getReply c (g.start c))))
  list : r.2.type = T_LIST → ∀ e ∈ s.world.log, e.Of t r → ∀ b, e.Sends b → okFront <+: b →
    ∃ ns, a = .listed ns ∧ b = frameBytes T_OK (joinNul ns)

/-! ## What an event does -/

theorem Event.call_eq {e : Event T} {t : T} {r : Request} : e.call = some (t, r) ↔ e.Of t r := by
  simp only [Event.call, Event.Of, Option.map_eq_some_iff, Prod.mk.injEq]
  constructor
  · rintro ⟨r', hr, ht, rfl⟩
    exact ⟨ht, hr⟩
  · rintro ⟨ht, hr⟩
    exact ⟨r, hr, ht, rfl⟩

/-- `FileExistsError` is about the new name. -/
theorem Os.entry_of_link_taken {os : Os} {p n : Bytes} (hn : Plain n)
    (h : (os.run (.link p n)).1 = .error .fileExists) : os.entry n ≠ none := by
  have hslot : os.slot (os.cwd ++ [n]) = os.entry n := os.slot_eq_entry n
  simp only [Os.run, Os.locate_plain os hn] at h
  split at h
  · next s d hs hd =>
    cases hd
    rw [hslot] at h
    split at h
    · next i hi hbound =>
      rw [hbound]
      exact Option.some_ne_none _
    · split at h <;> cases h
    · cases h
  · cases h

section Events

variable [DecidableEq T] {os : Os} {s : Server T} {later past : List (Event T)} {e : Event T}

/-- An operation is answered on the disk as the event before has left it. -/
theorem Server.Run.answers (hr : Server.Run (Server.start T os) s)
    (hlog : s.world.log = later ++ e :: past) :
    ∃ (w : World T) (fl : Finset Bytes), w.os = osBefore os past ∧ w.Answers e.op e.ans e.os fl := by
  obtain ⟨s₁, s₂, h₁, hrec, -, rfl⟩ := hr.event hlog
  obtain ⟨k, -, hx, -, -, hos⟩ := hrec.exec
  exact ⟨s₁.world, _, h₁.os_eq, hos ▸ hx.1⟩

/-- **An event leaves the shelf as it is, or it is the link of an upload to an ordinary name.** -/
theorem Server.Run.shelf_event (h : Shelved os) (hr : Server.Run (Server.start T os) s)
    (hlog : s.world.log = later ++ e :: past) :
    e.os.shelf = (osBefore os past).shelf ∨ ∃ r u c, e.request = some r ∧ uploadOf r = some u ∧
      e.Links u.partialPath u.path ∧ (osBefore os past).shelf.Adds u c e.os.shelf := by
  obtain ⟨s₁, s₂, h₁, hrec, -, rfl⟩ := hr.event hlog
  obtain ⟨phs, hshow, hinv⟩ := h₁.shelfInv h
  obtain ⟨l, hmove, -⟩ := hrec.moves hshow
  obtain ⟨k, -, hx, -, hreq, hos⟩ := hrec.exec
  rw [hos, ← h₁.os_eq]
  rcases hmove.effect hx.1 with ⟨hsame, -⟩ | ⟨r, u, ph, ph', hl, hm, -⟩
  · rw [hsame]
    exact .inl rfl
  · have hok := hinv.base.ok e.sid
    have hrel := (hshow e.sid).request
    rw [hl] at hok hrel
    rcases (hm.change hok hx.1).shelf hinv hl with hsame | ⟨rfl, rfl, c, hadds⟩
    · exact .inl hsame
    · refine .inr ⟨r, u, c, hreq.trans hrel, hok.1.uploadOf, ?_, hadds⟩
      obtain ⟨sid, request, op, ans, eos⟩ := e
      cases hm with
      | link => exact ⟨rfl, rfl⟩

/-- What stands on the shelf stays there. -/
theorem Server.Run.shelf_keeps (h : Shelved os) (hr : Server.Run (Server.start T os) s)
    {mid : List (Event T)} (hlog : s.world.log = later ++ (mid ++ past)) {n : {n // Ordinary n}}
    {x : Item} (hx : (osBefore os past).shelf n = some x) :
    (osBefore os (mid ++ past)).shelf n = some x := by
  induction mid generalizing later with
  | nil => exact hx
  | cons e mid ih =>
    have hbefore := ih (show s.world.log = (later ++ [e]) ++ (mid ++ past) by rw [hlog]; simp)
    have hevent : s.world.log = later ++ e :: (mid ++ past) := hlog
    change e.os.shelf n = some x
    rcases hr.shelf_event h hevent with hsame | ⟨r, u, c, -, -, -, hu, hfree, -, hadds⟩
    · rw [hsame, hbefore]
    · rw [hadds, Function.update_of_ne, hbefore]
      rintro rfl
      rw [hfree] at hbefore
      cases hbefore

/-- An answer that says that a name is taken is right, and changes nothing. -/
theorem Server.Run.taken_bound (hr : Server.Run (Server.start T os) s)
    (hlog : s.world.log = later ++ e :: past) {n : Bytes} (hn : Plain n)
    (hshow : Call.ShowsTaken n ⟨e.op, e.ans⟩) :
    (osBefore os past).entry n ≠ none ∧ e.os = osBefore os past := by
  obtain ⟨w, fl, hw, hx⟩ := hr.answers hlog
  rw [← hw]
  obtain ⟨sid, request, op, ans, eos⟩ := e
  unfold Call.ShowsTaken at hshow
  split at hshow
  · next p st heq =>
    cases heq
    subst hshow
    refine ⟨fun hnone => ?_, hx.2.1⟩
    have hstat := hx.1
    rw [Os.run_stat_plain hn, hnone] at hstat
    cases hstat
  · next p d heq =>
    cases heq
    subst hshow
    exact ⟨Os.entry_of_link_taken hn hx.1, hx.2.1.trans (Os.run_refused (.link _ _ _) hx.1)⟩
  · exact hshow.elim

end Events

/-! ## Where a request takes effect -/

/-- The moment at which a request takes effect, and with which answer: the link of an upload, the
first call that shows that its name is taken, the first look of a GET or of a LIST. -/
inductive TakesEffect [DecidableEq T] (past : List (Event T)) (e : Event T) : Shelf.Answer → Prop
  | stored {r : Request} {u : PutRequest} {c : Bytes} : e.request = some r → uploadOf r = some u →
      Ordinary u.path → e.Links u.partialPath u.path → e.os.item u.path = some (.file c) →
      TakesEffect past e (.stored c)
  | taken {r : Request} {u : PutRequest} : e.request = some r → uploadOf r = some u →
      Ordinary u.path → Call.ShowsTaken u.path ⟨e.op, e.ans⟩ →
      (∀ c ∈ transcript e.sid r past, ¬ c.ShowsTaken u.path) →
      Unpublished (transcript e.sid r past) → TakesEffect past e .taken
  | found {r : Request} {g : GetRequest} {c : Bytes} : e.request = some r → fetchOf r = some g →
      Ordinary (encode g.name) → transcript e.sid r past = [] →
      e.op = .fs (.stat (encode g.name)) → e.os.item (encode g.name) = some (.file c) →
      TakesEffect past e (.found c)
  | absent {r : Request} {g : GetRequest} : e.request = some r → fetchOf r = some g →
      Ordinary (encode g.name) → transcript e.sid r past = [] →
      e.op = .fs (.stat (encode g.name)) → (∀ c, e.os.item (encode g.name) ≠ some (.file c)) →
      TakesEffect past e .absent
  | listed {r : Request} : e.request = some r → r.2.type = T_LIST → transcript e.sid r past = [] →
      e.op = .fs (.listdir [Os.DOT]) → TakesEffect past e (.listed (e.os.entries e.os.cwd))

theorem fetchOf_of_uploadOf {r : Request} {u : PutRequest} (h : uploadOf r = some u) :
    fetchOf r = none ∧ r.2.type ≠ T_LIST := by
  have ht : r.2.type = T_PUT := by
    unfold uploadOf at h
    split at h
    · assumption
    · cases h
  rw [fetchOf, ht]
  exact ⟨if_neg (by decide), by decide⟩

section Kinds

variable [DecidableEq T] {past : List (Event T)} {e : Event T} {a : Shelf.Answer} {r : Request}

theorem TakesEffect.of_put (h : TakesEffect past e a) (hreq : e.request = some r) {u : PutRequest}
    (hu : uploadOf r = some u) : Ordinary u.path ∧
      ((∃ c, a = .stored c ∧ e.Links u.partialPath u.path ∧ e.os.item u.path = some (.file c)) ∨
        a = .taken ∧ Call.ShowsTaken u.path ⟨e.op, e.ans⟩ ∧
          (∀ c ∈ transcript e.sid r past, ¬ c.ShowsTaken u.path) ∧
          Unpublished (transcript e.sid r past)) := by
  obtain ⟨hget, hlist⟩ := fetchOf_of_uploadOf hu
  cases h with
  | @stored r' u' c hr' hu' hn hlinks hitem =>
    obtain rfl : r' = r := Option.some.inj (hr'.symm.trans hreq)
    obtain rfl : u' = u := Option.some.inj (hu'.symm.trans hu)
    exact ⟨hn, .inl ⟨c, rfl, hlinks, hitem⟩⟩
  | @taken r' u' hr' hu' hn hshow hfirst hun =>
    obtain rfl : r' = r := Option.some.inj (hr'.symm.trans hreq)
    obtain rfl : u' = u := Option.some.inj (hu'.symm.trans hu)
    exact ⟨hn, .inr ⟨rfl, hshow, hfirst, hun⟩⟩
  | @found r' g c hr' hg | @absent r' g hr' hg =>
    obtain rfl : r' = r := Option.some.inj (hr'.symm.trans hreq)
    rw [hget] at hg
    cases hg
  | @listed r' hr' ht =>
    obtain rfl : r' = r := Option.some.inj (hr'.symm.trans hreq)
    exact absurd ht hlist

/-- A GET and a LIST take effect with their first call. -/
theorem TakesEffect.first (h : TakesEffect past e a) (hreq : e.request = some r)
    (hu : uploadOf r = none) : transcript e.sid r past = [] := by
  cases h with
  | @stored r' u c hr' hu' | @taken r' u hr' hu' =>
    obtain rfl : r' = r := Option.some.inj (hr'.symm.trans hreq)
    rw [hu] at hu'
    cases hu'
  | @found r' g c hr' _ _ hfirst | @absent r' g hr' _ _ hfirst | @listed r' hr' _ hfirst =>
    obtain rfl : r' = r := Option.some.inj (hr'.symm.trans hreq)
    exact hfirst

theorem TakesEffect.of_get (h : TakesEffect past e a) (hreq : e.request = some r) {g : GetRequest}
    (hg : fetchOf r = some g) : Ordinary (encode g.name) ∧ e.op = .fs (.stat (encode g.name)) ∧
      ((∃ c, a = .found c ∧ e.os.item (encode g.name) = some (.file c)) ∨
        a = .absent ∧ ∀ c, e.os.item (encode g.name) ≠ some (.file c)) := by
  cases h with
  | @stored r' u c hr' hu | @taken r' u hr' hu =>
    obtain rfl : r' = r := Option.some.inj (hr'.symm.trans hreq)
    rw [(fetchOf_of_uploadOf hu).1] at hg
    cases hg
  | @found r' g' c hr' hg' hn _ hop hitem =>
    obtain rfl : r' = r := Option.some.inj (hr'.symm.trans hreq)
    obtain rfl : g' = g := Option.some.inj (hg'.symm.trans hg)
    exact ⟨hn, hop, .inl ⟨c, rfl, hitem⟩⟩
  | @absent r' g' hr' hg' hn _ hop hitem =>
    obtain rfl : r' = r := Option.some.inj (hr'.symm.trans hreq)
    obtain rfl : g' = g := Option.some.inj (hg'.symm.trans hg)
    exact ⟨hn, hop, .inr ⟨rfl, hitem⟩⟩
  | @listed r' hr' ht =>
    obtain rfl : r' = r := Option.some.inj (hr'.symm.trans hreq)
    rw [(fetchOf_eq_some.mp hg).1] at ht
    exact absurd ht (by decide)

theorem TakesEffect.of_list (h : TakesEffect past e a) (hreq : e.request = some r)
    (ht : r.2.type = T_LIST) :
    e.op = .fs (.listdir [Os.DOT]) ∧ a = .listed (e.os.entries e.os.cwd) := by
  cases h with
  | @stored r' u c hr' hu | @taken r' u hr' hu =>
    obtain rfl : r' = r := Option.some.inj (hr'.symm.trans hreq)
    exact absurd ht (fetchOf_of_uploadOf hu).2
  | @found r' g c hr' hg | @absent r' g hr' hg =>
    obtain rfl : r' = r := Option.some.inj (hr'.symm.trans hreq)
    rw [(fetchOf_eq_some.mp hg).1] at ht
    exact absurd ht (by decide)
  | listed _ _ _ hop => exact ⟨hop, rfl⟩

end Kinds

theorem before_shelf (os : Os) (past : List (Event T)) :
    Linear.before (fun e => e.os.shelf) os.shelf past = (osBefore os past).shelf := by
  cases past <;> rfl

section Effects

variable [DecidableEq T] {os : Os} {s : Server T} {later past : List (Event T)} {e : Event T}

/-- A call that looks leaves the disk as the event before has left it. -/
theorem Server.Run.os_of_looks (hr : Server.Run (Server.start T os) s)
    (hlog : s.world.log = later ++ e :: past) {o : FsOp} (ho : o.Looks) (hop : e.op = .fs o) :
    e.os = osBefore os past := by
  obtain ⟨w, fl, hw, hx⟩ := hr.answers hlog
  obtain ⟨sid, request, op, ans, eos⟩ := e
  change op = .fs o at hop
  subst hop
  rw [← hw]
  exact hx.2.1.trans (Os.run_looks ho)

/-- **At that moment the store answers the request so.** -/
theorem TakesEffect.does (h : Shelved os) (hr : Server.Run (Server.start T os) s)
    (hlog : s.world.log = later ++ e :: past) {r : Request} {a : Shelf.Answer}
    (hreq : e.request = some r) (ha : TakesEffect past e a) :
    Shelf.Does (osBefore os past).shelf (e.sid, r) a e.os.shelf := by
  cases ha with
  | @stored r' u c hr' hu hn hlinks hitem =>
    obtain rfl : r' = r := Option.some.inj (hr'.symm.trans hreq)
    rcases hr.shelf_event h hlog with hsame | ⟨r₁, u₁, c₁, hr₁, hu₁, -, hadds⟩
    · -- the link has made a name that was free
      have hfree : (osBefore os past).shelf ⟨u.path, hn⟩ = none :=
        Os.item_eq_none.mpr ((hr.link_binds hlog hlinks).2.1)
      rw [← hsame, show e.os.shelf ⟨u.path, hn⟩ = _ from hitem] at hfree
      cases hfree
    · obtain rfl : r₁ = r' := Option.some.inj (hr₁.symm.trans hreq)
      obtain rfl : u₁ = u := Option.some.inj (hu₁.symm.trans hu)
      have hc : c₁ = c := by
        obtain ⟨hn', -, -, hupd⟩ := hadds
        have hnew : e.os.shelf ⟨u₁.path, hn⟩ = some (.file c₁) := by
          rw [hupd, Function.update_self]
        cases hnew.symm.trans hitem
        rfl
      rw [← hc]
      exact .store hu hadds
  | @taken r' u hr' hu hn hshow _ _ =>
    obtain rfl : r' = r := Option.some.inj (hr'.symm.trans hreq)
    obtain ⟨hbound, hos⟩ := hr.taken_bound hlog hn.plain hshow
    rw [hos]
    exact .refuse hn hu fun hnone => hbound (Os.item_eq_none.mp hnone)
  | @found r' g c hr' hg hn _ hop hitem =>
    obtain rfl : r' = r := Option.some.inj (hr'.symm.trans hreq)
    rw [← hr.os_of_looks hlog (.stat _) hop]
    exact .fetch hn hg hitem
  | @absent r' g hr' hg hn _ hop hitem =>
    obtain rfl : r' = r := Option.some.inj (hr'.symm.trans hreq)
    rw [← hr.os_of_looks hlog (.stat _) hop]
    exact .miss hn hg hitem
  | @listed r' hr' ht _ hop =>
    obtain rfl : r' = r := Option.some.inj (hr'.symm.trans hreq)
    rw [← hr.os_of_looks hlog (.listdir _) hop]
    refine .list ht fun n => ?_
    rw [Os.mem_entries]
    exact not_congr Os.item_eq_none.symm

/-- An upload that has taken effect has its name taken. -/
theorem TakesEffect.bound (hr : Server.Run (Server.start T os) s)
    (hlog : s.world.log = later ++ e :: past) {r : Request} {u : PutRequest} {a : Shelf.Answer}
    (hreq : e.request = some r) (hu : uploadOf r = some u) (ha : TakesEffect past e a) :
    e.os.item u.path ≠ none := by
  obtain ⟨hn, ⟨c, -, -, hitem⟩ | ⟨-, hshow, -, -⟩⟩ := ha.of_put hreq hu
  · rw [hitem]
    exact nofun
  · obtain ⟨hbound, hos⟩ := hr.taken_bound hlog hn.plain hshow
    rw [hos]
    exact fun hnone => hbound (Os.item_eq_none.mp hnone)

omit [DecidableEq T] in
/-- A link is a publication. -/
theorem Event.Links.published {p n : Bytes} (h : e.Links p n) :
    Call.Published ⟨e.op, e.ans⟩ := by
  obtain ⟨sid, request, op, ans, eos⟩ := e
  unfold Event.Links at h
  split at h
  · next heq =>
    cases heq
    trivial
  · exact h.elim

/-- **A request takes effect once.** -/
theorem TakesEffect.once (h : Shelved os) (hr : Server.Run (Server.start T os) s) :
    OnePoint Event.call TakesEffect s.world.log := by
  rintro later e past ⟨t, r⟩ a hlog ⟨hcall, ha⟩ mid e' past' a' rfl ⟨hcall', ha'⟩
  obtain ⟨rfl, hreq⟩ := Event.call_eq.mp hcall
  obtain ⟨hsid, hreq'⟩ := Event.call_eq.mp hcall'
  have hmem : (⟨e'.op, e'.ans⟩ : Call) ∈ transcript e.sid r (mid ++ e' :: past') := by
    rw [transcript_append, transcript_own ⟨hsid, hreq'⟩]
    exact List.mem_append_right _ List.mem_cons_self
  cases hu : uploadOf r with
  | none =>
    rw [ha.first hreq hu] at hmem
    cases hmem
  | some u =>
    obtain ⟨hn, ⟨c, -, hlinks, -⟩ | ⟨-, -, hfirst, hun⟩⟩ := ha.of_put hreq hu
    · -- the name was taken when the request took effect before, and the link finds it free
      have hlog' : s.world.log = (later ++ e :: mid) ++ e' :: past' := by
        rw [hlog]
        simp
      obtain ⟨x, hx⟩ := Option.ne_none_iff_exists'.mp (ha'.bound hr hlog' hreq' hu)
      have hkept : (osBefore os (mid ++ e' :: past')).shelf ⟨u.path, hn⟩ = some x :=
        hr.shelf_keeps h (show _ = (later ++ [e]) ++ (mid ++ e' :: past') by rw [hlog]; simp) hx
      rw [show (osBefore os (mid ++ e' :: past')).shelf ⟨u.path, hn⟩ = none from
        Os.item_eq_none.mpr ((hr.link_binds hlog hlinks).2.1)] at hkept
      cases hkept
    · obtain ⟨-, ⟨c, -, hlinks, -⟩ | ⟨-, hshow, -, -⟩⟩ := ha'.of_put hreq' hu
      · exact hun _ hmem hlinks.published
      · exact hfirst _ hmem hshow

theorem TakesEffect.points (h : Shelved os) (hr : Server.Run (Server.start T os) s) :
    Points Event.call TakesEffect Shelf.Does (fun e => e.os.shelf) os.shelf s.world.log where
  one := TakesEffect.once h hr
  acts := by
    rintro later e past ⟨t, r⟩ a hlog ⟨hcall, ha⟩
    obtain ⟨rfl, hreq⟩ := Event.call_eq.mp hcall
    rw [before_shelf]
    exact ha.does h hr hlog hreq
  idle := by
    intro later e past hlog hno
    rw [before_shelf]
    rcases hr.shelf_event h hlog with hsame | ⟨r, u, c, hreq, hu, hlinks, hn, -, -, hadds⟩
    · exact hsame
    · refine absurd ⟨Event.call_eq.mpr ⟨rfl, hreq⟩, .stored hreq hu hn hlinks ?_⟩
        (hno (e.sid, r) (.stored c))
      have hnew : e.os.shelf ⟨u.path, hn⟩ = some (.file c) := by rw [hadds, Function.update_self]
      exact hnew

end Effects

/-! ## Answers come after effects -/

section Answers

variable [DecidableEq T] {os : Os} {s : Server T} {later past : List (Event T)} {e : Event T}
  {t : T} {r : Request}

/-- An upload that is confirmed has taken effect. -/
theorem Server.Run.confirmed_effect (h : Shelved os) (hr : Server.Run (Server.start T os) s)
    (hlog : s.world.log = later ++ e :: past) (hreq : e.request = some r) {u : PutRequest}
    (hu : uploadOf r = some u) (hn : Ordinary u.path) (hsend : e.Sends okFrame) :
    ∃ mid e' past' c, past = mid ++ e' :: past' ∧ e'.Of e.sid r ∧
      TakesEffect past' e' (.stored c) := by
  obtain ⟨phs, -, -, hpub⟩ := hr.publicationInv h.apart.paired
  have htype := type_of_uploadOf hu
  obtain ⟨u', hu', e', he', hof, hlinks⟩ := hpub.confirmed later e past hlog r hreq htype hsend
  obtain rfl : u' = u := Option.some.inj (hu'.symm.trans hu)
  obtain ⟨-, -, -, -, c, hc, -⟩ := hpub.sound e'
    (by rw [hlog]; exact List.mem_append_right _ (List.mem_cons_of_mem _ he')) _ _ hlinks
  obtain ⟨mid, past', rfl⟩ := List.append_of_mem he'
  exact ⟨mid, e', past', c, rfl, hof, .stored hof.2 hu hn hlinks ((Os.item_content hn).mpr hc)⟩

/-- An upload that is told that its name is taken has seen that. -/
theorem Server.Run.taken_effect (hr : Server.Run (Server.start T os) s)
    (hlog : s.world.log = later ++ e :: past) (hreq : e.request = some r) {u : PutRequest}
    (hu : uploadOf r = some u) (hn : Ordinary u.path) (hsend : e.Sends takenFrame) :
    ∃ mid e' past', past = mid ++ e' :: past' ∧ e'.Of e.sid r ∧ TakesEffect past' e' .taken := by
  obtain ⟨hseen, hun⟩ := (hr.asserts put_asserts).calls later e past hlog r hreq u hu hsend
  obtain ⟨mid, e', past', rfl, hof, hshow, hfirst⟩ := exists_first hseen
  refine ⟨mid, e', past', rfl, hof, .taken hof.2 hu hn hshow ?_ ?_⟩
  · rwa [hof.1]
  · rw [hof.1]
    intro c hc
    rw [transcript_append, transcript_own hof] at hun
    exact hun c (List.mem_append_right _ (List.mem_cons_of_mem _ hc))

/-- The first event of a request. -/
theorem exists_first_event (past : List (Event T)) (hof : e.Of t r) :
    ∃ mid e' past', e :: past = mid ++ e' :: past' ∧ e'.Of t r ∧ transcript t r past' = [] := by
  have hmem : (⟨e.op, e.ans⟩ : Call) ∈ transcript t r (e :: past) := by
    rw [transcript_own hof]
    exact List.mem_cons_self
  obtain ⟨mid, e', past', hsplit, hof', -, hnone⟩ :=
    exists_first (Q := fun _ => True) ⟨_, hmem, trivial⟩
  exact ⟨mid, e', past', hsplit, hof', List.eq_nil_iff_forall_not_mem.mpr fun c hc =>
    hnone c hc trivial⟩

/-- A GET takes effect with its first call. -/
theorem Server.Run.get_effect (hr : Server.Run (Server.start T os) s)
    (hlog : s.world.log = later ++ e :: past) (hreq : e.request = some r) {g : GetRequest}
    (hg : fetchOf r = some g) (hn : Ordinary (encode g.name))
    (hfirst : transcript e.sid r past = []) : ∃ a, TakesEffect past e a := by
  have hop : e.op = .fs (.stat (encode g.name)) :=
    ((hr.asserts get_asserts).calls later e past hlog r hreq g hg).first hfirst
  by_cases hitem : ∃ c, e.os.item (encode g.name) = some (.file c)
  · obtain ⟨c, hc⟩ := hitem
    exact ⟨_, .found hreq hg hn hfirst hop hc⟩
  · exact ⟨_, .absent hreq hg hn hfirst hop fun c hc => hitem ⟨c, hc⟩⟩

/-- **A request that has been answered has taken effect.** -/
theorem Event.Answers.effect (h : Shelved os) (hr : Server.Run (Server.start T os) s)
    (hlog : s.world.log = later ++ e :: past) {i : T × Request} (hcall : e.call = some i)
    (ha : e.Answers) :
    ∃ mid e' past' a, e :: past = mid ++ e' :: past' ∧ IsPoint Event.call TakesEffect past' e' i a := by
  obtain ⟨t, r⟩ := i
  obtain ⟨rfl, hreq⟩ := Event.call_eq.mp hcall
  obtain ⟨r', b, hr', hsend, hkind⟩ := ha
  obtain rfl : r' = r := Option.some.inj (hr'.symm.trans hreq)
  rcases hkind with ⟨u, hu, hn, rfl | rfl⟩ | hread
  · obtain ⟨mid, e', past', c, rfl, hof, heff⟩ := hr.confirmed_effect h hlog hreq hu hn hsend
    exact ⟨e :: mid, e', past', _, rfl, Event.call_eq.mpr hof, heff⟩
  · obtain ⟨mid, e', past', rfl, hof, heff⟩ := hr.taken_effect hlog hreq hu hn hsend
    exact ⟨e :: mid, e', past', _, rfl, Event.call_eq.mpr hof, heff⟩
  · obtain ⟨mid, e', past', hsplit, hof, hfirst⟩ :=
      exists_first_event past (show e.Of e.sid r' from ⟨rfl, hreq⟩)
    have hlog' : s.world.log = (later ++ mid) ++ e' :: past' := by
      rw [hlog, hsplit, List.append_assoc]
    rw [← hof.1] at hfirst
    rcases hread with ⟨g, hg, hn⟩ | ht
    · obtain ⟨a, heff⟩ := hr.get_effect hlog' hof.2 hg hn hfirst
      exact ⟨mid, e', past', a, hsplit, Event.call_eq.mpr hof, heff⟩
    · have hop := ((hr.asserts list_asserts).calls _ e' past' hlog' r' hof.2 ht).first hfirst
      exact ⟨mid, e', past', _, hsplit, Event.call_eq.mpr hof, .listed hof.2 ht hfirst hop⟩

end Answers

/-! ## What the requests are told -/

section Told

variable [DecidableEq T] {os : Os} {s : Server T} {later past : List (Event T)} {e : Event T}
  {t : T} {r : Request} {a : Shelf.Answer}

theorem Call.Published.not_taken {c : Call} (h : c.Published) (n : Bytes) : ¬ c.ShowsTaken n := by
  unfold Call.Published at h
  split at h
  · exact id
  · exact h.elim

/-- An upload is told how it took effect. -/
theorem Server.Run.told_put (h : Shelved os) (hr : Server.Run (Server.start T os) s)
    (hlog : s.world.log = later ++ e :: past) (hof : e.Of t r) (ha : TakesEffect past e a)
    {u : PutRequest} (hu : uploadOf r = some u) {e' : Event T} (he' : e' ∈ s.world.log)
    (hof' : e'.Of t r) :
    (e'.Sends okFrame → ∃ c, a = .stored c) ∧ (e'.Sends takenFrame → a = .taken) := by
  obtain ⟨hn, hkind⟩ := ha.of_put hof.2 hu
  obtain ⟨later', past', hlog'⟩ := List.append_of_mem he'
  -- the request has taken effect once, so the two events are one
  have hsame : ∀ {mid e₁ past₁ a₁}, past' = mid ++ e₁ :: past₁ → e₁.Of e'.sid r →
      TakesEffect past₁ e₁ a₁ → TakesEffect past e a₁ := by
    rintro mid e₁ past₁ a₁ rfl hof₁ ha₁
    rw [hof'.1] at hof₁
    have hlog₁ : s.world.log = (later' ++ e' :: mid) ++ e₁ :: past₁ := by
      rw [hlog']
      simp
    have huniq := (TakesEffect.once h hr).unique (i := (t, r)) hlog ⟨Event.call_eq.mpr hof, ha⟩
      hlog₁ ⟨Event.call_eq.mpr hof₁, ha₁⟩
    rwa [huniq.1, huniq.2]
  refine ⟨fun hsend => ?_, fun hsend => ?_⟩
  · obtain ⟨mid, e₁, past₁, c, hsplit, hof₁, ha₁⟩ :=
      hr.confirmed_effect h hlog' hof'.2 hu hn hsend
    obtain ⟨-, ⟨c', -, hlinks, -⟩ | ⟨hno, -⟩⟩ := (hsame hsplit hof₁ ha₁).of_put hof.2 hu
    · rcases hkind with ⟨c, rfl, -, -⟩ | ⟨-, hshow, -, -⟩
      · exact ⟨c, rfl⟩
      · exact absurd hshow (hlinks.published.not_taken _)
    · cases hno
  · obtain ⟨mid, e₁, past₁, hsplit, hof₁, ha₁⟩ := hr.taken_effect hlog' hof'.2 hu hn hsend
    obtain ⟨-, ⟨c', hno, -⟩ | ⟨-, hshow, -⟩⟩ := (hsame hsplit hof₁ ha₁).of_put hof.2 hu
    · cases hno
    · rcases hkind with ⟨c, -, hlinks, -⟩ | ⟨rfl, -⟩
      · exact absurd hshow (hlinks.published.not_taken _)
      · rfl

/-- What a request has seen first is what it did at its first event. -/
theorem first_call (hlog : s.world.log = later ++ e :: past) (hof : e.Of t r)
    (hfirst : transcript t r past = []) {later' past' : List (Event T)} {c : Call}
    (hlog' : s.world.log = later' ++ past') (hc : (transcript t r past').getLast? = some c) :
    c = ⟨e.op, e.ans⟩ := by
  have hend : (transcript t r s.world.log).getLast? = some ⟨e.op, e.ans⟩ := by
    rw [hlog, transcript_append, transcript_own hof, hfirst, List.getLast?_append]
    rfl
  rw [hlog', transcript_append, List.getLast?_append, hc] at hend
  exact Option.some.inj hend

theorem uploadOf_eq_none (h : r.2.type ≠ T_PUT) : uploadOf r = none := if_neg h

/-- A LIST is told the names that it has seen. -/
theorem Server.Run.told_list (hr : Server.Run (Server.start T os) s)
    (hlog : s.world.log = later ++ e :: past) (hof : e.Of t r) (ha : TakesEffect past e a)
    (ht : r.2.type = T_LIST) {e' : Event T} (he' : e' ∈ s.world.log) (hof' : e'.Of t r) {b : Bytes}
    (hsend : e'.Sends b) (hok : okFront <+: b) :
    ∃ ns, a = .listed ns ∧ b = frameBytes T_OK (joinNul ns) := by
  obtain ⟨hop, rfl⟩ := ha.of_list hof.2 ht
  have hfirst := ha.first hof.2 (uploadOf_eq_none (by rw [ht]; decide))
  rw [hof.1] at hfirst
  obtain ⟨later', past', hlog'⟩ := List.append_of_mem he'
  obtain ⟨ns, hseen, rfl⟩ := ((hr.asserts list_asserts).calls later' e' past' hlog' r hof'.2
    ht).reply b hsend hok
  rw [hof'.1] at hseen
  have hcall := first_call hlog hof hfirst
    (show s.world.log = (later' ++ [e']) ++ past' by rw [hlog']; simp) hseen
  refine ⟨ns, ?_, rfl⟩
  have hos := hr.os_of_looks hlog (.listdir _) hop
  obtain ⟨w, fl, hw, hx⟩ := hr.answers hlog
  obtain ⟨sid, request, op, ans, eos⟩ := e
  cases hcall
  have hns := hx.1
  rw [hw, ← hos] at hns
  simp only [Os.run, Os.locate_dot, Os.isDir_cwd, if_true] at hns
  cases hns
  rfl

/-! ### Downloads -/

theorem replied_eq_nil_of_not_spoke {log : List (Event T)} (h : ¬ Spoke (transcript t r log)) :
    replied t r log = [] := by
  induction log with
  | nil => rfl
  | cons e log ih =>
    by_cases hof : e.Of t r
    · rw [transcript_own hof] at h
      have hquiet : e.out = [] := by
        unfold Event.out
        split
        · next b hop => exact absurd ⟨_, List.mem_cons_self, b, hop⟩ h
        · rfl
      rw [replied_own hof, hquiet, List.append_nil]
      exact ih fun hs => h (hs.cons _)
    · rw [transcript_other hof] at h
      rw [replied_other hof]
      exact ih h

theorem replied_prefix (later past : List (Event T)) :
    replied t r past <+: replied t r (later ++ past) := by
  induction later with
  | nil => exact List.prefix_rfl
  | cons e later ih => exact ih.trans (List.prefix_append _ _)

/-- The first bytes a request is sent. -/
theorem exists_first_send {log : List (Event T)} (h : replied t r log ≠ []) :
    ∃ later e past b, log = later ++ e :: past ∧ e.Of t r ∧ e.Sends b ∧
      ¬ Spoke (transcript t r past) ∧ b <+: replied t r log := by
  have hspoke : Spoke (transcript t r log) := by
    by_contra hno
    exact h (replied_eq_nil_of_not_spoke hno)
  obtain ⟨later, e, past, rfl, hof, ⟨b, hb⟩, hfirst⟩ := exists_first hspoke
  have hno : ¬ Spoke (transcript t r past) := fun ⟨c, hc, hb⟩ => hfirst c hc hb
  have hout : replied t r (e :: past) = b := by
    rw [replied_own hof, replied_eq_nil_of_not_spoke hno, List.nil_append, Event.out,
      show e.op = .send b from hb]
  exact ⟨later, e, past, b, rfl, hof, hb, hno, hout ▸ replied_prefix later (e :: past)⟩

/-- A name that is a file keeps its file and its bytes. -/
theorem Records.steady (h : Shelved os) {s₁ s₂ : Server T} (hr : Server.Run (Server.start T os) s₁)
    (hrec : Records e s₁ s₂) {n : Bytes} (hn : Ordinary n) {i : Nat}
    (he : s₁.world.os.entry n = some (.file i)) :
    s₂.world.os.entry n = some (.file i) ∧
      s₂.world.os.store.data i = s₁.world.os.store.data i := by
  obtain ⟨phs, hshow, hinv⟩ := hr.shelfInv h
  obtain ⟨l, hmove, -⟩ := hrec.moves hshow
  obtain ⟨k, -, hx, -⟩ := hrec.exec
  rcases hmove.effect hx.1 with ⟨hsame, -⟩ | ⟨r, u, ph, ph', hl, hm, -⟩
  · rw [hsame]
    exact ⟨he, rfl⟩
  · have hok := hinv.base.ok e.sid
    rw [hl] at hok
    exact (hm.change hok hx.1).steady hinv hl hn he

/-- What a GET of an ordinary name has seen is so. -/
theorem Server.Run.get_view (h : Shelved os) (hr : Server.Run (Server.start T os) s) {g : GetRequest}
    (hg : fetchOf r = some g) (hn : Ordinary (encode g.name))
    (hnet : ∀ e ∈ s.world.log, e.Of t r → ¬ e.Interrupted) :
    ∃ v, Call.Leads (View.env (encode g.name) g.Underway) .fresh (transcript t r s.world.log) v ∧
      v.Holds (encode g.name) s.world.os s.world.log t r := by
  induction hr with
  | refl => exact ⟨.fresh, rfl, rfl, fun _ => rfl, by rintro c ⟨⟩⟩
  | @tail s₁ s₂ hr₁ hstep ih =>
    obtain ⟨e, hrec⟩ := exists_records hstep
    have hmem : ∀ e' ∈ s₁.world.log, e' ∈ s₂.world.log := fun e' he' => by
      rw [hrec.2]
      exact List.mem_cons_of_mem _ he'
    obtain ⟨v, hv, hholds⟩ := ih fun e' he' => hnet e' (hmem e' he')
    by_cases hof : e.Of t r
    · have hmay := (Server.Run.asserts get_view_asserts (hr₁.tail hstep)).calls [] e _ hrec.2 r
        hof.2 g hg v (hof.1 ▸ hv)
      obtain ⟨k, -, hx, -, -, hos⟩ := hrec.exec
      have hquiet := hnet e (by rw [hrec.2]; exact List.mem_cons_self) hof
      rw [hrec.2, transcript_own hof, ← hos]
      obtain ⟨sid, request, op, ans, eos⟩ := e
      obtain ⟨rfl, rfl⟩ := hof
      obtain rfl : eos = _ := hos
      obtain ⟨v', hgives, hholds'⟩ := hholds.step hmay.2 hx.1 hquiet
      exact ⟨v', ⟨v, hv, hgives⟩, hholds'⟩
    · refine ⟨v, by rw [hrec.2, transcript_other hof]; exact hv, ?_⟩
      rw [hrec.2]
      exact hholds.frame hof fun i hi => hrec.steady h hr₁ hn hi

/-- The bytes of an OK reply are those of one content. -/
theorem Server.Run.told_content (h : Shelved os) (hr : Server.Run (Server.start T os) s)
    (hlog : s.world.log = later ++ e :: past) (hof : e.Of t r) {g : GetRequest}
    (hg : fetchOf r = some g) (hn : Ordinary (encode g.name)) {c : Bytes}
    (hc : e.os.item (encode g.name) = some (.file c)) (hok : okFront <+: replied t r s.world.log)
    (hnet : ∀ e ∈ s.world.log, e.Of t r → ¬ e.Interrupted) :
    replied t r s.world.log <+: getReply c (g.start c) ∧
      ((s.threads t).request ≠ some r → replied t r s.world.log = getReply c (g.start c)) := by
  obtain ⟨v, hv, hholds⟩ := hr.get_view h hg hn hnet
  have hasserted := hr.asserts get_view_asserts
  -- the file has stayed what it was when the request took effect
  have hsame : ∀ c', v.known = some c' → c' = c := by
    intro c' hc'
    obtain ⟨-, ⟨i, hi, hd, -⟩, -⟩ := hholds.known c' hc'
    have hnow : s.world.os.item (encode g.name) = some (.file c') := Os.item_eq_file.mpr ⟨i, hi, hd⟩
    have hkept : (osBefore os (later ++ e :: past)).shelf ⟨encode g.name, hn⟩ = some (.file c) :=
      hr.shelf_keeps h (show _ = [] ++ (later ++ e :: past) from hlog) hc
    rw [← hlog, ← hr.os_eq] at hkept
    cases hnow.symm.trans hkept
    rfl
  rw [← hholds.sent] at hok ⊢
  by_cases hbusy : (s.threads t).request = some r
  · obtain ⟨o, hP⟩ := hasserted.busy hbusy
    rcases (hP g hg v hv).1 with hnil | ⟨c', hc', -, hpre⟩
    · rw [hnil] at hok
      simp [okFront, MAGIC] at hok
    · obtain rfl := hsame c' hc'
      exact ⟨hpre, fun hne => absurd hbusy hne⟩
  · have hserved := hasserted.ends e (by rw [hlog]; simp) r hof.2 (by rwa [hof.1]) g hg v
      (by rwa [hof.1])
    rcases hserved with ⟨reason, herr⟩ | ⟨c', hc', -, hall⟩
    · exact absurd hok herr.not_ok
    · obtain rfl := hsame c' hc'
      exact ⟨by rw [hall], fun _ => hall⟩

/-- An ERROR frame at the front of a reply excludes an OK, and another reason. -/
theorem IsErrorFrame.front {reason : UInt8} {b x : Bytes} (hb : IsErrorFrame reason b)
    (hx : b <+: x) : ¬ okFront <+: x ∧
      ∀ reason' b', IsErrorFrame reason' b' → b' <+: x → reason' = reason := by
  obtain ⟨m, hm, rfl⟩ := hb
  refine ⟨fun hok => ?_, ?_⟩
  · refine IsErrorFrame.not_ok ⟨m, hm, rfl⟩ (List.prefix_of_prefix_length_le hok hx ?_)
    rw [frameBytes_length]
    exact Nat.le_trans (by decide : okFront.length ≤ HEADER_SIZE) (Nat.le_add_right _ _)
  · rintro reason' b' ⟨m', hm', rfl⟩ hx'
    have hlen : ∀ reason m, (encode m).length < 256 ^ 2 →
        (errorPayload reason m).length < 256 ^ 8 := by
      intro reason m hm
      rw [errorPayload_length]
      omega
    obtain ⟨y, hy⟩ := hx
    obtain ⟨y', hy'⟩ := hx'
    obtain ⟨-, hp, -⟩ := frameBytes_append_inj (hlen _ _ hm') (hlen _ _ hm) (hy'.trans hy.symm)
    exact (List.cons.inj hp).1

/-- A GET is told what it has seen. -/
theorem Server.Run.told_get (h : Shelved os) (hr : Server.Run (Server.start T os) s)
    (hlog : s.world.log = later ++ e :: past) (hof : e.Of t r) (ha : TakesEffect past e a)
    {g : GetRequest} (hg : fetchOf r = some g) :
    (absentFrame <+: replied t r s.world.log → a = .absent) ∧
    (okFront <+: replied t r s.world.log → ∃ c, a = .found c ∧
      ((∀ e ∈ s.world.log, e.Of t r → ¬ e.Interrupted) →
        replied t r s.world.log <+: getReply c (g.start c) ∧
        ((s.threads t).request ≠ some r →
          replied t r s.world.log = getReply c (g.start c)))) := by
  obtain ⟨hn, hop, hkind⟩ := ha.of_get hof.2 hg
  have hput : r.2.type ≠ T_PUT := by
    rw [(fetchOf_eq_some.mp hg).1]
    decide
  have hfirst := ha.first hof.2 (uploadOf_eq_none hput)
  rw [hof.1] at hfirst
  -- what the first look has shown
  have hlook : ∀ st : Option Stat, (⟨.fs (.stat (encode g.name)), st⟩ : Call) = ⟨e.op, e.ans⟩ →
      (st.any Stat.isReg = true ↔ ∃ c, e.os.item (encode g.name) = some (.file c)) := by
    intro st hst
    have hos := hr.os_of_looks hlog (.stat _) hop
    obtain ⟨w, fl, hw, hx⟩ := hr.answers hlog
    obtain ⟨sid, request, op, ans, eos⟩ := e
    cases hst
    have hstat := hx.1
    rw [hw, ← hos, Os.run_stat_plain hn.plain] at hstat
    rw [← hstat, Os.item]
    cases eos.entry (encode g.name) with
    | none => simp
    | some sl => cases sl <;> simp [Stat.isReg]
  -- what the reply begins with
  have hfront : replied t r s.world.log ≠ [] →
      ((∀ c, e.os.item (encode g.name) ≠ some (.file c)) → absentFrame <+: replied t r s.world.log) ∧
      ((∃ c, e.os.item (encode g.name) = some (.file c)) →
        okFront <+: replied t r s.world.log ∨ ∃ reason b, reason ≠ E_NOT_FOUND ∧
          IsErrorFrame reason b ∧ b <+: replied t r s.world.log) := by
    intro hne
    obtain ⟨later', e', past', b, hlog', hof', hsend, hspoke, hpre⟩ := exists_first_send hne
    rw [← hof'.1] at hspoke
    obtain ⟨st, hseen, hno, hyes⟩ := ((hr.asserts get_asserts).calls later' e' past' hlog' r hof'.2
      g hg).reply b hsend hspoke
    unfold Looked at hseen
    rw [hof'.1] at hseen
    have hst := hlook st (first_call hlog hof hfirst
      (show s.world.log = (later' ++ [e']) ++ past' by rw [hlog']; simp) hseen)
    refine ⟨fun hmiss => ?_, fun hfile => ?_⟩
    · have hreg : st.any Stat.isReg = false := by
        rw [← Bool.not_eq_true, hst]
        exact fun ⟨c, hc⟩ => hmiss c hc
      rw [← hno hreg]
      exact hpre
    · rcases hyes (hst.mpr hfile) with hok | ⟨reason, hreason, hb⟩
      · exact .inl (hok.trans hpre)
      · exact .inr ⟨reason, b, hreason, hb, hpre⟩
  refine ⟨fun habsent => ?_, fun hok => ?_⟩
  · obtain ⟨c, rfl, hc⟩ | ⟨rfl, -⟩ := hkind
    · have hne : replied t r s.world.log ≠ [] := by
        rintro hnil
        rw [hnil] at habsent
        exact absurd (List.prefix_nil.mp habsent) (by decide)
      have hexcl := isErrorFrame_absent.front habsent
      rcases (hfront hne).2 ⟨c, hc⟩ with hok | ⟨reason, b, hreason, hb, hpre⟩
      · exact absurd hok hexcl.1
      · exact absurd (hexcl.2 reason b hb hpre) hreason
    · rfl
  · have hne : replied t r s.world.log ≠ [] := by
      rintro hnil
      rw [hnil] at hok
      exact absurd (List.prefix_nil.mp hok) (by decide)
    obtain ⟨c, rfl, hc⟩ | ⟨rfl, hmiss⟩ := hkind
    · exact ⟨c, rfl, hr.told_content h hlog hof hg hn hc hok⟩
    · exact absurd hok (isErrorFrame_absent.front ((hfront hne).1 hmiss)).1

end Told

theorem shelved_empty : Shelved Os.empty where
  apart := partialsApart_empty
  kin := by
    intro k n i _ _ he
    simp [Os.entry, Os.empty, Store.lookup] at he

end Retriever
