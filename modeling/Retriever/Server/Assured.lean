/-
# Retriever.Server.Assured — what the replies to a first request assure

What each handler says, piece by piece, and what follows for a client that has read its replies. For a PUT
this is an ERROR, or an offer and then an OK or an ERROR; so when two frames have been said for it of which
neither is an ERROR, then the second is the final OK (`Server.Run.put_assured`).

For a GET it is an ERROR, or the header and the metadata of a file; so a reply that does not begin with an
ERROR and is long enough speaks of the file that stands under the name (`Server.Run.get_assured`). This holds
also when the connection has failed in the middle, for what got through before.
-/
import Retriever.Exchange
import Retriever.Server.Dialogue
import Retriever.Server.Linearizable

namespace Retriever

variable {T : Type} {α β : Type} {next : List Bytes → Bytes → Prop} {x : Talk}

/-! ## Programs that say nothing -/

/-- The program says nothing. -/
abbrev Mute (p : Py α) : Prop := p.Uses (fun o => ∀ b, o ≠ .send b) Exn.Reported

theorem Sys.Private.mute (o : Sys) (h : o.Private) : ∀ b, o ≠ .send b := h.1

/-- What is said after a program that says nothing. -/
theorem Mute.bind {p : Py α} {f : α → Py β} {Q : β → Talk → Prop} (hp : Mute p)
    (hf : ∀ a x', x'.said = x.said → (f a).wp (Talk.env next) Q (fun _ _ => True) x') :
    (p >>= f).wp (Talk.env next) Q (fun _ _ => True) x :=
  Proc.wp_bind.mpr (Proc.wp_mono (Talk.wp_of_uses hp) (fun a x' h => hf a x' h) fun _ _ _ => trivial)

theorem mute_fs {γ : Type} (o : FsOp) (g : o.Ans → Except SysErr γ) :
    Mute (Proc.perform (Sys.fs o) >>= fun a => Py.orRaise (g a)) :=
  Proc.uses_bind (Proc.uses_perform (by rintro b ⟨⟩)) fun a => orRaise_reported (g a)

theorem mute_stat (p : Bytes) : Mute (Py.pathExists p) :=
  Proc.uses_bind (Proc.uses_perform (by rintro b ⟨⟩)) fun _ => trivial

/-! ## PUT -/

/-- What may be said for a PUT: an offer first, an OK after it, an ERROR at any time. -/
def PutNext (l : List Bytes) (b : Bytes) : Prop :=
  (∃ reason, IsErrorFrame reason b) ∨ (l = [] ∧ ∃ n, n < 256 ^ 8 ∧ b = offerFrame n) ∨
    ∃ n, l = [offerFrame n] ∧ b = okFrame

/-- The offer is not the last word. -/
def PutComplete (l : List Bytes) : Prop := l ≠ [] ∧ ∀ n, l ≠ [offerFrame n]

theorem putComplete_pair (a b : Bytes) : PutComplete [a, b] := by
  refine ⟨List.cons_ne_nil _ _, fun n h => ?_⟩
  exact List.cons_ne_nil _ _ (List.cons.inj h).2

section Put

/-- A final word: an ERROR at the start or after the offer. -/
theorem put_sendError {reason : UInt8} {m : Text} (hx : x.said = [] ∨ ∃ n, x.said = [offerFrame n]) :
    (sendError reason m).wp (Talk.env PutNext) (fun _ x' => PutComplete x'.said) (fun _ _ => True) x := by
  refine Talk.wp_sendError (fun b hb => .inl ⟨reason, hb⟩) (fun b hb => ?_) (fun _ _ _ => trivial) trivial
  rcases hx with hx | ⟨n, hx⟩
  · rw [hx]
    refine ⟨List.cons_ne_nil _ _, fun k hk => ?_⟩
    exact hb.ne_offerFrame k (List.cons.inj hk).1
  · rw [hx]
    exact putComplete_pair _ _

theorem publish_told {name partialPath : Bytes} {n : Nat} (hx : x.said = [offerFrame n]) :
    (publish name partialPath).wp (Talk.env PutNext) (fun _ x' => PutComplete x'.said) (fun _ _ => True)
      x := by
  refine (mute_fs (.openRb partialPath) id).bind fun f x₁ h₁ => ?_
  refine (mute_fs (.read f 0 8) id).bind fun _ x₂ h₂ => ?_
  refine Mute.bind (Proc.uses_tryCatch
    (Proc.uses_bind (mute_fs (.link partialPath name) id) fun _ => trivial) ?_) fun linked x₃ h₃ => ?_
  · -- a name that is taken is no failure here
    intro e he
    cases e with
    | sys s => cases s <;> trivial
    | _ => exact he
  have hx₃ : x₃.said = [offerFrame n] := by rw [h₃, h₂, h₁, hx]
  split
  · exact (mute_fs (.unlink partialPath) id).bind fun _ x₄ h₄ => put_sendError (.inr ⟨n, h₄.trans hx₃⟩)
  · refine (mute_fs (.unlink partialPath) id).bind fun _ x₄ h₄ => ?_
    rw [writeFrame_eq (by decide)]
    refine Talk.wp_sendall (.inr (.inr ⟨n, h₄.trans hx₃, rfl⟩)) ?_ fun _ => trivial
    rw [h₄, hx₃]
    exact putComplete_pair _ _

theorem receiveUpload_told {name partialPath digest : Bytes} {fileSize : Nat} (hx : x.said = []) :
    (receiveUpload name partialPath fileSize digest).wp (Talk.env PutNext)
      (fun _ x' => PutComplete x'.said) (fun _ _ => True) x := by
  have hmute := Sys.Private.mute
  refine Mute.bind (resumeOffset_uses hmute partialPath fileSize) fun offset x₁ h₁ => ?_
  by_cases hoff : offset < 256 ^ 8
  · rw [toBytes_of_lt hoff]
    show ((writeFrame T_OK (toBE 8 offset)) >>= _).wp _ _ _ _
    rw [writeFrame_eq (by rw [toBE_length]; decide)]
    refine Proc.wp_bind.mpr (Talk.wp_sendall (.inr (.inl ⟨h₁.trans hx, offset, hoff, rfl⟩)) ?_
      fun _ => trivial)
    have hoffer : x₁.said ++ [offerFrame offset] = [offerFrame offset] := by
      rw [h₁, hx, List.nil_append]
    refine (mute_fs (.openAb partialPath) id).bind fun out x₂ h₂ => ?_
    refine Mute.bind (receiveBody_uses hmute out fileSize _ _) fun _ x₃ h₃ => ?_
    refine Mute.bind (sha256File_uses hmute partialPath) fun actual x₄ h₄ => ?_
    have hx₄ : x₄.said = [offerFrame offset] := by
      rw [h₄, h₃, h₂]
      exact hoffer
    split
    · exact (mute_fs (.unlink partialPath) id).bind fun _ x₅ h₅ => put_sendError (.inr ⟨_, h₅.trans hx₄⟩)
    · exact publish_told hx₄
  · have hlong : toBytes 8 offset = .error .overflowError := if_neg hoff
    rw [hlong]
    trivial

theorem handlePut_told (payload : Bytes) :
    (handlePut payload).wp (Talk.env PutNext) (fun _ x => PutComplete x.said) (fun _ _ => True)
      ⟨[], []⟩ := by
  unfold handlePut
  cases parsePut payload with
  | error e => trivial
  | ok req =>
    show (if _ then _ else _ : Py Unit).wp _ _ _ _
    split
    · exact put_sendError (.inl rfl)
    split
    · exact put_sendError (.inl rfl)
    refine Mute.bind (mute_stat req.path) fun found x₁ h₁ => ?_
    split
    · exact put_sendError (.inl h₁)
    refine Mute.bind (Proc.uses_perform (by rintro b ⟨⟩)) fun mine x₂ h₂ => ?_
    have hx₂ : x₂.said = [] := h₂.trans h₁
    split
    · exact put_sendError (.inl hx₂)
    · refine Proc.wp_ensure.mpr (Proc.wp_mono (receiveUpload_told hx₂) ?_ ?_)
      · intro _ x₃ h₃
        refine ⟨by rintro b ⟨⟩, ?_⟩
        rintro u x₄ ⟨-, rfl⟩
        show PutComplete (x₃.said ++ [])
        rwa [List.append_nil]
      · intro _ x₃ _
        exact ⟨by rintro b ⟨⟩, fun _ _ _ => trivial⟩

/-- What a first request may say, as far as it is a PUT. -/
def putSays (f : Frame) (l : List Bytes) (b : Bytes) : Prop := f.type = T_PUT → PutNext l b

/-- When it has said everything. -/
def putSaid (f : Frame) (l : List Bytes) : Prop := f.type = T_PUT → PutComplete l

theorem dispatch_put_told (f : Frame) :
    (dispatch f).wp (Talk.env (putSays f)) (fun _ x => putSaid f x.said) (fun _ _ => True) ⟨[], []⟩ := by
  by_cases ht : f.type = T_PUT
  · have hspoken : putSays f = PutNext := by
      funext l b
      simp only [putSays, ht, forall_const]
    have hd : dispatch f = handlePut f.payload >>= fun _ => pure true := by
      simp only [dispatch, ht, if_neg (show T_PUT ≠ T_QUIT by decide),
        if_neg (show T_PUT ≠ T_LIST by decide), if_neg (show T_PUT ≠ T_GET by decide), if_true]
    rw [hspoken, hd]
    exact Proc.wp_bind.mpr (Proc.wp_mono (handlePut_told f.payload) (fun _ _ h _ => h) fun _ _ h => h)
  · exact Proc.wp_mono (Talk.wp_free (fun l b h => absurd h ht) _ _) (fun _ _ _ h => absurd h ht)
      fun _ _ h => h

/-- Two frames that are not ERRORs are the offer and the final OK. -/
theorem Told.put_second {l rest : List Bytes} {t₁ t₂ : UInt8} {p₁ p₂ more : Bytes} (h : Told PutNext l)
    (hc : rest ≠ [] → PutComplete l) (hp₁ : p₁.length < 256 ^ 8) (hp₂ : p₂.length < 256 ^ 8)
    (hl : l.flatten ++ rest.flatten = frameBytes t₁ p₁ ++ (frameBytes t₂ p₂ ++ more))
    (ht₁ : t₁ ≠ T_ERROR) (ht₂ : t₂ ≠ T_ERROR) : okFrame ∈ l := by
  have hspoken : ∀ {t p y}, rest.flatten = frameBytes t p ++ y → PutComplete l := by
    intro t p y hy
    apply hc
    rintro rfl
    simp [frameBytes, MAGIC] at hy
  cases l with
  | nil => exact absurd rfl (hspoken hl).1
  | cons b l =>
    rw [List.flatten_cons, List.append_assoc] at hl
    rcases h [] b l rfl with ⟨reason, hb⟩ | ⟨-, n, -, rfl⟩ | ⟨n, hno, -⟩
    · exact absurd (hb.type_eq hp₁ hl) ht₁
    · obtain ⟨-, -, hrest⟩ := frameBytes_append_inj (by rw [toBE_length]; decide) hp₁ hl
      cases l with
      | nil => exact absurd rfl ((hspoken hrest).2 n)
      | cons b' l =>
        rw [List.flatten_cons, List.append_assoc] at hrest
        rcases h [offerFrame n] b' l rfl with ⟨reason, hb'⟩ | ⟨hno, -⟩ | ⟨_, -, rfl⟩
        · exact absurd (hb'.type_eq hp₂ hrest) ht₂
        · cases hno
        · exact List.mem_cons_of_mem _ List.mem_cons_self
    · cases hno

end Put

/-- **An upload that is assured.** Three frames have been said of which the last two are not ERRORs: the
request is the frame after the greeting in what was heard, and if that is a PUT, then its final OK has been
sent. -/
theorem Server.Run.put_assured [DecidableEq T] {os : Os} {s : Server T}
    (hr : Server.Run (Server.start T os) s) {t : T} {t₀ t₁ t₂ : UInt8} {p₀ p₁ p₂ more : Bytes}
    (hp₀ : p₀.length < 256 ^ 8) (hp₁ : p₁.length < 256 ^ 8) (hp₂ : p₂.length < 256 ^ 8)
    (hsaid : (said t s.world.log).flatten =
      frameBytes t₀ p₀ ++ (frameBytes t₁ p₁ ++ (frameBytes t₂ p₂ ++ more)))
    (ht₁ : t₁ ≠ T_ERROR) (ht₂ : t₂ ≠ T_ERROR) :
    ∃ f, Opens f (heard t s.world.log) ∧
      (f.type = T_PUT → ∃ e ∈ s.world.log, e.Of t (0, f) ∧ e.Sends okFrame) := by
  have hstory := hr.story (fun f l reason b hb _ => .inl ⟨reason, hb⟩) dispatch_put_told t
  obtain ⟨f, rest, ho, -, hl⟩ := hstory.opened hp₀ hsaid (noError_frame hp₁ ht₁ _)
  refine ⟨f, ho.opens, fun hput => mem_pieces ?_⟩
  have htold : Told PutNext (pieces t (0, f) s.world.log) := by
    intro l₁ b l₂ hsplit
    exact ho.told l₁ b l₂ hsplit hput
  exact htold.put_second (fun hne => ho.complete hne hput) hp₁ hp₂ hl ht₁ ht₂

/-! ## GET -/

/-- Whatever is said next, something has been said. -/
theorem Talk.wp_spoken {p : Py α} (hnext : ∀ l b, l ≠ [] → next l b) (hx : x.said ≠ []) :
    p.wp (Talk.env next) (fun _ x' => x'.said ≠ []) (fun _ _ => True) x := by
  induction p generalizing x with
  | done a => exact hx
  | raise e => trivial
  | call o k ih =>
    refine ⟨fun b _ => hnext _ b hx, ?_⟩
    rintro a x' ⟨-, rfl⟩
    exact ih a (List.append_ne_nil_of_left_ne_nil hx _)

/-- What a GET says first: an ERROR, or the front of a reply to a request for a file. -/
def getSays (f : Frame) (l : List Bytes) (b : Bytes) : Prop :=
  f.type = T_GET → l = [] →
    (∃ reason, IsErrorFrame reason b) ∨ okFront <+: b ∧ ∃ g, fetchOf (0, f) = some g

/-- A GET is answered. -/
def getSaid (f : Frame) (l : List Bytes) : Prop := f.type = T_GET → l ≠ []

section Get

variable {f : Frame}

theorem getSays_spoken (f : Frame) (l : List Bytes) (b : Bytes) (h : l ≠ []) : getSays f l b :=
  fun _ hnil => absurd hnil h

theorem get_sendError {reason : UInt8} {m : Text} :
    (sendError reason m).wp (Talk.env (getSays f)) (fun _ x' => x'.said ≠ []) (fun _ _ => True) x :=
  Talk.wp_sendError (fun _ hb _ _ => .inl ⟨reason, hb⟩)
    (fun _ _ => List.append_ne_nil_of_right_ne_nil _ (List.cons_ne_nil _ []))
    (fun _ _ _ => trivial) trivial

theorem serveFile_told {g : GetRequest} (hg : fetchOf (0, f) = some g) (path : Bytes) (offset : Nat)
    (token : Bytes) : (serveFile path offset token).wp (Talk.env (getSays f))
      (fun _ x' => x'.said ≠ []) (fun _ _ => True) x := by
  have hmute := Sys.Private.mute
  refine Mute.bind (getsize_uses hmute path) fun size x₁ h₁ => ?_
  split
  · trivial
  refine Mute.bind (sha256File_uses hmute path) fun digest x₂ h₂ => ?_
  refine Proc.wp_bind.mpr ?_
  unfold writeFrameHeader frameHeader
  by_cases hlen : GET_META + (size - startOffset offset token digest) < 256 ^ 8
  · rw [toBytes_of_lt hlen]
    refine Talk.wp_sendall (fun _ _ => .inr ⟨List.prefix_append _ _, g, hg⟩) ?_ fun _ => trivial
    exact Talk.wp_spoken (getSays_spoken f)
      (List.append_ne_nil_of_right_ne_nil _ (List.cons_ne_nil _ []))
  · have hlong : toBytes 8 (GET_META + (size - startOffset offset token digest)) = .error .overflowError :=
      if_neg hlen
    rw [hlong]
    trivial

theorem dispatch_get_told (f : Frame) :
    (dispatch f).wp (Talk.env (getSays f)) (fun _ x => getSaid f x.said) (fun _ _ => True) ⟨[], []⟩ := by
  by_cases ht : f.type = T_GET
  · have hd : dispatch f = handleGet f.payload >>= fun _ => pure true := by
      simp only [dispatch, ht, if_neg (show T_GET ≠ T_QUIT by decide),
        if_neg (show T_GET ≠ T_LIST by decide), if_true]
    rw [hd]
    refine Proc.wp_bind.mpr (Proc.wp_mono (Q := fun _ x' => x'.said ≠ []) ?_ (fun _ _ h _ => h)
      fun _ _ h => h)
    unfold handleGet
    cases hp : parseGet f.payload with
    | error e => trivial
    | ok req =>
      show (if _ then _ else _ : Py Unit).wp _ _ _ _
      split
      · exact get_sendError
      next hname =>
      have hg : fetchOf (0, f) = some req := fetchOf_eq_some.mpr ⟨ht, hp, by simpa using hname⟩
      refine Mute.bind (Proc.uses_bind (Proc.uses_perform (by rintro b ⟨⟩)) fun _ => trivial)
        fun found x₁ _ => ?_
      split
      · exact get_sendError
      · exact serveFile_told hg _ _ _
  · exact Proc.wp_mono (Talk.wp_free (fun l b h => absurd h ht) _ _) (fun _ _ _ h => absurd h ht)
      fun _ _ h => h

end Get

section Runs

variable [DecidableEq T] {os : Os} {s : Server T} {t : T}

/-- What stands on the shelf after a part of the run is there in the end. -/
theorem Server.Run.shelf_tail (h : Shelved os) {s₁ : Server T} (hr : Server.Run (Server.start T os) s₁)
    (hstep : Server.Step s₁ s) {n : {n // Ordinary n}} {x : Item} (hx : s₁.world.os.shelf n = some x) :
    s.world.os.shelf n = some x := by
  obtain ⟨e, hrec⟩ := exists_records hstep
  have hr' : Server.Run (Server.start T os) s := hr.tail hstep
  rw [hr.os_eq] at hx
  rw [hr'.os_eq, hrec.2]
  exact hr'.shelf_keeps h (show _ = [] ++ ([e] ++ s₁.world.log) from hrec.2) hx

/-- What stands on the shelf is there to the end. -/
theorem Server.Run.shelf_run (h : Shelved os) {s₁ : Server T} (hr : Server.Run (Server.start T os) s₁)
    (hrun : Server.Run s₁ s) {n : {n // Ordinary n}} {x : Item} (hx : s₁.world.os.shelf n = some x) :
    s.world.os.shelf n = some x := by
  induction hrun with
  | refl => exact hx
  | tail hrun hstep ih => exact Server.Run.shelf_tail h (hr.trans hrun) hstep ih

/-- The first `sendall` of a session that fails might as well not have failed: there is a run in which the
session has said what has got through in this one, and none has failed. -/
structure Mends (t : T) (s s' : Server T) : Prop where
  sound : broken t s'.world.log = false
  said : said t s'.world.log = carried t s.world.log
  heard : heard t s'.world.log <+: heard t s.world.log
  shelf : ∀ n x, s'.world.os.shelf n = some x → s.world.os.shelf n = some x

theorem Server.Run.mended (h : Shelved os) (hr : Server.Run (Server.start T os) s) (t : T) :
    ∃ s', Server.Run (Server.start T os) s' ∧ Mends t s s' := by
  induction hr with
  | refl => exact ⟨_, .refl, rfl, rfl, List.prefix_rfl, fun _ _ h => h⟩
  | @tail a b hab hstep ih =>
    obtain ⟨e, hrec⟩ := exists_records hstep
    have hshelf : ∀ n x, a.world.os.shelf n = some x → b.world.os.shelf n = some x :=
      fun n x => Server.Run.shelf_tail h hab hstep
    cases hb : broken t a.world.log with
    | true =>
      -- nothing more gets through, so the run that has been found is still one
      obtain ⟨s', hr', hm⟩ := ih
      refine ⟨s', hr', hm.sound, ?_, ?_, fun n x hx => hshelf n x (hm.shelf n x hx)⟩
      · rw [hrec.2, carried_broken hb, hm.said]
      · rw [hrec.2, heard]
        exact hm.heard.trans (List.prefix_append _ _)
    | false =>
      cases hdrop : broken t b.world.log with
      | false => exact ⟨b, hab.tail hstep, hdrop, (carried_eq hdrop).symm, List.prefix_rfl, fun _ _ h => h⟩
      | true =>
        -- the last operation is the one that has failed
        have hsid : e.sid = t := by
          by_contra hne
          rw [hrec.2, broken_other hne, hb] at hdrop
          cases hdrop
        rw [hrec.2, broken_own hsid, hb, Bool.or_false] at hdrop
        have hcarried : carried t b.world.log = said t a.world.log ++ e.op.pieces := by
          rw [hrec.2, carried_own hsid hb, carried_eq hb]
        have hheard : heard t b.world.log = heard t a.world.log ++ e.op.brought e.ans := by
          rw [hrec.2, heard_own hsid]
        obtain ⟨k, hn, -⟩ := hrec.exec
        obtain ⟨sid, request, op, ans, eos⟩ := e
        obtain rfl : sid = t := hsid
        cases op with
        | recv | fs | reserve | discard => cases hdrop
        | send piece =>
          -- in its place the same operation, with success
          let e' : Event T := ⟨sid, (a.threads sid).request, .send piece, .ok (), a.world.os⟩
          have hx' : World.Exec sid (a.threads sid) a.world (.send piece) (.ok ())
              ⟨a.world.os, a.world.inFlight, e' :: a.world.log⟩ := ⟨⟨.inl rfl, rfl, rfl⟩, rfl⟩
          refine ⟨_, hab.tail (.mk hn hx'), ?_, ?_, ?_, hshelf⟩
          · show broken sid (e' :: a.world.log) = false
            rw [broken_own (e := e') rfl, hb]
            rfl
          · rw [hcarried]
            exact said_own (e := e') rfl
          · rw [hheard, show Sys.brought (.send piece) ans = [] from rfl, List.append_nil]
            show heard sid (e' :: a.world.log) <+: _
            rw [heard_own (e := e') rfl, show Sys.brought e'.op e'.ans = [] from rfl, List.append_nil]

/-- A GET does not listen. -/
theorem Server.Run.get_deaf (h : PartialsApart os) (hr : Server.Run (Server.start T os) s) {e : Event T}
    (he : e ∈ s.world.log) {r : Request} (hreq : e.request = some r) (ht : r.2.type = T_GET) (n : Nat) :
    e.op ≠ .recv n := by
  intro hop
  obtain ⟨later, past, hlog⟩ := List.append_of_mem he
  obtain ⟨s₁, s₂, hr₁, hrec, -, -⟩ := hr.event hlog
  obtain ⟨phs, hshow, hinv⟩ := hr₁.inv (fun _ h => h) h
  obtain ⟨l, hmove, -⟩ := hrec.moves hshow
  obtain ⟨k, -, -, -, hreq', -⟩ := hrec.exec
  have hrequest : (phs e.sid).request = some r := by
    rw [← (hshow e.sid).request, ← hreq', hreq]
  rcases hmove.split with ⟨hquiet, -⟩ | ⟨r', u, ph, ph', hl, -⟩
  · rw [hop, hrequest] at hquiet
    cases hquiet with
    | recv n hnone => cases hnone
  · have hok := hinv.ok e.sid
    rw [hl] at hok hrequest
    cases hrequest
    exact absurd (hok.1.type.symm.trans ht) (by decide)

/-- **A download that is assured.** No `sendall` has failed, and after a first frame something has been said
that is no ERROR and long enough for the front of a GET reply: the request is the frame after the greeting in
what was heard, and if that is a GET of an ordinary name, then a file stands under the name, and what has been
said is the front of the reply for it. -/
theorem Server.Run.get_assured_sound (h : Shelved os) (hr : Server.Run (Server.start T os) s)
    (hb : broken t s.world.log = false) {t₀ : UInt8} {p₀ more : Bytes} (hp₀ : p₀.length < 256 ^ 8)
    (hsaid : (said t s.world.log).flatten = frameBytes t₀ p₀ ++ more) (hmore : NoError more)
    (hlen : HEADER_SIZE + GET_META ≤ more.length) :
    ∃ f, Opens f (heard t s.world.log) ∧ ∀ g, f.type = T_GET → parseGet f.payload = .ok g →
      ∀ hn : Ordinary (encode g.name), ∃ c, s.world.os.shelf ⟨encode g.name, hn⟩ = some (.file c) ∧
        getHeader c (g.start c) ++ getMeta c (g.start c) <+: more := by
  have hstory : Story getSays getSaid t s.world.log (s.threads t) :=
    hr.story (fun f l reason b hb _ _ => .inl ⟨reason, hb⟩) dispatch_get_told t
  obtain ⟨f, rest, ho, hover, hl⟩ := hstory.opened hp₀ hsaid hmore
  refine ⟨f, ho.opens, fun g ht hparse hn => ?_⟩
  have hreplied := replied_eq_pieces t (0, f) s.world.log
  -- the first piece is the front of a reply
  obtain ⟨b, l, hpieces⟩ : ∃ b l, pieces t (0, f) s.world.log = b :: l := by
    apply List.exists_cons_of_ne_nil
    intro hnil
    rw [hnil, List.flatten_nil, List.nil_append] at hl
    have hne : rest ≠ [] := by
      rintro rfl
      exact hmore.1 hl.symm
    exact ho.complete hne ht hnil
  rw [← hreplied] at hl
  rw [hpieces, List.flatten_cons] at hreplied
  obtain ⟨hok, hg⟩ : okFront <+: replied t (0, f) s.world.log ∧ fetchOf (0, f) = some g := by
    rcases ho.told [] b l hpieces ht rfl with ⟨reason, herr⟩ | ⟨hfront, g', hg'⟩
    · refine absurd ?_ (hmore.2 reason b herr)
      rw [← hl, hreplied, List.append_assoc]
      exact List.prefix_append _ _
    · have hsame := (fetchOf_eq_some.mp hg').2.1
      rw [hparse] at hsame
      cases hsame
      exact ⟨hfront.trans (by rw [hreplied]; exact List.prefix_append _ _), hg'⟩
  -- the request has taken effect with its first call
  obtain ⟨e, he, hof, -⟩ := mem_pieces (b := b) (by rw [hpieces]; exact List.mem_cons_self)
  obtain ⟨later, past, hlog⟩ := List.append_of_mem he
  obtain ⟨mid, e', past', hsplit, hof', hfirst⟩ := exists_first_event past hof
  have hlog' : s.world.log = (later ++ mid) ++ e' :: past' := by
    rw [hlog, hsplit, List.append_assoc]
  obtain ⟨a, ha⟩ := hr.get_effect hlog' hof'.2 hg hn (by rw [hof'.1]; exact hfirst)
  obtain ⟨c, rfl, htold⟩ := (hr.told_get h hlog' hof' ha hg).2 hok
  -- a GET hears nothing, and none of its pieces has failed
  have hnet : ∀ e ∈ s.world.log, e.Of t (0, f) → ¬ e.Interrupted := by
    intro e he hof hint
    have hdeaf := hr.get_deaf h.apart he hof.2 ht
    have hsound : e.op.drops e.ans = false := by
      have hall := List.any_eq_false.mp hb e he
      simpa [hof.1] using hall
    obtain ⟨sid, request, op, ans, eos⟩ := e
    cases op with
    | recv n => exact hdeaf n rfl
    | send b =>
      cases ans with
      | ok u => exact hint
      | error e => cases hsound
    | fs | reserve | discard => exact hint
  obtain ⟨hpre, hwhole⟩ := htold hnet
  refine ⟨c, ?_, ?_⟩
  · obtain ⟨-, -, ⟨c', hc', hitem⟩ | ⟨hno, -⟩⟩ := ha.of_get hof'.2 hg
    · cases hc'
      have hkept := hr.shelf_keeps h (show _ = [] ++ ((later ++ mid) ++ e' :: past') from hlog')
        (n := ⟨encode g.name, hn⟩) (x := .file c) hitem
      rwa [← hlog', ← hr.os_eq] at hkept
    · cases hno
  · have hreply : getHeader c (g.start c) ++ getMeta c (g.start c) <+: getReply c (g.start c) := by
      rw [getReply_eq]
      exact List.prefix_append _ _
    rw [← hl]
    -- either nothing was said after the reply, or the reply is whole
    rcases hover with rfl | hdone
    · rw [List.flatten_nil, List.append_nil] at hl ⊢
      refine List.prefix_of_prefix_length_le hreply hpre ?_
      rw [hl, List.length_append, getHeader_length, getMeta_length]
      exact hlen
    · rw [hwhole hdone]
      exact hreply.trans (List.prefix_append _ _)

/-- The same for what has got through, whether a `sendall` has failed or not. -/
theorem Server.Run.get_assured (h : Shelved os) (hr : Server.Run (Server.start T os) s) {t₀ : UInt8}
    {p₀ more : Bytes} (hp₀ : p₀.length < 256 ^ 8)
    (hcarried : (carried t s.world.log).flatten = frameBytes t₀ p₀ ++ more) (hmore : NoError more)
    (hlen : HEADER_SIZE + GET_META ≤ more.length) :
    ∃ f, Opens f (heard t s.world.log) ∧ ∀ g, f.type = T_GET → parseGet f.payload = .ok g →
      ∀ hn : Ordinary (encode g.name), ∃ c, s.world.os.shelf ⟨encode g.name, hn⟩ = some (.file c) ∧
        getHeader c (g.start c) ++ getMeta c (g.start c) <+: more := by
  obtain ⟨s', hr', hm⟩ := hr.mended h t
  rw [← hm.said] at hcarried
  obtain ⟨f, hopens, hall⟩ := hr'.get_assured_sound h hm.sound hp₀ hcarried hmore hlen
  refine ⟨f, ?_, fun g ht hparse hn => ?_⟩
  · obtain ⟨x, hx⟩ := hm.heard
    rw [← hx]
    exact hopens.append x
  · obtain ⟨c, hshelf, hpre⟩ := hall g ht hparse hn
    exact ⟨c, hm.shelf _ _ hshelf, hpre⟩

end Runs

end Retriever
