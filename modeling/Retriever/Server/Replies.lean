/-
# Retriever.Server.Replies — what a handler has seen before it replies

A reply is about something the handler was told by the operating system before: a PUT is refused as
`file already exists` after a `stat` or a `link` has said so, a GET begins its reply after one `stat`,
a LIST after `listdir`. These are facts about the handlers alone, whatever they are answered;
`Server.Run.asserts` carries them over to every request of every run.
-/
import Retriever.Server.Record
import Retriever.Server.Snapshot

namespace Retriever

/-- The reply to a PUT whose name is taken. -/
def takenFrame : Bytes :=
  frameBytes T_ERROR (errorPayload E_ALREADY_EXISTS "file already exists on server".toList)

/-- The reply to a GET that finds no file. -/
def absentFrame : Bytes := frameBytes T_ERROR (errorPayload E_NOT_FOUND "not found on server".toList)

/-- The front of an OK frame. -/
def okFront : Bytes := MAGIC ++ [VERSION, T_OK]

/-! ## Pieces that neither reply nor publish -/

/-- `handle_client` reports the exception as a protocol violation or as an internal error. -/
def Exn.Reported (e : Exn) : Prop := ∀ reason m, e = .frameError reason m → reason = E_MALFORMED

/-- The operation neither replies nor publishes. -/
def Sys.Private (o : Sys) : Prop := (∀ b, o ≠ .send b) ∧ ∀ p q, o ≠ .fs (.link p q)

theorem Sys.private_recv (n : Nat) : Private (.recv n) := ⟨nofun, nofun⟩

theorem Sys.private_read (i pos n : Nat) : Private (.fs (.read i pos n)) := ⟨nofun, nofun⟩

theorem Sys.private_write (i : Nat) (bs : Bytes) : Private (.fs (.write i bs)) := ⟨nofun, nofun⟩

section Uses

variable {A : Sys → Prop}

theorem Exn.reported_sys (e : SysErr) : (Exn.sys e).Reported := by rintro reason m ⟨⟩

theorem orRaise_reported {α : Type} (x : Except SysErr α) : (Py.orRaise x).Uses A Exn.Reported := by
  cases x with
  | ok a => trivial
  | error e => exact Exn.reported_sys e

theorem toBytes_reported (k n : Nat) :
    (Proc.ofExcept (toBytes k n) : Py Bytes).Uses A Exn.Reported := by
  apply Proc.uses_ofExcept
  unfold toBytes
  split
  · rintro e ⟨⟩
  · rintro e ⟨⟩ reason m ⟨⟩

theorem sendall_uses {b : Bytes} (h : A (.send b)) : (Py.sendall b).Uses A Exn.Reported :=
  Proc.uses_bind (Proc.uses_perform h) orRaise_reported

theorem sendError_uses {reason : UInt8} {m : Text} (h : ∀ b, IsErrorFrame reason b → A (.send b)) :
    (sendError reason m).Uses A Exn.Reported := by
  by_cases hm : (encode m).length < 256 ^ 2
  · rw [sendError_eq hm]
    exact sendall_uses (h _ ⟨m, hm, rfl⟩)
  · have hp : packError reason m = .error .overflowError := by
      rw [packError, toBytes, if_neg hm]
      rfl
    simp only [sendError, hp, Proc.ofExcept_error, Proc.raise_bind]
    rintro reason' m' ⟨⟩

theorem writeFrame_uses {t : UInt8} {b : Bytes} (h : A (.send (frameBytes t b))) :
    (writeFrame t b).Uses A Exn.Reported := by
  by_cases hb : b.length < 256 ^ 8
  · rw [writeFrame_eq hb]
    exact sendall_uses h
  · have hh : frameHeader t b.length = .error .overflowError := by
      rw [frameHeader, toBytes, if_neg hb]
      rfl
    simp only [writeFrame, hh, Proc.ofExcept_error, Proc.raise_bind]
    rintro reason m ⟨⟩

/-- The reply to an exception. -/
theorem onError_uses (hA : ∀ reason b, reason = E_MALFORMED ∨ reason = E_INTERNAL →
      IsErrorFrame reason b → A (.send b)) {e : Exn} (he : e.Reported) :
    (onError e).Uses A Exn.Reported := by
  unfold onError
  split
  · next reason m => exact sendError_uses fun b => hA reason b (.inl (he reason m rfl))
  · trivial
  · trivial
  · exact sendError_uses fun b => hA _ b (.inr rfl)

variable (hpriv : ∀ o, Sys.Private o → A o)

include hpriv

/-- A call that may fail. -/
theorem call_uses {α : Type} {o : Sys} (ho : Sys.Private o) (f : o.Ans → Except SysErr α) :
    (Proc.perform o >>= fun a => Py.orRaise (f a)).Uses A Exn.Reported :=
  Proc.uses_bind (Proc.uses_perform (hpriv o ho)) fun a => orRaise_reported (f a)

theorem receiveBody_uses (out fileSize fuel written : Nat) :
    (receiveBody out fileSize fuel written).Uses A Exn.Reported := by
  induction fuel generalizing written with
  | zero => trivial
  | succ fuel ih =>
    rw [receiveBody]
    split
    · refine Proc.uses_bind (call_uses hpriv (Sys.private_recv _) id) fun c => ?_
      split
      · exact Exn.reported_sys _
      · exact Proc.uses_bind (call_uses hpriv (Sys.private_write _ _) id) fun _ => ih _
    · trivial

theorem readAll_uses (i n fuel : Nat) (acc : Bytes) :
    (Py.readAll i n fuel acc).Uses A Exn.Reported := by
  induction fuel generalizing acc with
  | zero => exact Exn.reported_sys _
  | succ fuel ih =>
    rw [Py.readAll]
    refine Proc.uses_bind (call_uses hpriv (Sys.private_read _ _ _) id) fun c => ?_
    split
    · trivial
    · exact ih _

theorem sha256File_uses (p : Bytes) : (sha256File p).Uses A Exn.Reported := by
  refine Proc.uses_bind (call_uses hpriv (o := .fs (.openRb p)) ⟨nofun, nofun⟩ id) fun f => ?_
  exact Proc.uses_bind (readAll_uses hpriv _ _ _ _) fun _ => trivial

theorem getsize_uses (p : Bytes) : (Py.getsize p).Uses A Exn.Reported := by
  refine Proc.uses_bind (Proc.uses_perform (hpriv _ ⟨nofun, nofun⟩)) fun st => ?_
  cases st with
  | none => exact Exn.reported_sys _
  | some st => trivial

theorem resumeOffset_uses (p : Bytes) (n : Nat) : (resumeOffset p n).Uses A Exn.Reported := by
  unfold resumeOffset Py.pathExists
  refine Proc.uses_bind (Proc.uses_bind (Proc.uses_perform (hpriv _ ⟨nofun, nofun⟩)) fun _ => trivial) ?_
  intro b
  have hrest : ∀ held, (if held > n then (do Py.remove p; return 0) else return held : Py Nat).Uses A
      Exn.Reported := by
    intro held
    split
    · exact Proc.uses_bind (call_uses hpriv (o := .fs (.unlink p)) ⟨nofun, nofun⟩ id) fun _ => trivial
    · trivial
  dsimp only
  split
  · exact Proc.uses_bind (getsize_uses hpriv p) hrest
  · exact hrest 0

end Uses

/-! ## Assertions -/

section Assertions

variable {P : List Call → Sys → Prop} {I : List Call → Prop} {A : Sys → Prop} {tr : List Call}
  {α β : Type}

/-- A piece of a handler asserts `P`; when it raises, then what is reported, and `I` holds of what
has been done. -/
def Meets (P : List Call → Sys → Prop) (I : List Call → Prop) (p : Py α) (Q : α → List Call → Prop)
    (tr : List Call) : Prop :=
  p.wp (Call.env P) Q (fun e tr => e.Reported ∧ I tr) tr

theorem meets_bind {p : Py α} {f : α → Py β} {Q : β → List Call → Prop} :
    Meets P I (p >>= f) Q tr ↔ Meets P I p (fun a tr => Meets P I (f a) Q tr) tr := Proc.wp_bind

theorem Meets.mono {p : Py α} {Q Q' : α → List Call → Prop} (h : Meets P I p Q tr)
    (hQ : ∀ a tr, Q a tr → Q' a tr) : Meets P I p Q' tr :=
  Proc.wp_mono h hQ fun _ _ he => he

/-- A piece that does only what is allowed at any time from now on. -/
theorem meets_of_uses {p : Py α} (hA : ∀ tr o, I tr → A o → P tr o)
    (hI : ∀ o a tr, A o → I tr → I (⟨o, a⟩ :: tr)) (hp : p.Uses A Exn.Reported) (htr : I tr) :
    Meets P I p (fun _ tr' => I tr' ∧ ∃ new, tr' = new ++ tr) tr := by
  have hmain : ∀ new, I (new ++ tr) →
      Meets P I p (fun _ tr' => I tr' ∧ ∃ new, tr' = new ++ tr) (new ++ tr) := by
    induction p with
    | done a => exact fun new hnew => ⟨hnew, new, rfl⟩
    | raise e => exact fun new hnew => ⟨hp, hnew⟩
    | call o k ih =>
      refine fun new hnew => ⟨hA _ o hnew hp.1, ?_⟩
      rintro a tr' rfl
      exact ih a (hp.2 a) (⟨o, a⟩ :: new) (hI o a _ hp.1 hnew)
  exact hmain [] htr

/-- The `except` clauses after the handler. -/
theorem Meets.asserts {p : Py Bool} {Q : Bool → List Call → Prop} (h : Meets P I p Q tr)
    (hA : ∀ tr o, I tr → A o → P tr o) (hI : ∀ o a tr, A o → I tr → I (⟨o, a⟩ :: tr))
    (hreply : ∀ reason b, reason = E_MALFORMED ∨ reason = E_INTERNAL → IsErrorFrame reason b →
      A (.send b)) : Asserts P (fun _ => True) p tr := by
  refine Proc.wp_mono h (fun _ _ _ => trivial) ?_
  rintro e tr ⟨he, htr⟩
  exact Proc.wp_mono (meets_of_uses hA hI (onError_uses hreply he) htr) (fun _ _ _ => trivial)
    fun _ _ _ => trivial

/-- An assertion about requests of another kind. -/
theorem asserts_trivial {R : List Call → Prop} (h : ∀ tr o, P tr o) (hR : ∀ tr, R tr) (p : Py Bool) :
    Asserts P R p tr := by
  have hmain : ∀ {γ : Type} (q : Py γ) (Q : γ → List Call → Prop) (E : Exn → List Call → Prop)
      (tr : List Call), (∀ a tr, Q a tr) → (∀ e tr, E e tr) → q.wp (Call.env P) Q E tr := by
    intro γ q Q E tr hQ hE
    induction q generalizing tr with
    | done a => exact hQ a tr
    | raise e => exact hE e tr
    | call o k ih => exact ⟨h tr o, fun a tr' _ => ih a tr'⟩
  exact hmain p _ _ tr (fun _ => hR) fun e tr => hmain (onError e) _ _ tr (fun _ => hR) fun _ => hR

end Assertions

/-! ## PUT -/

/-- The answer says that the name is taken. -/
def Call.ShowsTaken (n : Bytes) : Call → Prop
  | ⟨.fs (.stat p), some _⟩ => p = n
  | ⟨.fs (.link _ d), .error .fileExists⟩ => d = n
  | _ => False

theorem isErrorFrame_taken : IsErrorFrame E_ALREADY_EXISTS takenFrame :=
  ⟨_, encode_short (by decide), rfl⟩

theorem isErrorFrame_absent : IsErrorFrame E_NOT_FOUND absentFrame :=
  ⟨_, encode_short (by decide), rfl⟩

/-- `os.link` has succeeded. -/
def Call.Published : Call → Prop
  | ⟨.fs (.link _ _), .ok ()⟩ => True
  | _ => False

/-- Nothing has been published. -/
def Unpublished (tr : List Call) : Prop := ∀ c ∈ tr, ¬ c.Published

/-- A name is called taken only after it has been seen to be, by a request that has published
nothing. -/
def TakenSeen (n : Bytes) (tr : List Call) (o : Sys) : Prop :=
  o = .send takenFrame → (∃ c ∈ tr, c.ShowsTaken n) ∧ Unpublished tr

section Put

variable {n : Bytes} {tr : List Call} {α : Type}

/-- An ERROR frame with another reason. -/
theorem send_ne_taken {reason : UInt8} {b : Bytes} (hr : reason ≠ E_ALREADY_EXISTS)
    (hb : IsErrorFrame reason b) : Sys.send b ≠ .send takenFrame := by
  rintro ⟨⟩
  exact hr (hb.reason_eq isErrorFrame_taken)

/-- What a PUT asserts. -/
abbrev PutMeets (n : Bytes) (p : Py α) (tr : List Call) : Prop :=
  Meets (TakenSeen n) (fun _ => True) p (fun _ _ => True) tr

/-- The operation is neither the link nor says that the name is taken. -/
def Sys.Preparing (o : Sys) : Prop := o ≠ .send takenFrame ∧ ∀ p q, o ≠ .fs (.link p q)

theorem Sys.Private.preparing (o : Sys) (ho : o.Private) : o.Preparing := ⟨ho.1 takenFrame, ho.2⟩

theorem Unpublished.cons {o : Sys} (a : o.Ans) (ho : o.Preparing) (h : Unpublished tr) :
    Unpublished (⟨o, a⟩ :: tr) := by
  intro c hc
  rcases List.mem_cons.mp hc with rfl | hc
  · intro hpub
    unfold Call.Published at hpub
    split at hpub
    · next p q heq =>
      cases heq
      exact ho.2 p q rfl
    · exact hpub
  · exact h c hc

/-- A piece before the link, and what follows it. -/
theorem preparing_bind {β : Type} {p : Py α} {f : α → Py β} (htr : Unpublished tr)
    (hp : p.Uses Sys.Preparing Exn.Reported)
    (hf : ∀ a tr', Unpublished tr' → PutMeets n (f a) tr') : PutMeets n (p >>= f) tr := by
  refine meets_bind.mpr (Proc.wp_mono
    (meets_of_uses (A := Sys.Preparing) (I := Unpublished) ?_ ?_ hp htr) ?_ ?_)
  · exact fun tr o _ ho h => absurd h ho.1
  · exact fun o a tr ho h => h.cons a ho
  · exact fun a tr' h => hf a tr' h.1
  · exact fun e tr' h => ⟨h.1, trivial⟩

/-- A piece that does not say that the name is taken. -/
theorem meets_unsaid {p : Py α} (hp : p.Uses (· ≠ .send takenFrame) Exn.Reported) :
    PutMeets n p tr :=
  (meets_of_uses (A := (· ≠ .send takenFrame)) (fun _ _ _ ho h => absurd h ho)
    (fun _ _ _ _ _ => trivial) hp trivial).mono fun _ _ _ => trivial

theorem sendError_unsaid {reason : UInt8} {m : Text} (hr : reason ≠ E_ALREADY_EXISTS) :
    PutMeets n (sendError reason m) tr :=
  meets_unsaid (sendError_uses fun _ => send_ne_taken hr)

/-- It is said with a reason. -/
theorem meets_taken (h : ∃ c ∈ tr, c.ShowsTaken n) (htr : Unpublished tr) :
    PutMeets n (sendError E_ALREADY_EXISTS "file already exists on server".toList) tr := by
  rw [sendError_eq (encode_short (by decide))]
  refine Py.wp_sendall.mpr ⟨fun _ => ⟨h, htr⟩, ?_⟩
  rintro a tr' rfl
  cases a with
  | ok => trivial
  | error e => exact ⟨Exn.reported_sys e, trivial⟩

theorem unlink_uses {A : Sys → Prop} (hA : ∀ o, Sys.Private o → A o) (p : Bytes) :
    (Py.remove p).Uses A Exn.Reported := call_uses hA (o := .fs (.unlink p)) ⟨nofun, nofun⟩ id

theorem publish_seen (p : Bytes) (htr : Unpublished tr) : PutMeets n (publish n p) tr := by
  unfold publish
  refine preparing_bind htr (call_uses Sys.Private.preparing (o := .fs (.openRb p)) ⟨nofun, nofun⟩ id)
    fun f tr htr => ?_
  refine preparing_bind htr (call_uses Sys.Private.preparing (Sys.private_read f 0 8) id)
    fun _ tr htr => ?_
  refine meets_bind.mpr (Proc.wp_tryCatch.mpr ?_)
  refine Proc.wp_bind.mpr (Proc.wp_bind.mpr (Proc.wp_perform.mpr ⟨nofun, ?_⟩))
  rintro a tr' rfl
  cases a with
  | ok =>
    refine meets_unsaid (Proc.uses_bind (unlink_uses (fun o ho => ho.1 takenFrame) p) fun _ => ?_)
    rw [writeFrame_eq (by decide)]
    apply sendall_uses
    intro h
    exact isErrorFrame_taken.ne_okFrame (Sys.send.inj h).symm
  | error e =>
    cases e with
    | fileExists =>
      have hlink : Unpublished (⟨.fs (.link p n), .error .fileExists⟩ :: tr) := by
        intro c hc
        rcases List.mem_cons.mp hc with rfl | hc
        · exact id
        · exact htr c hc
      refine meets_bind.mpr (Proc.wp_mono (meets_of_uses (A := Sys.Preparing)
        (I := fun tr => Unpublished tr ∧ ∃ c ∈ tr, c.ShowsTaken n) ?_ ?_
        (unlink_uses Sys.Private.preparing p) ⟨hlink, _, List.mem_cons_self, rfl⟩) ?_ ?_)
      · exact fun tr o _ ho h => absurd h ho.1
      · rintro o a tr ho ⟨htr, c, hc, hshow⟩
        exact ⟨htr.cons a ho, c, List.mem_cons_of_mem _ hc, hshow⟩
      · exact fun a tr' h => meets_taken h.1.2 h.1.1
      · exact fun e tr' h => ⟨h.1, trivial⟩
    | _ => exact ⟨Exn.reported_sys _, trivial⟩

theorem receiveUpload_seen (p : Bytes) (fileSize : Nat) (digest : Bytes) (htr : Unpublished tr) :
    PutMeets n (receiveUpload n p fileSize digest) tr := by
  have hpriv := Sys.Private.preparing
  unfold receiveUpload
  refine preparing_bind htr (resumeOffset_uses hpriv p fileSize) fun offset tr htr => ?_
  refine preparing_bind htr (toBytes_reported 8 offset) fun offset8 tr htr => ?_
  refine preparing_bind htr (writeFrame_uses ⟨?_, nofun⟩) fun _ tr htr => ?_
  · intro h
    exact absurd (frameBytes_type (Sys.send.inj h)) (by decide)
  refine preparing_bind htr (call_uses hpriv (o := .fs (.openAb p)) ⟨nofun, nofun⟩ id)
    fun out tr htr => ?_
  refine preparing_bind htr (receiveBody_uses hpriv _ _ _ _) fun _ tr htr => ?_
  refine preparing_bind htr (sha256File_uses hpriv p) fun d tr htr => ?_
  split
  · exact preparing_bind htr (unlink_uses hpriv p) fun _ tr _ => sendError_unsaid (by decide)
  · exact publish_seen p htr

theorem handlePut_seen {payload : Bytes} {u : PutRequest} (hp : parsePut payload = .ok u) :
    PutMeets u.path (handlePut payload) [] := by
  unfold handlePut
  simp only [hp, Proc.ofExcept_ok, Proc.done_bind]
  split
  · exact sendError_unsaid (by decide)
  split
  · exact sendError_unsaid (by decide)
  have hstat : ∀ st, Unpublished [⟨.fs (.stat u.path), st⟩] := by
    intro st c hc
    obtain rfl := List.mem_singleton.mp hc
    exact id
  refine meets_bind.mpr (meets_bind.mpr (Proc.wp_perform.mpr ⟨nofun, ?_⟩))
  rintro st tr' rfl
  cases st with
  | some st => exact meets_taken ⟨_, List.mem_cons_self, rfl⟩ (hstat _)
  | none =>
    refine meets_bind.mpr (Proc.wp_perform.mpr ⟨nofun, ?_⟩)
    rintro b tr' rfl
    cases b with
    | false =>
      -- the other message of the same reason
      apply meets_unsaid
      rw [sendError_eq (encode_short (by decide))]
      refine sendall_uses fun h => ?_
      have hlen := congrArg List.length (Sys.send.inj h)
      revert hlen
      decide
    | true =>
      have htr : Unpublished [⟨.reserve u.partialPath, true⟩, ⟨.fs (.stat u.path), none⟩] :=
        (hstat none).cons (o := .reserve u.partialPath) true ⟨nofun, nofun⟩
      refine Proc.wp_ensure.mpr (Proc.wp_mono (receiveUpload_seen u.partialPath u.fileSize u.digest htr)
        (fun _ _ _ => ⟨nofun, fun _ _ _ => trivial⟩) ?_)
      rintro e tr he
      exact ⟨nofun, fun _ _ _ => he⟩

/-- **A PUT is told that its name is taken only after it has been seen to be.** -/
theorem put_asserts (r : Request) :
    Asserts (fun tr o => ∀ u, uploadOf r = some u → TakenSeen u.path tr o) (fun _ => True)
      (dispatch r.2) [] := by
  cases hu : uploadOf r with
  | none => exact asserts_trivial (by rintro tr o u ⟨⟩) (fun _ => trivial) _
  | some u =>
    have hP : (fun tr o => ∀ u', some u = some u' → TakenSeen u'.path tr o) = TakenSeen u.path := by
      funext tr o
      simp
    rw [hP]
    obtain ⟨ht, hp⟩ : r.2.type = T_PUT ∧ parsePut r.2.payload = .ok u := by
      unfold uploadOf at hu
      split at hu
      · next ht =>
        cases hp : parsePut r.2.payload with
        | error e =>
          rw [hp] at hu
          cases hu
        | ok u' =>
          rw [hp] at hu
          cases hu
          exact ⟨ht, rfl⟩
      · cases hu
    have hd : dispatch r.2 = handlePut r.2.payload >>= fun _ => pure true := by
      simp only [dispatch, ht, if_neg (show T_PUT ≠ T_QUIT by decide),
        if_neg (show T_PUT ≠ T_LIST by decide), if_neg (show T_PUT ≠ T_GET by decide), if_true]
    rw [hd]
    have hmeets : PutMeets u.path (handlePut r.2.payload >>= fun _ => pure true) [] :=
      meets_bind.mpr ((handlePut_seen hp).mono fun _ _ _ => trivial)
    refine hmeets.asserts (A := (· ≠ .send takenFrame)) (fun tr o _ ho h => absurd h ho)
      (fun _ _ _ _ _ => trivial) fun reason b hreason => send_ne_taken ?_
    rcases hreason with rfl | rfl <;> decide

end Put

/-! ## GET -/

/-- The download a GET frame asks for, when its name passes the check. -/
def fetchOf (r : Request) : Option GetRequest :=
  if r.2.type = T_GET then
    (parseGet r.2.payload).toOption.filter fun g => checkFilename g.name
  else none

theorem fetchOf_eq_some {r : Request} {g : GetRequest} : fetchOf r = some g ↔
    r.2.type = T_GET ∧ parseGet r.2.payload = .ok g ∧ checkFilename g.name = true := by
  unfold fetchOf
  by_cases ht : r.2.type = T_GET
  · rw [if_pos ht, Option.filter_eq_some_iff]
    cases parseGet r.2.payload with
    | error e => simp [Except.toOption]
    | ok g' =>
      simp only [Except.toOption, Option.some.injEq, Except.ok.injEq, ht, true_and]
  · rw [if_neg ht]
    simp [ht]

theorem dispatch_fetch {r : Request} {g : GetRequest} (h : fetchOf r = some g) :
    dispatch r.2 = handleGet r.2.payload >>= fun _ => pure true := by
  simp only [dispatch, (fetchOf_eq_some.mp h).1, if_neg (show T_GET ≠ T_QUIT by decide),
    if_neg (show T_GET ≠ T_LIST by decide), if_true]

/-- The first look at the name, before which nothing is done. -/
def Looked (N : Bytes) (a : Option Stat) (tr : List Call) : Prop :=
  tr.getLast? = some ⟨.fs (.stat N), a⟩

/-- Something has been sent. -/
def Spoke (tr : List Call) : Prop := ∃ c ∈ tr, ∃ b, c.1 = .send b

/-- A GET begins with a look at its name; what it says first depends on what it has seen. -/
structure GetSeen (N : Bytes) (tr : List Call) (o : Sys) : Prop where
  first : tr = [] → o = .fs (.stat N)
  reply : ∀ b, o = .send b → ¬ Spoke tr → ∃ a, Looked N a tr ∧
    (a.any Stat.isReg = false → b = absentFrame) ∧
    (a.any Stat.isReg = true → okFront <+: b ∨ ∃ reason, reason ≠ E_NOT_FOUND ∧ IsErrorFrame reason b)

section Get

variable {N : Bytes} {tr : List Call} {α β : Type}

theorem Looked.ne_nil {a : Option Stat} (h : Looked N a tr) : tr ≠ [] := by
  rintro rfl
  cases h

theorem Looked.cons {a : Option Stat} (h : Looked N a tr) (c : Call) : Looked N a (c :: tr) := by
  unfold Looked
  rw [List.getLast?_cons, show tr.getLast? = _ from h]
  rfl

theorem Spoke.cons (h : Spoke tr) (c : Call) : Spoke (c :: tr) := by
  obtain ⟨c', hc', hb⟩ := h
  exact ⟨c', List.mem_cons_of_mem _ hc', hb⟩

/-- The name has been seen to be a file, or the reply is on its way. -/
def Replying (N : Bytes) (tr : List Call) : Prop :=
  ∃ a, Looked N a tr ∧ (a.any Stat.isReg = true ∨ Spoke tr)

theorem Replying.cons (h : Replying N tr) (c : Call) : Replying N (c :: tr) := by
  obtain ⟨a, hl, ha⟩ := h
  exact ⟨a, hl.cons c, ha.imp_right (·.cons c)⟩

/-- What a reply may begin with once the name has been seen to be a file. -/
def Sys.OpensReply (o : Sys) : Prop :=
  ∀ b, o = .send b → okFront <+: b ∨ ∃ reason, reason ≠ E_NOT_FOUND ∧ IsErrorFrame reason b

theorem Replying.may (h : Replying N tr) {o : Sys} (ho : Sys.OpensReply o) : GetSeen N tr o := by
  obtain ⟨a, hl, ha⟩ := h
  refine ⟨fun h => absurd h hl.ne_nil, fun b hb hs => ⟨a, hl, fun hf => ?_, fun _ => ho b hb⟩⟩
  rcases ha with ha | ha
  · rw [ha] at hf
    cases hf
  · exact absurd ha hs

theorem Spoke.may (h : Replying N tr) (hs : Spoke tr) (o : Sys) : GetSeen N tr o :=
  ⟨fun hnil => absurd hnil h.choose_spec.1.ne_nil, fun _ _ h => absurd hs h⟩

/-- What a GET asserts from its first look on. -/
abbrev GetMeets (N : Bytes) (p : Py α) (tr : List Call) : Prop :=
  Meets (GetSeen N) (Replying N) p (fun _ _ => True) tr

theorem beginning_bind {p : Py α} {f : α → Py β} (hp : p.Uses Sys.OpensReply Exn.Reported)
    (htr : Replying N tr) (hf : ∀ a tr, Replying N tr → GetMeets N (f a) tr) :
    GetMeets N (p >>= f) tr := by
  refine meets_bind.mpr ((meets_of_uses (fun tr o h ho => h.may ho) (fun o a tr _ h => h.cons _) hp htr).mono
    fun a tr' h => hf a tr' h.1)

/-- The rest of a reply that has begun. -/
theorem meets_spoken {p : Py α} (hp : p.Uses (fun _ => True) Exn.Reported) (htr : Replying N tr)
    (hs : Spoke tr) : GetMeets N p tr := by
  have h := meets_of_uses (P := GetSeen N) (I := fun tr => Replying N tr ∧ Spoke tr)
    (fun tr o h _ => h.2.may h.1 o) (fun o a tr _ h => ⟨h.1.cons _, h.2.cons _⟩) hp ⟨htr, hs⟩
  exact Proc.wp_mono h (fun _ _ _ => trivial) fun e tr h => ⟨h.1, h.2.1⟩

theorem meets_say {b : Bytes} {f : Unit → Py β} (hb : GetSeen N tr (.send b))
    (hlook : ∃ a, Looked N a tr)
    (hf : ∀ tr', Replying N tr' → Spoke tr' → GetMeets N (f ()) tr') :
    GetMeets N (Py.sendall b >>= f) tr := by
  have hspoke : ∀ a, Spoke (⟨.send b, a⟩ :: tr) := fun a =>
    ⟨_, List.mem_cons_self, b, rfl⟩
  obtain ⟨a₀, hlook⟩ := hlook
  have hnext : ∀ a, Replying N (⟨.send b, a⟩ :: tr) := fun a => ⟨a₀, hlook.cons _, .inr (hspoke a)⟩
  refine meets_bind.mpr (Py.wp_sendall.mpr ⟨hb, ?_⟩)
  rintro a tr' rfl
  cases a with
  | ok => exact hf _ (hnext _) (hspoke _)
  | error e => exact ⟨Exn.reported_sys e, hnext _⟩

theorem Sys.Private.opensReply (o : Sys) (ho : o.Private) : o.OpensReply := fun b hb =>
  absurd hb (ho.1 b)

theorem sendBody_uses (f fuel pos remaining : Nat) :
    (sendBody f fuel pos remaining).Uses (fun _ => True) Exn.Reported := by
  induction fuel generalizing pos remaining with
  | zero => trivial
  | succ fuel ih =>
    rw [sendBody]
    split
    · refine Proc.uses_bind (call_uses (fun _ _ => trivial) (Sys.private_read _ _ _) id) fun c => ?_
      split
      · trivial
      · exact Proc.uses_bind (sendall_uses trivial) fun _ => ih _ _
    · trivial

theorem serveFile_seen (offset : Nat) (token : Bytes) (htr : Replying N tr) :
    GetMeets N (serveFile N offset token) tr := by
  unfold serveFile
  refine beginning_bind (getsize_uses Sys.Private.opensReply N) htr fun size tr htr => ?_
  split
  · exact ⟨by rintro reason m ⟨⟩; rfl, htr⟩
  refine beginning_bind (sha256File_uses Sys.Private.opensReply N) htr fun digest tr htr => ?_
  dsimp only
  by_cases hlen : GET_META + (size - startOffset offset token digest) < 256 ^ 8
  · rw [writeFrameHeader_eq hlen]
    refine meets_say (htr.may ?_) ⟨_, htr.choose_spec.1⟩ fun tr htr hs => ?_
    · rintro b ⟨⟩
      exact .inl (List.prefix_append _ _)
    · refine meets_spoken ?_ htr hs
      refine Proc.uses_bind (toBytes_reported _ _) fun _ => ?_
      refine Proc.uses_bind (toBytes_reported _ _) fun _ => ?_
      refine Proc.uses_bind (sendall_uses trivial) fun _ => ?_
      refine Proc.uses_bind (call_uses (fun _ _ => trivial) (o := .fs (.openRb N)) ⟨nofun, nofun⟩ id)
        fun f => ?_
      exact sendBody_uses _ _ _ _
  · have hh : frameHeader T_OK (GET_META + (size - startOffset offset token digest)) =
        .error .overflowError := by
      rw [frameHeader, toBytes, if_neg hlen]
      rfl
    simp only [writeFrameHeader, hh, Proc.ofExcept_error, Proc.raise_bind]
    exact ⟨by rintro reason m ⟨⟩, htr⟩

theorem handleGet_seen {payload : Bytes} {g : GetRequest} (hp : parseGet payload = .ok g)
    (hname : checkFilename g.name = true) : GetMeets (encode g.name) (handleGet payload) [] := by
  unfold handleGet
  simp only [hp, Proc.ofExcept_ok, Proc.done_bind, hname, Bool.true_eq_false, if_false]
  refine meets_bind.mpr (meets_bind.mpr (Proc.wp_perform.mpr ⟨⟨fun _ => rfl, nofun⟩, ?_⟩))
  rintro st tr' rfl
  have hlook : Looked (encode g.name) st [⟨.fs (.stat (encode g.name)), st⟩] := rfl
  show GetMeets _ (if st.any Stat.isReg = false then _ else _) _
  cases hst : st.any Stat.isReg with
  | false =>
    rw [if_pos rfl, sendError_eq (encode_short (by decide)), ← bind_pure (Py.sendall _)]
    refine meets_say ⟨nofun, ?_⟩ ⟨st, hlook⟩ fun _ _ _ => trivial
    rintro b ⟨⟩ -
    refine ⟨st, hlook, fun _ => rfl, fun h => ?_⟩
    rw [hst] at h
    cases h
  | true =>
    rw [if_neg (by simp)]
    exact serveFile_seen _ _ ⟨st, hlook, .inl hst⟩

/-- **A GET looks at its name first, and its reply is about what it has seen.** -/
theorem get_asserts (r : Request) :
    Asserts (fun tr o => ∀ g, fetchOf r = some g → GetSeen (encode g.name) tr o) (fun _ => True)
      (dispatch r.2) [] := by
  cases hg : fetchOf r with
  | none => exact asserts_trivial (by rintro tr o g ⟨⟩) (fun _ => trivial) _
  | some g =>
    obtain ⟨-, hp, hname⟩ := fetchOf_eq_some.mp hg
    have hP : (fun tr o => ∀ g', some g = some g' → GetSeen (encode g'.name) tr o) =
        GetSeen (encode g.name) := by
      funext tr o
      simp
    rw [hP, dispatch_fetch hg]
    have hmeets : GetMeets (encode g.name) (handleGet r.2.payload >>= fun _ => pure true) [] :=
      meets_bind.mpr ((handleGet_seen hp hname).mono fun _ _ _ => trivial)
    refine hmeets.asserts (fun tr o h ho => h.may ho) (fun o a tr _ h => h.cons _) ?_
    rintro reason b hreason hb b' ⟨⟩
    refine .inr ⟨reason, ?_, hb⟩
    rcases hreason with rfl | rfl <;> decide

end Get

/-! ### The bytes of a reply -/

/-- The states an environment can be in after the operations of a transcript. -/
def Call.Leads {S : Type} (env : Proc.Env Sys Sys.Ans S) (s₀ : S) : List Call → S → Prop
  | [], s => s = s₀
  | ⟨o, a⟩ :: tr, s => ∃ s', Call.Leads env s₀ tr s' ∧ env.gives s' o a s

/-- What holds by `wp` holds of every transcript that the environment can have given rise to. -/
theorem wp_leads {S α : Type} {env : Proc.Env Sys Sys.Ans S} {s₀ : S} {p : Py α}
    {Q : α → S → Prop} {E : Exn → S → Prop} {tr : List Call}
    (h : ∀ s, Call.Leads env s₀ tr s → p.wp env Q E s) :
    p.wp (Call.env fun tr o => ∀ s, Call.Leads env s₀ tr s → env.may s o)
      (fun a tr => ∀ s, Call.Leads env s₀ tr s → Q a s)
      (fun e tr => ∀ s, Call.Leads env s₀ tr s → E e s) tr := by
  induction p generalizing tr with
  | done a => exact h
  | raise e => exact h
  | call o k ih =>
    refine ⟨fun s hs => (h s hs).1, ?_⟩
    rintro a tr' rfl
    apply ih
    rintro s ⟨s', hs', hgives⟩
    exact (h s' hs').2 a s hgives

/-- **The reply to a GET that sees one content.** -/
theorem get_view_asserts (r : Request) :
    Asserts (fun tr o => ∀ g, fetchOf r = some g →
        ∀ v, Call.Leads (View.env (encode g.name) g.Underway) .fresh tr v →
          g.Underway v ∧ View.May (encode g.name) v o)
      (fun tr => ∀ g, fetchOf r = some g →
        ∀ v, Call.Leads (View.env (encode g.name) g.Underway) .fresh tr v → g.Served v)
      (dispatch r.2) [] := by
  cases hg : fetchOf r with
  | none => exact asserts_trivial (by rintro tr o g ⟨⟩) (by rintro tr g ⟨⟩) _
  | some g =>
    obtain ⟨-, hp, hname⟩ := fetchOf_eq_some.mp hg
    simp only [Option.some.injEq, forall_eq']
    rw [dispatch_fetch hg]
    have hwp : ∀ v, Call.Leads (View.env (encode g.name) g.Underway) .fresh [] v →
        (handleGet r.2.payload >>= fun _ => pure true).wp (View.env (encode g.name) g.Underway)
          (fun _ v => g.Served v) GetRequest.Refused v := by
      rintro v rfl
      exact Proc.wp_bind.mpr (handleGet_wp hp rfl)
    refine Proc.wp_mono (wp_leads hwp) (fun _ _ h => h) fun e tr he => ?_
    -- a refusal that is raised is sent by `handle_client`
    refine wp_leads (Q := fun _ v => g.Served v) (E := fun _ v => g.Served v) fun v hv => ?_
    obtain ⟨hs, m, hm, rfl⟩ := he v hv
    exact View.wp_sendError (.inl hs) hs hm fun v' h => .inl ⟨_, h⟩

/-! ## LIST -/

/-- A LIST begins with a look at the directory, and an OK reply is the list of the names it has
seen. -/
structure ListSeen (tr : List Call) (o : Sys) : Prop where
  first : tr = [] → o = .fs (.listdir [Os.DOT])
  reply : ∀ b, o = .send b → okFront <+: b →
    ∃ ns, tr.getLast? = some ⟨.fs (.listdir [Os.DOT]), .ok ns⟩ ∧ b = frameBytes T_OK (joinNul ns)

/-- Names go out as they are, or not at all. -/
theorem mapM_encodePath (ns : List Bytes) :
    ns.mapM encodePath = .ok ns ∨ ns.mapM encodePath = .error .unicodeError := by
  induction ns with
  | nil => exact .inl rfl
  | cons n ns ih =>
    have hn : encodePath n = .ok n ∨ encodePath n = .error .unicodeError := by
      unfold encodePath
      split
      · exact .inl rfl
      · exact .inr rfl
    rw [List.mapM_cons]
    rcases hn with hn | hn
    · rw [hn]
      rcases ih with ih | ih
      · rw [ih]
        exact .inl rfl
      · rw [ih]
        exact .inr rfl
    · rw [hn]
      exact .inr rfl

section List

variable {tr : List Call}

/-- An ERROR frame is no OK frame. -/
theorem ListSeen.error (h : tr ≠ []) {reason : UInt8} {b : Bytes} (hb : IsErrorFrame reason b) :
    ListSeen tr (.send b) :=
  ⟨fun hnil => absurd hnil h, by rintro b' ⟨⟩ hok; exact absurd hok hb.not_ok⟩

theorem handleList_seen : Meets ListSeen (· ≠ []) handleList (fun _ _ => True) [] := by
  unfold handleList
  refine meets_bind.mpr (Proc.wp_bind.mpr (Proc.wp_perform.mpr ⟨⟨fun _ => rfl, nofun⟩, ?_⟩))
  rintro a tr' rfl
  cases a with
  | error e => exact ⟨Exn.reported_sys e, nofun⟩
  | ok ns =>
    show Meets ListSeen (· ≠ []) (Proc.ofExcept (ns.mapM encodePath) >>= fun ms =>
      writeFrame T_OK (joinNul ms)) (fun _ _ => True) _
    rcases mapM_encodePath ns with hms | hms
    · rw [hms]
      simp only [Proc.ofExcept_ok, Proc.done_bind]
      by_cases hlen : (joinNul ns).length < 256 ^ 8
      · rw [writeFrame_eq hlen]
        refine Py.wp_sendall.mpr ⟨⟨nofun, ?_⟩, ?_⟩
        · rintro b ⟨⟩ -
          exact ⟨ns, rfl, rfl⟩
        · rintro a tr' rfl
          cases a with
          | ok => trivial
          | error e => exact ⟨Exn.reported_sys e, nofun⟩
      · have hh : frameHeader T_OK (joinNul ns).length = .error .overflowError := by
          rw [frameHeader, toBytes, if_neg hlen]
          rfl
        simp only [writeFrame, hh, Proc.ofExcept_error, Proc.raise_bind]
        exact ⟨by rintro reason m ⟨⟩, nofun⟩
    · rw [hms]
      exact ⟨by rintro reason m ⟨⟩, nofun⟩

/-- **A LIST looks at the directory first, and its reply is what it has seen.** -/
theorem list_asserts (r : Request) :
    Asserts (fun tr o => r.2.type = T_LIST → ListSeen tr o) (fun _ => True) (dispatch r.2) [] := by
  by_cases ht : r.2.type = T_LIST
  · have hd : dispatch r.2 = handleList >>= fun _ => pure true := by
      simp only [dispatch, ht, if_neg (show T_LIST ≠ T_QUIT by decide), if_true]
    have hP : (fun tr o => r.2.type = T_LIST → ListSeen tr o) = ListSeen := by
      funext tr o
      simp only [ht, forall_const]
    rw [hP, hd]
    have hmeets : Meets ListSeen (· ≠ []) (handleList >>= fun _ => pure true) (fun _ _ => True) [] :=
      meets_bind.mpr (handleList_seen.mono fun _ _ _ => trivial)
    refine hmeets.asserts (A := fun o => ∃ reason b, IsErrorFrame reason b ∧ o = .send b) ?_
      (fun _ _ _ _ _ => List.cons_ne_nil _ _) fun reason b _ hb => ⟨reason, b, hb, rfl⟩
    rintro tr o htr ⟨reason, b, hb, rfl⟩
    exact ListSeen.error htr hb
  · exact asserts_trivial (fun tr o h => absurd h ht) (fun _ => trivial) _

end List

end Retriever
