/-
# Retriever.Server.Dialogue — what a session hears and says

The bytes a session has received are a greeting, then frames, each followed by what its handler has read;
the pieces it has handed to `sendall` are the reply to the greeting and then the replies to the requests, in
order. This module follows a session from its greeting through its first request: what has been said before
the request is at most an OK and an ERROR, the request is what stands after the greeting in the bytes
received, and nothing is said after its replies before its handler has come to its end
(`Server.Run.story`). What a handler says is a parameter: `next` is what it may say after what it has said,
`Complete` how much that is when it ends.
-/
import Retriever.Codec
import Retriever.Server.Replies

namespace Retriever

variable {T : Type}

/-! ## Heard and said -/

/-- The piece that an operation hands to `sendall`. -/
def Sys.pieces : Sys → List Bytes
  | .send b => [b]
  | .recv _ | .fs _ | .reserve _ | .discard _ => []

/-- The bytes that an operation has brought. -/
def Sys.brought : (o : Sys) → o.Ans → Bytes
  | .recv _, .ok c => c
  | _, _ => []

/-- A `sendall` that has failed. -/
def Sys.drops : (o : Sys) → o.Ans → Bool
  | .send _, .error _ => true
  | _, _ => false

/-- A `recv` brings no more than it is asked for. -/
def Sys.Fits : (o : Sys) → o.Ans → Prop
  | .recv n, .ok c => c.length ≤ n
  | _, _ => True

/-- What has been heard, and the pieces that have been said. -/
structure Talk where
  heard : Bytes
  said : List Bytes

/-- A program that says only what `next` allows after what has been said. -/
def Talk.env (next : List Bytes → Bytes → Prop) : Proc.Env Sys Sys.Ans Talk where
  may x o := ∀ b, o = .send b → next x.said b
  gives x o a x' := o.Fits a ∧ x' = ⟨x.heard ++ o.brought a, x.said ++ o.pieces⟩

/-- Every piece was allowed when it was said. -/
def Told (next : List Bytes → Bytes → Prop) (l : List Bytes) : Prop :=
  ∀ l₁ b l₂, l = l₁ ++ b :: l₂ → next l₁ b

section Programs

variable {next : List Bytes → Bytes → Prop} {x : Talk} {α : Type}

theorem told_nil : Told next [] := by
  intro l₁ b l₂ h
  cases l₁ <;> cases h

theorem Told.append {l : List Bytes} {o : Sys} (h : Told next l) (ho : ∀ b, o = .send b → next l b) :
    Told next (l ++ o.pieces) := by
  intro l₁ b l₂ hl
  cases o with
  | send c =>
    rcases List.eq_nil_or_concat l₂ with rfl | ⟨l₂, d, rfl⟩
    · obtain ⟨rfl, hb⟩ := List.append_inj' hl rfl
      cases hb
      exact ho _ rfl
    · rw [List.concat_eq_append, ← List.cons_append, ← List.append_assoc] at hl
      exact h l₁ b l₂ (List.append_inj' hl rfl).1
  | recv | fs | reserve | discard =>
    rw [Sys.pieces, List.append_nil] at hl
    exact h l₁ b l₂ hl

theorem Talk.wp_sendall {b : Bytes} {Q : Unit → Talk → Prop} {E : Exn → Talk → Prop}
    (hmay : next x.said b) (hQ : Q () ⟨x.heard, x.said ++ [b]⟩)
    (hE : ∀ e, E (.sys e) ⟨x.heard, x.said ++ [b]⟩) : (Py.sendall b).wp (Talk.env next) Q E x := by
  refine Proc.wp_bind.mpr (Proc.wp_perform.mpr ⟨by rintro b' ⟨⟩; exact hmay, ?_⟩)
  rintro a x' ⟨-, rfl⟩
  rw [show Sys.brought (.send b) a = [] from rfl, List.append_nil]
  cases a with
  | ok u => exact hQ
  | error e => exact hE e

/-- A program that says nothing. -/
theorem Talk.wp_of_uses {p : Py α} {X : Exn → Prop} (hp : p.Uses (fun o => ∀ b, o ≠ .send b) X) :
    p.wp (Talk.env next) (fun _ x' => x'.said = x.said) (fun e x' => X e ∧ x'.said = x.said) x := by
  induction p generalizing x with
  | done a => rfl
  | raise e => exact ⟨hp, rfl⟩
  | call o k ih =>
    refine ⟨fun b hb => absurd hb (hp.1 b), ?_⟩
    rintro a x' ⟨-, rfl⟩
    have hquiet : o.pieces = [] := by
      cases o with
      | send b => exact absurd rfl (hp.1 b)
      | _ => rfl
    have h := ih a (x := ⟨x.heard ++ o.brought a, x.said ++ o.pieces⟩) (hp.2 a)
    simpa only [hquiet, List.append_nil] using h

/-- A program that may say anything. -/
theorem Talk.wp_free (h : ∀ l b, next l b) (p : Py α) (x : Talk) :
    p.wp (Talk.env next) (fun _ _ => True) (fun _ _ => True) x := by
  induction p generalizing x with
  | done | raise => trivial
  | call o k ih => exact ⟨fun b _ => h _ b, fun a x' _ => ih a x'⟩

theorem Talk.wp_sendError {reason : UInt8} {m : Text} {Q : Unit → Talk → Prop}
    {E : Exn → Talk → Prop} (hmay : ∀ b, IsErrorFrame reason b → next x.said b)
    (hQ : ∀ b, IsErrorFrame reason b → Q () ⟨x.heard, x.said ++ [b]⟩)
    (hE : ∀ b e, IsErrorFrame reason b → E (.sys e) ⟨x.heard, x.said ++ [b]⟩)
    (hlong : E .overflowError x) : (sendError reason m).wp (Talk.env next) Q E x := by
  by_cases hm : (encode m).length < 256 ^ 2
  · rw [sendError_eq hm]
    exact Talk.wp_sendall (hmay _ ⟨m, hm, rfl⟩) (hQ _ ⟨m, hm, rfl⟩) fun e => hE _ e ⟨m, hm, rfl⟩
  · have hp : packError reason m = .error .overflowError := by
      rw [packError, toBytes, if_neg hm]
      rfl
    simp only [sendError, hp, Proc.ofExcept_error, Proc.raise_bind]
    exact hlong

/-- The `except` clauses say an ERROR at most. -/
theorem Talk.wp_onError (hmay : ∀ reason b, IsErrorFrame reason b → next x.said b) (e : Exn) :
    (onError e).wp (Talk.env next) (fun _ _ => True) (fun _ _ => True) x := by
  have hsend : ∀ reason m, (sendError reason m).wp (Talk.env next) (fun _ _ => True)
      (fun _ _ => True) x := fun reason m =>
    Talk.wp_sendError (hmay reason) (fun _ _ => trivial) (fun _ _ _ => trivial) trivial
  unfold onError
  split
  · exact hsend _ _
  · trivial
  · trivial
  · exact hsend _ _

/-! ## Frames -/

theorem Talk.wp_readExactLoop {n fuel : Nat} {data : Bytes} {Q : Bytes → Talk → Prop}
    {E : Exn → Talk → Prop} (hn : data.length ≤ n) (hfuel : n ≤ data.length + fuel)
    (hQ : ∀ c, (data ++ c).length = n → Q (data ++ c) ⟨x.heard ++ c, x.said⟩)
    (hE : ∀ e h, E e ⟨h, x.said⟩) : (readExactLoop n fuel data).wp (Talk.env next) Q E x := by
  induction fuel generalizing data x with
  | zero =>
    have h := hQ [] (by rw [List.append_nil]; omega)
    rwa [List.append_nil, List.append_nil] at h
  | succ fuel ih =>
    rw [readExactLoop]
    split
    · next hlt =>
      refine Proc.wp_bind.mpr (Proc.wp_bind.mpr (Proc.wp_perform.mpr ⟨by rintro b ⟨⟩, ?_⟩))
      rintro a x' ⟨hfits, rfl⟩
      rw [show Sys.pieces (.recv (n - data.length)) = [] from rfl, List.append_nil]
      cases a with
      | error e => exact hE _ _
      | ok c =>
        have hle : c.length ≤ n - data.length := hfits
        show Proc.wp _ (if c = [] then _ else _) _ _ _
        split
        · exact hE _ _
        · next hne =>
          have hpos : 0 < c.length := List.length_pos_iff.mpr hne
          refine ih (by rw [List.length_append]; omega) (by rw [List.length_append]; omega) ?_ hE
          intro d hd
          have h := hQ (c ++ d) (by rw [← List.append_assoc]; exact hd)
          rwa [← List.append_assoc, ← List.append_assoc] at h
    · next hge =>
      have h := hQ [] (by rw [List.append_nil]; omega)
      rwa [List.append_nil, List.append_nil] at h

/-- A frame is read from the bytes that arrive. -/
theorem Talk.wp_readFrame {Q : Frame → Talk → Prop} {E : Exn → Talk → Prop}
    (hQ : ∀ f : Frame, f.payload.length < 256 ^ 8 →
      Q f ⟨x.heard ++ frameBytes f.type f.payload, x.said⟩)
    (hE : ∀ e h, E e ⟨h, x.said⟩) : readFrame.wp (Talk.env next) Q E x := by
  unfold readFrame readFrameHeader
  refine Proc.wp_bind.mpr (Proc.wp_bind.mpr (Talk.wp_readExactLoop (Nat.zero_le _)
    (by rw [List.length_nil]; omega) (fun header hlen => ?_) hE))
  rw [List.nil_append] at hlen ⊢
  cases hp : parseHeader header with
  | error e => exact hE _ _
  | ok tn =>
    obtain ⟨t, n⟩ := tn
    obtain ⟨hhead, hn, -⟩ := (parseHeader_eq_ok hlen).mp hp
    show Proc.wp _ (if _ then _ else _) _ _ _
    split
    · exact hE _ _
    have hread : ∀ data : Bytes, data.length = n →
        Q ⟨t, data⟩ ⟨(x.heard ++ header) ++ data, x.said⟩ := by
      intro data hdata
      have h := hQ ⟨t, data⟩ (by rw [hdata]; exact hn)
      rwa [frameBytes, hdata, ← hhead, ← List.append_assoc] at h
    dsimp only
    split
    · exact Proc.wp_bind.mpr (Talk.wp_readExactLoop (Nat.zero_le _) (by rw [List.length_nil]; omega)
        (fun data hdata => hread data hdata) hE)
    · next hzero =>
      have h := hread [] (by simpa using (not_not.mp hzero).symm)
      rw [List.append_nil] at h
      exact h

/-- The greeting says an OK, and otherwise an ERROR at most. -/
def GreetNext (l : List Bytes) (b : Bytes) : Prop :=
  (l = [] ∧ b = okFrame) ∨ ∃ reason, IsErrorFrame reason b

/-- A greeting has been heard, and the OK said. -/
def OpenedBy (x : Talk) : Prop := ∃ g : Bytes, g.length < 256 ^ 8 ∧ x = ⟨frameBytes T_HELLO g, [okFrame]⟩

theorem Talk.wp_greet :
    greet.wp (Talk.env GreetNext) (fun _ => OpenedBy) (fun _ _ => True) ⟨[], []⟩ := by
  refine Proc.wp_bind.mpr (Talk.wp_readFrame (fun f hf => ?_) fun _ _ => trivial)
  split
  · trivial
  · next ht =>
    rw [writeFrame_eq (by decide)]
    refine Talk.wp_sendall (.inl ⟨rfl, rfl⟩) ⟨f.payload, hf, ?_⟩ fun _ => trivial
    rw [not_not.mp ht]
    rfl

theorem Talk.wp_nextFrame : nextFrame.wp (Talk.env next)
    (fun r x' => x'.said = x.said ∧ ∀ f, r = some f → f.payload.length < 256 ^ 8 ∧
      x'.heard = x.heard ++ frameBytes f.type f.payload) (fun _ _ => True) x := by
  refine Proc.wp_tryCatch.mpr (Proc.wp_bind.mpr (Talk.wp_readFrame (fun f hf => ?_) fun e h => ?_))
  · refine ⟨rfl, ?_⟩
    rintro f' ⟨⟩
    exact ⟨hf, rfl⟩
  · split
    · exact ⟨rfl, by rintro f ⟨⟩⟩
    · trivial

end Programs

/-! ## A session -/

theorem IsErrorFrame.frame {reason : UInt8} {b : Bytes} (h : IsErrorFrame reason b) :
    ∃ t p, p.length < 256 ^ 8 ∧ b = frameBytes t p := by
  obtain ⟨m, hm, rfl⟩ := h
  refine ⟨T_ERROR, _, ?_, rfl⟩
  rw [errorPayload_length]
  omega

/-- A frame that starts where an ERROR starts is one. -/
theorem IsErrorFrame.type_eq {reason t : UInt8} {b p x y : Bytes} (h : IsErrorFrame reason b)
    (hp : p.length < 256 ^ 8) (hxy : b ++ x = frameBytes t p ++ y) : t = T_ERROR := by
  obtain ⟨m, hm, rfl⟩ := h
  exact (frameBytes_append_inj (by rw [errorPayload_length]; omega) hp hxy).1.symm

/-- Something that does not begin with an ERROR. -/
def NoError (x : Bytes) : Prop := x ≠ [] ∧ ∀ reason b, IsErrorFrame reason b → ¬ b <+: x

theorem noError_frame {t : UInt8} {p : Bytes} (hp : p.length < 256 ^ 8) (ht : t ≠ T_ERROR) (y : Bytes) :
    NoError (frameBytes t p ++ y) := by
  refine ⟨by simp [frameBytes, MAGIC], ?_⟩
  rintro reason b hb ⟨x, hx⟩
  exact ht (hb.type_eq hp hx)

section Log

variable [DecidableEq T] {t : T} {r : Request} {e : Event T} {past : List (Event T)}

/-- Everything a session has received. -/
def heard (t : T) : List (Event T) → Bytes
  | [] => []
  | e :: past => heard t past ++ if e.sid = t then e.op.brought e.ans else []

/-- The pieces a session has handed to `sendall`. -/
def said (t : T) : List (Event T) → List Bytes
  | [] => []
  | e :: past => said t past ++ if e.sid = t then e.op.pieces else []

/-- A `sendall` of the session has failed. -/
def broken (t : T) (log : List (Event T)) : Bool :=
  log.any fun e => decide (e.sid = t) && e.op.drops e.ans

/-- The pieces that can have got through to the client, the last of them in part. -/
def carried (t : T) : List (Event T) → List Bytes
  | [] => []
  | e :: past => carried t past ++ if e.sid = t ∧ broken t past = false then e.op.pieces else []

/-- The pieces of one request. -/
def pieces (t : T) (r : Request) : List (Event T) → List Bytes
  | [] => []
  | e :: past => pieces t r past ++ if e.Of t r then e.op.pieces else []

theorem heard_own (h : e.sid = t) : heard t (e :: past) = heard t past ++ e.op.brought e.ans := by
  rw [heard, if_pos h]

theorem said_own (h : e.sid = t) : said t (e :: past) = said t past ++ e.op.pieces := by
  rw [said, if_pos h]

theorem broken_own (h : e.sid = t) : broken t (e :: past) = (e.op.drops e.ans || broken t past) := by
  simp [broken, h]

theorem broken_other (h : e.sid ≠ t) : broken t (e :: past) = broken t past := by
  simp [broken, h]

theorem carried_own (h : e.sid = t) (hb : broken t past = false) :
    carried t (e :: past) = carried t past ++ e.op.pieces := by
  rw [carried, if_pos ⟨h, hb⟩]

theorem carried_broken (hb : broken t past = true) : carried t (e :: past) = carried t past := by
  simp [carried, hb]

theorem carried_other (h : e.sid ≠ t) : carried t (e :: past) = carried t past := by
  rw [carried, if_neg fun h' => h h'.1, List.append_nil]

theorem pieces_own (h : e.Of t r) : pieces t r (e :: past) = pieces t r past ++ e.op.pieces := by
  rw [pieces, if_pos h]

theorem heard_other (h : e.sid ≠ t) : heard t (e :: past) = heard t past := by
  rw [heard, if_neg h, List.append_nil]

theorem said_other (h : e.sid ≠ t) : said t (e :: past) = said t past := by
  rw [said, if_neg h, List.append_nil]

theorem pieces_other (h : ¬ e.Of t r) : pieces t r (e :: past) = pieces t r past := by
  rw [pieces, if_neg h, List.append_nil]

theorem pieces_eq_nil (h : ∀ e ∈ past, ¬ e.Of t r) : pieces t r past = [] := by
  induction past with
  | nil => rfl
  | cons e past ih =>
    rw [pieces_other (h e List.mem_cons_self)]
    exact ih fun e' he' => h e' (List.mem_cons_of_mem _ he')

/-- A request with no transcript has done nothing. -/
theorem not_of_transcript (h : transcript t r past = []) : ∀ e ∈ past, ¬ e.Of t r := by
  intro e he hof
  obtain ⟨later, past', rfl⟩ := List.append_of_mem he
  rw [transcript_append, transcript_own hof] at h
  exact List.cons_ne_nil _ _ (List.append_eq_nil_iff.mp h).2

omit [DecidableEq T] in
theorem Event.data_eq (e : Event T) : e.data = e.op.brought e.ans := by
  obtain ⟨sid, request, op, ans, os⟩ := e
  cases op with
  | recv n => cases ans <;> rfl
  | send | fs | reserve | discard => rfl

theorem received_own (h : e.Of t r) :
    received t r (e :: past) = received t r past ++ e.op.brought e.ans := by
  rw [received, if_pos h, Event.data_eq]

omit [DecidableEq T] in
theorem Event.out_eq (e : Event T) : e.out = e.op.pieces.flatten := by
  unfold Event.out
  cases e.op with
  | send b => exact (List.append_nil b).symm
  | recv | fs | reserve | discard => rfl

theorem replied_eq_pieces (t : T) (r : Request) (log : List (Event T)) :
    replied t r log = (pieces t r log).flatten := by
  induction log with
  | nil => rfl
  | cons e past ih =>
    rw [replied, pieces, List.flatten_append, ih]
    split
    · rw [Event.out_eq]
    · rfl

/-- As long as no `sendall` has failed, everything has got through. -/
theorem carried_eq {log : List (Event T)} (hb : broken t log = false) : carried t log = said t log := by
  induction log with
  | nil => rfl
  | cons e past ih =>
    by_cases h : e.sid = t
    · rw [broken_own h, Bool.or_eq_false_iff] at hb
      rw [carried_own h hb.2, said_own h, ih hb.2]
    · rw [broken_other h] at hb
      rw [carried_other h, said_other h, ih hb]

/-- What has got through has been said. -/
theorem carried_le_said (t : T) (log : List (Event T)) : carried t log <+: said t log := by
  induction log with
  | nil => exact List.prefix_rfl
  | cons e past ih =>
    cases hb : broken t past with
    | true =>
      rw [carried_broken hb, said]
      exact ih.trans (List.prefix_append _ _)
    | false =>
      by_cases h : e.sid = t
      · rw [carried_own h hb, said_own h, carried_eq hb]
      · rw [carried_other h, said_other h]
        exact ih

/-- A piece that a request has said is an event of the log. -/
theorem mem_pieces {log : List (Event T)} {b : Bytes} (h : b ∈ pieces t r log) :
    ∃ e ∈ log, e.Of t r ∧ e.Sends b := by
  induction log with
  | nil => cases h
  | cons e past ih =>
    by_cases hof : e.Of t r
    · rw [pieces_own hof] at h
      rcases List.mem_append.mp h with h | h
      · obtain ⟨e', he', hrest⟩ := ih h
        exact ⟨e', List.mem_cons_of_mem _ he', hrest⟩
      · refine ⟨e, List.mem_cons_self, hof, ?_⟩
        unfold Event.Sends
        cases hop : e.op with
        | send c =>
          rw [hop] at h
          rw [List.mem_singleton.mp h]
        | recv | fs | reserve | discard =>
          rw [hop] at h
          cases h
    · rw [pieces_other hof] at h
      obtain ⟨e', he', hrest⟩ := ih h
      exact ⟨e', List.mem_cons_of_mem _ he', hrest⟩

end Log

/-- The bytes begin with a greeting and the frame. -/
def Opens (f : Frame) (h : Bytes) : Prop :=
  ∃ g : Bytes, g.length < 256 ^ 8 ∧ f.payload.length < 256 ^ 8 ∧
    frameBytes T_HELLO g ++ frameBytes f.type f.payload <+: h

theorem Opens.append {f : Frame} {h : Bytes} (ho : Opens f h) (c : Bytes) : Opens f (h ++ c) := by
  obtain ⟨g, hg, hf, hpre⟩ := ho
  exact ⟨g, hg, hf, hpre.trans (List.prefix_append _ _)⟩

/-- The session has its first request behind it. -/
def Session.Later : Session → Prop
  | .awaiting n _ => 0 < n
  | .serving r _ => 0 < r.1
  | .failing (some r) _ => 0 < r.1
  | .failing none _ | .closed => True
  | .greeting _ => False

theorem Session.Later.request {l : Session} {f : Frame} (h : l.Later) : l.request ≠ some (0, f) := by
  intro hr
  cases l with
  | serving r p =>
    cases hr
    exact Nat.lt_irrefl 0 h
  | failing q p =>
    cases hr
    exact Nat.lt_irrefl 0 h
  | greeting | awaiting | closed => cases hr

theorem Session.later_failing {q : Option Request} (h : ∀ r, q = some r → 0 < r.1) (p : Py Unit) :
    (settleFailing q p).Later := by
  cases p with
  | done | raise => trivial
  | call o k =>
    cases q with
    | none => trivial
    | some r => exact h r rfl

theorem Session.later_serving {r : Request} (h : 0 < r.1) (p : Py Bool) : (settleServing r p).Later := by
  cases p with
  | done b => cases b <;> first | trivial | exact Nat.succ_pos _
  | raise e => exact later_failing (by rintro _ ⟨⟩; exact h) _
  | call o k => exact h

theorem Session.Later.next {l : Session} {o : Sys} {k : o.Ans → Session} {a : o.Ans} (h : l.Later)
    (hn : l.next = some ⟨o, k⟩) : (k a).Later := by
  cases l with
  | greeting p => exact h.elim
  | closed => cases hn
  | awaiting n p =>
    cases p with
    | done | raise => cases hn
    | call o' k' =>
      cases hn
      change (settleAwaiting n (k' a)).Later
      cases k' a with
      | done r =>
        cases r with
        | none => trivial
        | some f => exact later_serving (r := (n, f)) h _
      | raise e => exact later_failing (by rintro _ ⟨⟩) _
      | call o k => exact h
  | serving r p =>
    cases p with
    | done | raise => cases hn
    | call o' k' =>
      cases hn
      exact later_serving h _
  | failing q p =>
    cases p with
    | done | raise => cases hn
    | call o' k' =>
      cases hn
      refine later_failing ?_ _
      rintro r rfl
      exact h

theorem World.Answers.fits {w : World T} {o : Sys} {a : o.Ans} {os : Os} {fl : Finset Bytes}
    (h : w.Answers o a os fl) : o.Fits a := by
  cases o with
  | recv n =>
    obtain ⟨⟨c, rfl, hc⟩ | ⟨e, rfl, -⟩, -⟩ := h
    · exact hc
    · trivial
  | send | fs | reserve | discard => trivial

section Story

variable [DecidableEq T] (next : Frame → List Bytes → Bytes → Prop) (Complete : Frame → List Bytes → Prop)

/-- The first request of a session is `f`. Something else is said only when its replies are complete. -/
structure Opened (t : T) (f : Frame) (log : List (Event T)) (rest : List Bytes) : Prop where
  opens : Opens f (heard t log)
  told : Told (next f) (pieces t (0, f) log)
  said : said t log = okFrame :: (pieces t (0, f) log ++ rest)
  complete : rest ≠ [] → Complete f (pieces t (0, f) log)

/-- Where a session stands in its story. -/
inductive Story (t : T) (log : List (Event T)) : Session → Prop
  | greeting {p : Py Unit} :
      p.wp (Talk.env GreetNext) (fun _ => OpenedBy) (fun _ _ => True) ⟨heard t log, said t log⟩ →
      Told GreetNext (said t log) → Story t log (.greeting p)
  | awaiting {p : Py (Option Frame)} :
      p.wp (Talk.env GreetNext) (fun r x => x.said = [okFrame] ∧ ∀ f, r = some f → Opens f x.heard)
        (fun _ _ => True) ⟨heard t log, said t log⟩ →
      Told GreetNext (said t log) → Story t log (.awaiting 0 p)
  | failing {p : Py Unit} :
      p.wp (Talk.env GreetNext) (fun _ _ => True) (fun _ _ => True) ⟨heard t log, said t log⟩ →
      Told GreetNext (said t log) → Story t log (.failing none p)
  | closed : Told GreetNext (said t log) → Story t log .closed
  | serving {f : Frame} {p : Py Bool} :
      p.wp (Talk.env (next f)) (fun _ x => Complete f x.said) (fun _ _ => True)
        ⟨received t (0, f) log, pieces t (0, f) log⟩ →
      Opened next Complete t f log [] → Story t log (.serving (0, f) p)
  | broken {f : Frame} {p : Py Unit} :
      p.wp (Talk.env (next f)) (fun _ _ => True) (fun _ _ => True)
        ⟨received t (0, f) log, pieces t (0, f) log⟩ →
      Opened next Complete t f log [] → Story t log (.failing (some (0, f)) p)
  | beyond {f : Frame} {l : Session} {rest : List Bytes} : Opened next Complete t f log rest →
      Complete f (pieces t (0, f) log) ∨ l = .closed → l.Later → Story t log l

variable {next Complete} {t : T} {log : List (Event T)} {f : Frame}

/-- The request says something. -/
theorem Opened.own {e : Event T} (h : Opened next Complete t f log []) (hof : e.Of t (0, f))
    (hmay : ∀ b, e.op = .send b → next f (pieces t (0, f) log) b) :
    Opened next Complete t f (e :: log) [] := by
  refine ⟨?_, ?_, ?_, fun h => absurd rfl h⟩
  · rw [heard_own hof.1]
    exact h.opens.append _
  · rw [pieces_own hof]
    exact h.told.append hmay
  · rw [said_own hof.1, pieces_own hof, h.said, List.append_nil, List.append_nil, List.cons_append]

/-- The session does something else. -/
theorem Opened.after {e : Event T} {rest : List Bytes} (h : Opened next Complete t f log rest)
    (hc : Complete f (pieces t (0, f) log)) (hsid : e.sid = t) (hof : ¬ e.Of t (0, f)) :
    Opened next Complete t f (e :: log) (rest ++ e.op.pieces) := by
  rw [← pieces_other hof] at hc
  refine ⟨?_, ?_, ?_, fun _ => hc⟩
  · rw [heard_own hsid]
    exact h.opens.append _
  · rw [pieces_other hof]
    exact h.told
  · rw [said_own hsid, pieces_other hof, h.said, List.cons_append, List.append_assoc]

/-- Another session does something. -/
theorem Opened.frame {e : Event T} {rest : List Bytes} (h : Opened next Complete t f log rest)
    (hsid : e.sid ≠ t) : Opened next Complete t f (e :: log) rest := by
  have hof : ¬ e.Of t (0, f) := fun hof => hsid hof.1
  constructor
  · rw [heard_other hsid]
    exact h.opens
  · rw [pieces_other hof]
    exact h.told
  · rw [said_other hsid, pieces_other hof]
    exact h.said
  · rw [pieces_other hof]
    exact h.complete

theorem Story.frame {e : Event T} {l : Session} (h : Story next Complete t log l) (hsid : e.sid ≠ t) :
    Story next Complete t (e :: log) l := by
  have hof : ∀ {f}, ¬ e.Of t (0, f) := fun hof => hsid hof.1
  cases h with
  | greeting hp htold =>
    rw [← heard_other hsid, ← said_other hsid] at hp
    rw [← said_other hsid] at htold
    exact .greeting hp htold
  | awaiting hp htold =>
    rw [← heard_other hsid, ← said_other hsid] at hp
    rw [← said_other hsid] at htold
    exact .awaiting hp htold
  | failing hp htold =>
    rw [← heard_other hsid, ← said_other hsid] at hp
    rw [← said_other hsid] at htold
    exact .failing hp htold
  | closed htold =>
    rw [← said_other hsid] at htold
    exact .closed htold
  | serving hp ho =>
    rw [← received_other hof, ← pieces_other hof] at hp
    exact .serving hp (ho.frame hsid)
  | broken hp ho =>
    rw [← received_other hof, ← pieces_other hof] at hp
    exact .broken hp (ho.frame hsid)
  | beyond ho hc hl =>
    rw [← pieces_other hof] at hc
    exact .beyond (ho.frame hsid) hc hl

theorem story_failing {p : Py Unit}
    (hp : p.wp (Talk.env GreetNext) (fun _ _ => True) (fun _ _ => True) ⟨heard t log, said t log⟩)
    (htold : Told GreetNext (said t log)) :
    Story next Complete t log (Session.settleFailing none p) := by
  cases p with
  | done | raise => exact .closed htold
  | call o k => exact .failing hp htold

theorem story_fail (e : Exn) (htold : Told GreetNext (said t log)) :
    Story next Complete t log (Session.fail none e) :=
  story_failing (Talk.wp_onError (fun reason _ hb => .inr ⟨reason, hb⟩) e) htold

theorem story_broken {p : Py Unit}
    (hp : p.wp (Talk.env (next f)) (fun _ _ => True) (fun _ _ => True)
      ⟨received t (0, f) log, pieces t (0, f) log⟩) (ho : Opened next Complete t f log []) :
    Story next Complete t log (Session.settleFailing (some (0, f)) p) := by
  cases p with
  | done | raise => exact .beyond ho (.inr rfl) trivial
  | call o k => exact .broken hp ho

section Handlers

variable (hnext : ∀ f l reason b, IsErrorFrame reason b → next f l b)
  (hdispatch : ∀ f, (dispatch f).wp (Talk.env (next f)) (fun _ x => Complete f x.said)
    (fun _ _ => True) ⟨[], []⟩)

include hnext in
theorem story_serving {p : Py Bool}
    (hp : p.wp (Talk.env (next f)) (fun _ x => Complete f x.said) (fun _ _ => True)
      ⟨received t (0, f) log, pieces t (0, f) log⟩) (ho : Opened next Complete t f log []) :
    Story next Complete t log (Session.settleServing (0, f) p) := by
  cases p with
  | done b =>
    cases b with
    | true => exact .beyond ho (.inl hp) Nat.one_pos
    | false => exact .beyond ho (.inr rfl) trivial
  | raise e => exact story_broken (Talk.wp_onError (hnext f _) e) ho
  | call o k => exact .serving hp ho

include hnext hdispatch in
theorem story_awaiting {p : Py (Option Frame)}
    (hp : p.wp (Talk.env GreetNext) (fun r x => x.said = [okFrame] ∧ ∀ f, r = some f → Opens f x.heard)
      (fun _ _ => True) ⟨heard t log, said t log⟩) (htold : Told GreetNext (said t log))
    (hnew : ∀ f, ∀ e ∈ log, ¬ e.Of t (0, f)) :
    Story next Complete t log (Session.settleAwaiting 0 p) := by
  cases p with
  | done r =>
    cases r with
    | none => exact .closed htold
    | some f =>
      obtain ⟨hsaid, hopens⟩ := hp
      have hpieces := pieces_eq_nil (hnew f)
      apply story_serving hnext
      · rw [hpieces, received_eq_nil (hnew f)]
        exact hdispatch f
      · refine ⟨hopens f rfl, ?_, ?_, fun h => absurd rfl h⟩
        · rw [hpieces]
          exact told_nil
        · rw [hpieces]
          exact hsaid
  | raise e => exact story_fail e htold
  | call o k => exact .awaiting hp htold

theorem story_greeting {p : Py Unit}
    (hp : p.wp (Talk.env GreetNext) (fun _ => OpenedBy) (fun _ _ => True) ⟨heard t log, said t log⟩)
    (htold : Told GreetNext (said t log)) : Story next Complete t log (Session.settleGreeting p) := by
  cases p with
  | done u =>
    obtain ⟨g, hg, hx⟩ := hp
    obtain ⟨hheard, hsaid⟩ := Talk.mk.inj hx
    refine .awaiting (Proc.wp_mono Talk.wp_nextFrame ?_ fun _ _ h => h) htold
    rintro r x ⟨hx, hf⟩
    refine ⟨hx.trans hsaid, fun f hr => ?_⟩
    obtain ⟨hlen, hx'⟩ := hf f hr
    exact ⟨g, hg, hlen, by rw [hx', hheard]⟩
  | raise e => exact story_fail e htold
  | call o k => exact .greeting hp htold

include hnext hdispatch in
/-- **One operation of the session.** -/
theorem Story.step {l : Session} {o : Sys} {k : o.Ans → Session} {a : o.Ans} {os : Os}
    (h : Story next Complete t log l) (hn : l.next = some ⟨o, k⟩) (hfits : o.Fits a)
    (hnew : ∀ p, l = .awaiting 0 p → ∀ f, ∀ e ∈ log, ¬ e.Of t (0, f)) :
    Story next Complete t (⟨t, l.request, o, a, os⟩ :: log) (k a) := by
  have hheard := @heard_own T _ t ⟨t, l.request, o, a, os⟩ log rfl
  have hsaid := @said_own T _ t ⟨t, l.request, o, a, os⟩ log rfl
  cases h with
  | closed => cases hn
  | @greeting p hp htold =>
    cases p with
    | done | raise => cases hn
    | call o' k' =>
      cases hn
      apply story_greeting
      · rw [hheard, hsaid]
        exact hp.2 a _ ⟨hfits, rfl⟩
      · rw [hsaid]
        exact htold.append hp.1
  | @awaiting p hp htold =>
    cases p with
    | done | raise => cases hn
    | call o' k' =>
      cases hn
      apply story_awaiting hnext hdispatch
      · rw [hheard, hsaid]
        exact hp.2 a _ ⟨hfits, rfl⟩
      · rw [hsaid]
        exact htold.append hp.1
      · intro f e he hof
        rcases List.mem_cons.mp he with rfl | he
        · cases hof.2
        · exact hnew _ rfl f e he hof
  | @failing p hp htold =>
    cases p with
    | done | raise => cases hn
    | call o' k' =>
      cases hn
      apply story_failing
      · rw [hheard, hsaid]
        exact hp.2 a _ ⟨hfits, rfl⟩
      · rw [hsaid]
        exact htold.append hp.1
  | @serving f p hp ho =>
    cases p with
    | done | raise => cases hn
    | call o' k' =>
      cases hn
      -- the operation belongs to the first request, so its piece is one of that
      have hof : (⟨t, (Session.serving (0, f) (.call o k')).request, o, a, os⟩ : Event T).Of t (0, f) :=
        ⟨rfl, rfl⟩
      refine story_serving hnext ?_ (ho.own hof hp.1)
      rw [received_own hof, pieces_own hof]
      exact hp.2 a _ ⟨hfits, rfl⟩
  | @broken f p hp ho =>
    cases p with
    | done | raise => cases hn
    | call o' k' =>
      cases hn
      have hof : (⟨t, (Session.failing (some (0, f)) (.call o k')).request, o, a, os⟩ : Event T).Of t
          (0, f) := ⟨rfl, rfl⟩
      refine story_broken ?_ (ho.own hof hp.1)
      rw [received_own hof, pieces_own hof]
      exact hp.2 a _ ⟨hfits, rfl⟩
  | @beyond f l rest ho hc hl =>
    -- the operation belongs to a later request and leaves the pieces of the first alone
    have hof : ¬ (⟨t, l.request, o, a, os⟩ : Event T).Of t (0, f) := fun hof => hl.request hof.2
    rcases hc with hc | rfl
    · exact .beyond (ho.after hc rfl hof) (.inl (by rwa [pieces_other hof])) (hl.next hn)
    · cases hn

include hnext hdispatch in
/-- **The story of every session in every run.** -/
theorem Server.Run.story {os : Os} {s : Server T} (hr : Server.Run (Server.start T os) s) (t : T) :
    Story next Complete t s.world.log (s.threads t) := by
  induction hr with
  | refl => exact .greeting Talk.wp_greet told_nil
  | @tail a b hab hstep ih =>
    obtain ⟨e, hrec⟩ := exists_records hstep
    obtain ⟨k, hn, hx, hthreads, hreq, -⟩ := hrec.exec
    rw [hrec.2, hthreads]
    by_cases ht : e.sid = t
    · subst ht
      rw [Function.update_self]
      have he : e = ⟨e.sid, (a.threads e.sid).request, e.op, e.ans, e.os⟩ := by rw [← hreq]
      have hnext' : Story next Complete e.sid
          (⟨e.sid, (a.threads e.sid).request, e.op, e.ans, e.os⟩ :: a.world.log) (k e.ans) :=
        ih.step hnext hdispatch hn hx.1.fits fun p hp f =>
          not_of_transcript (Server.Run.transcript_new hab hp f)
      rwa [← he] at hnext'
    · rw [Function.update_of_ne (fun h => ht h.symm)]
      exact ih.frame ht

end Handlers

/-- After the first piece of the greeting there is nothing but ERRORs. -/
theorem Told.greet_second {l : List Bytes} (h : Told GreetNext l) {t₀ : UInt8} {p₀ more : Bytes}
    (hp₀ : p₀.length < 256 ^ 8) (hl : l.flatten = frameBytes t₀ p₀ ++ more) : ¬ NoError more := by
  rintro ⟨hne, hno⟩
  cases l with
  | nil => simp [frameBytes, MAGIC] at hl
  | cons b l =>
    have hb : ∃ t p, p.length < 256 ^ 8 ∧ b = frameBytes t p := by
      rcases h [] b l rfl with ⟨-, rfl⟩ | ⟨reason, hb⟩
      · exact ⟨T_OK, [], by decide, rfl⟩
      · exact hb.frame
    obtain ⟨t, p, hp, rfl⟩ := hb
    obtain ⟨-, -, hrest⟩ := frameBytes_append_inj hp hp₀ hl
    cases l with
    | nil => exact hne hrest.symm
    | cons b' l =>
      rcases h [frameBytes t p] b' l rfl with ⟨hnil, -⟩ | ⟨reason, hb'⟩
      · cases hnil
      · exact hno reason b' hb' ⟨l.flatten, hrest⟩

/-- **A reply to a request.** A session that has said a frame, and after it something that is not an ERROR, has
said that for its first request. Something else has been said only when the request is over. -/
theorem Story.opened {l : Session} (h : Story next Complete t log l) {t₀ : UInt8} {p₀ more : Bytes}
    (hp₀ : p₀.length < 256 ^ 8) (hsaid : (said t log).flatten = frameBytes t₀ p₀ ++ more)
    (hmore : NoError more) :
    ∃ f rest, Opened next Complete t f log rest ∧ (rest = [] ∨ l.request ≠ some (0, f)) ∧
      (pieces t (0, f) log).flatten ++ rest.flatten = more := by
  have hopen : ∀ {f rest}, Opened next Complete t f log rest →
      (pieces t (0, f) log).flatten ++ rest.flatten = more := by
    intro f rest ho
    rw [ho.said, List.flatten_cons] at hsaid
    have hrest := (frameBytes_append_inj (by decide) hp₀ hsaid).2.2
    rwa [List.flatten_append] at hrest
  cases h with
  | greeting _ htold => exact absurd hmore (htold.greet_second hp₀ hsaid)
  | awaiting _ htold => exact absurd hmore (htold.greet_second hp₀ hsaid)
  | failing _ htold => exact absurd hmore (htold.greet_second hp₀ hsaid)
  | closed htold => exact absurd hmore (htold.greet_second hp₀ hsaid)
  | serving _ ho => exact ⟨_, [], ho, .inl rfl, hopen ho⟩
  | broken _ ho => exact ⟨_, [], ho, .inl rfl, hopen ho⟩
  | beyond ho _ hl => exact ⟨_, _, ho, .inr hl.request, hopen ho⟩

end Story

end Retriever
