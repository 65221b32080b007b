/-
# Retriever.Network.Course — how a client fares on the network

A client that has not met with a fault has done what it would have done alone with a peer that sent it the
bytes it has received; these are the first bytes that its session has said, and what the client has sent is
what the session has heard with what is still under way (`Course.going`). After a fault it does not end with
the status 0 any more (`Course.lost`). So about a client that has ended with 0 everything is known that is
known about its command on a wire (`Network.Run.finished`).
-/
import Retriever.Network.Model
import Retriever.Server.Dialogue

namespace Retriever

open Proc (Reaches)

variable {T : Type}

/-! ## What an operation does to the lines -/

/-- What is given to a line gets onto it when it takes bytes, all of it or, if the call fails, a part of it. -/
structure Line.Grows (l : Line) (b : Bytes) (dropped : Bool) (l' : Line) : Prop where
  taking : l'.taking = (l.taking && !dropped)
  closed : l.taking = false → l'.bytes = l.bytes
  part : ∃ c, c <+: b ∧ l'.bytes = l.bytes ++ c
  whole : l.taking = true → dropped = false → l'.bytes = l.bytes ++ b

/-- **An operation of a session.** What it has heard is taken off one line, and what it has said is given to
the other. -/
structure Lines.Flows (x : Lines) (o : Sys) (a : o.Ans) (x' : Lines) : Prop where
  up : x.up.bytes = o.brought a ++ x'.up.bytes
  upTaking : x'.up.taking = x.up.taking
  down : x.down.Grows o.pieces.flatten (o.drops a) x'.down

theorem Line.grows_nil (l : Line) : l.Grows [] false l where
  taking := (Bool.and_true _).symm
  closed _ := rfl
  part := ⟨[], List.prefix_rfl, (List.append_nil _).symm⟩
  whole _ _ := (List.append_nil _).symm

theorem Line.grows_put (l : Line) {b c : Bytes} {dropped : Bool} (hc : c <+: b)
    (hall : dropped = false → c = b) : l.Grows b dropped (l.put c !dropped) := by
  unfold Line.put
  cases ht : l.taking with
  | true =>
    refine ⟨by rw [ht, Bool.true_and]; rfl, fun h => ?_, ⟨c, hc, rfl⟩, fun _ h => by rw [hall h]; rfl⟩
    exact absurd (h.symm.trans ht) Bool.false_ne_true
  | false =>
    refine ⟨by rw [ht, Bool.false_and]; exact ht, fun _ => rfl,
      ⟨[], List.nil_prefix, (List.append_nil _).symm⟩, fun h => ?_⟩
    exact absurd (ht.symm.trans h) Bool.false_ne_true

theorem Line.Takes.grows {l l' : Line} {b : Bytes} {a : Except SysErr Unit} (h : l.Takes b a l') :
    l.Grows b (Sys.drops (.send b) a) l' := by
  rcases h with ⟨rfl, rfl⟩ | ⟨e, c, rfl, -, hc, rfl⟩
  · exact l.grows_put List.prefix_rfl fun _ => rfl
  · exact l.grows_put hc fun h => by cases h

theorem Line.Brings.flow {l l' : Line} {n : Nat} {a : Except SysErr Bytes} (h : l.Brings n a l') :
    l.bytes = Sys.brought (.recv n) a ++ l'.bytes ∧ l'.taking = l.taking := by
  rcases h with ⟨c, rfl, -, hc, ht⟩ | ⟨e, rfl, -, rfl⟩
  · exact ⟨hc, ht⟩
  · exact ⟨rfl, rfl⟩

theorem Lines.Serves.flows {x x' : Lines} {o : Sys} {a : o.Ans} (h : x.Serves o a x') :
    x.Flows o a x' := by
  have hsame := x.down.grows_nil
  cases o with
  | recv n =>
    obtain ⟨hb, hd⟩ := h
    obtain ⟨hbytes, htaking⟩ := hb.flow
    refine ⟨hbytes, htaking, ?_⟩
    rw [hd]
    exact hsame
  | send b =>
    obtain ⟨ht, hu⟩ := h
    refine ⟨by rw [hu]; rfl, by rw [hu], ?_⟩
    rw [show (Sys.pieces (.send b)).flatten = b from List.append_nil b]
    exact ht.grows
  | fs o =>
    obtain rfl : x' = x := h
    exact ⟨rfl, rfl, hsame⟩
  | reserve p =>
    obtain rfl : x' = x := h
    exact ⟨rfl, rfl, hsame⟩
  | discard p =>
    obtain rfl : x' = x := h
    exact ⟨rfl, rfl, hsame⟩

section Client

variable {m m' : Machine Lines} {o : Sys} {a : o.Ans}

/-- What is on the way to the server stays on the way. -/
theorem Net.lines_up (h : Net.lines.env.gives m o a m') : m.net.up.bytes <+: m'.net.up.bytes := by
  cases o with
  | recv n =>
    obtain ⟨x, ⟨-, hu⟩, rfl⟩ := h
    rw [hu]
  | send b =>
    obtain ⟨x, ⟨ht, -⟩, rfl⟩ := h
    obtain ⟨c, -, hc⟩ := ht.grows.part
    exact ⟨c, hc.symm⟩
  | fs o =>
    obtain ⟨-, rfl⟩ := h
    exact List.prefix_rfl
  | reserve p =>
    obtain ⟨-, rfl⟩ := h
    exact List.prefix_rfl
  | discard p =>
    obtain rfl : m' = _ := h
    exact List.prefix_rfl

/-- **An operation of a client that is not a fault.** It moves its bytes, and is an operation on a wire. -/
structure Clean (m : Machine Lines) (o : Sys) (a : o.Ans) (m' : Machine Lines) : Prop where
  down : m.net.down.bytes = o.brought a ++ m'.net.down.bytes
  downTaking : m'.net.down.taking = m.net.down.taking
  up : m'.net.up.bytes = m.net.up.bytes ++ o.pieces.flatten
  upTaking : m'.net.up.taking = true
  wire : ∀ z sent, Net.wire.env.gives ⟨m.os, m.inFlight, ⟨o.brought a ++ z, sent⟩⟩ o a
    ⟨m'.os, m'.inFlight, ⟨z, sent ++ o.pieces.flatten⟩⟩

theorem Net.lines_clean (h : Net.lines.env.gives m o a m') (hf : ¬ o.Fault a)
    (hup : m.net.up.taking = true) : Clean m o a m' := by
  cases o with
  | recv n =>
    obtain ⟨x, ⟨hb, hu⟩, rfl⟩ := h
    obtain ⟨hbytes, htaking⟩ := hb.flow
    rcases hb with ⟨c, rfl, hc, -⟩ | ⟨e, rfl, -, -⟩
    · refine ⟨hbytes, htaking, by rw [hu]; exact (List.append_nil _).symm, by rw [hu]; exact hup, ?_⟩
      intro z sent
      refine ⟨_, ⟨c, rfl, hc, fun hnil => ?_, rfl, List.append_nil _⟩, rfl⟩
      by_contra hn
      exact hf ⟨hnil, fun h => hn (.inl h)⟩
    · exact absurd trivial hf
  | send b =>
    obtain ⟨x, ⟨ht, hd⟩, rfl⟩ := h
    rcases ht with ⟨rfl, hput⟩ | ⟨e, c, rfl, -⟩
    · have hx : x.up = ⟨m.net.up.bytes ++ b, true⟩ := by rw [hput, Line.put, if_pos hup]
      have hb : (Sys.pieces (.send b)).flatten = b := List.append_nil b
      refine ⟨by rw [hd]; rfl, by rw [hd], by rw [hx, hb], by rw [hx], fun z sent => ?_⟩
      rw [hb]
      exact ⟨_, ⟨rfl, rfl⟩, rfl⟩
    · exact absurd trivial hf
  | fs o =>
    obtain ⟨rfl, rfl⟩ := h
    exact ⟨rfl, rfl, (List.append_nil _).symm, hup, fun z sent => ⟨rfl, by simp [Sys.pieces, Sys.brought]⟩⟩
  | reserve p =>
    obtain ⟨rfl, rfl⟩ := h
    exact ⟨rfl, rfl, (List.append_nil _).symm, hup, fun z sent => ⟨rfl, by simp [Sys.pieces, Sys.brought]⟩⟩
  | discard p =>
    obtain rfl : m' = _ := h
    refine ⟨rfl, rfl, (List.append_nil _).symm, hup, fun z sent => ?_⟩
    show _ = _
    simp [Sys.pieces, Sys.brought]

end Client

/-! ## What has passed -/

section Log

variable [DecidableEq T] {t : T} {e : Event T} {log : List (Event T)} {x x' : Lines} {got sent : Bytes}

/-- The client has received what the session has got through, and the session hears what it has sent. -/
structure Passed (t : T) (log : List (Event T)) (x : Lines) (got sent : Bytes) : Prop where
  got : got <+: (carried t log).flatten
  sent : sent <+: heard t log ++ x.up.bytes

/-- Nothing has been lost so far. -/
structure Intact (t : T) (log : List (Event T)) (x : Lines) (got sent : Bytes) : Prop where
  taking : x.down.taking = !broken t log
  down : got ++ x.down.bytes <+: (carried t log).flatten
  whole : broken t log = false → got ++ x.down.bytes = (carried t log).flatten
  up : heard t log ++ x.up.bytes = sent
  upTaking : x.up.taking = true

theorem Intact.passed (h : Intact t log x got sent) : Passed t log x got sent where
  got := (List.prefix_append _ _).trans h.down
  sent := by rw [h.up]

theorem Intact.fresh (t : T) : Intact t [] .fresh [] [] :=
  ⟨rfl, List.prefix_rfl, fun _ => rfl, rfl, rfl⟩

/-- The session at the other end does something. -/
theorem Intact.session (h : Intact t log x got sent) (hsid : e.sid = t)
    (hx : x.Flows e.op e.ans x') : Intact t (e :: log) x' got sent := by
  have hup : heard t (e :: log) ++ x'.up.bytes = sent := by
    rw [heard_own hsid, List.append_assoc, ← hx.up, h.up]
  have htaking : x'.down.taking = !broken t (e :: log) := by
    rw [hx.down.taking, h.taking, broken_own hsid, Bool.not_or, Bool.and_comm]
  cases hb : broken t log with
  | true =>
    -- a line that is closed takes nothing more
    have hclosed : x.down.taking = false := by rw [h.taking, hb]; rfl
    refine ⟨htaking, ?_, fun hno => ?_, hup, hx.upTaking.trans h.upTaking⟩
    · rw [carried_broken hb, hx.down.closed hclosed]
      exact h.down
    · rw [broken_own hsid, hb, Bool.or_true] at hno
      cases hno
  | false =>
    have hopen : x.down.taking = true := by rw [h.taking, hb]; rfl
    have hcarried : (carried t (e :: log)).flatten = got ++ x.down.bytes ++ e.op.pieces.flatten := by
      rw [carried_own hsid hb, List.flatten_append, h.whole hb]
    refine ⟨htaking, ?_, fun hno => ?_, hup, hx.upTaking.trans h.upTaking⟩
    · obtain ⟨c, hc, hbytes⟩ := hx.down.part
      rw [hcarried, hbytes, ← List.append_assoc]
      exact (List.prefix_append_right_inj _).mpr hc
    · rw [broken_own hsid, Bool.or_eq_false_iff] at hno
      rw [hcarried, hx.down.whole hopen hno.1, List.append_assoc]

theorem Intact.other (h : Intact t log x got sent) (hsid : e.sid ≠ t) : Intact t (e :: log) x got sent := by
  constructor
  · rw [broken_other hsid]
    exact h.taking
  · rw [carried_other hsid]
    exact h.down
  · rw [broken_other hsid, carried_other hsid]
    exact h.whole
  · rw [heard_other hsid]
    exact h.up
  · exact h.upTaking

theorem Passed.session (h : Passed t log x got sent) (hsid : e.sid = t)
    (hx : x.Flows e.op e.ans x') : Passed t (e :: log) x' got sent := by
  constructor
  · rw [carried, List.flatten_append]
    exact h.got.trans (List.prefix_append _ _)
  · rw [heard_own hsid, List.append_assoc, ← hx.up]
    exact h.sent

theorem Passed.other (h : Passed t log x got sent) (hsid : e.sid ≠ t) : Passed t (e :: log) x got sent := by
  constructor
  · rw [carried_other hsid]
    exact h.got
  · rw [heard_other hsid]
    exact h.sent

end Log

/-! ## The course of a client -/

/-- The command of a client comes to `p` on a wire that has brought `got` and taken `sent`. -/
def Client.Comes (c : Client) (p : CProg Nat) (m : Machine Lines) (got sent : Bytes) : Prop :=
  ∀ z, Reaches Net.wire.env c.core ⟨c.os, ∅, ⟨got ++ z, []⟩⟩ p ⟨m.os, m.inFlight, ⟨z, sent⟩⟩

theorem Client.Comes.step {c : Client} {o : Sys} {k : o.Ans → CProg Nat} {a : o.Ans} {m m' : Machine Lines}
    {got sent : Bytes} (h : c.Comes (.call o k) m got sent) (ha : Clean m o a m') :
    c.Comes (k a) m' (got ++ o.brought a) (sent ++ o.pieces.flatten) := by
  intro z
  rw [List.append_assoc]
  exact (h (o.brought a ++ z)).trans (.call (ha.wire z sent) (.refl _ _))

/-- The operation is one of the network. -/
def Sys.OnNet : Sys → Prop
  | .recv _ | .send _ => True
  | .fs _ | .reserve _ | .discard _ => False

/-- Where a client stands. -/
inductive Course [DecidableEq T] (c : Client) (t : T) (log : List (Event T)) : Party → Prop
  | going {p : CProg Nat} {m : Machine Lines} {got sent : Bytes} : c.Comes p m got sent →
      p.Fragile Sys.Fault (· ≠ 0) (fun _ => False) → Intact t log m.net got sent →
      Course c t log ⟨p >>= c.rest, m⟩
  | settled {p : CProg Nat} {m m' : Machine Lines} {got sent : Bytes} : c.Comes (.done 0) m got sent →
      p.Uses Sys.OnNet (fun _ => True) → m'.os = m.os → Passed t log m'.net got sent →
      Course c t log ⟨p, m'⟩
  | lost {p : CProg Nat} {m : Machine Lines} : p.Ends (· ≠ 0) (fun _ => False) → Course c t log ⟨p, m⟩

section Course

variable [DecidableEq T] {c : Client} {t : T} {e : Event T} {log : List (Event T)} {p : Party}

/-! ### What is known about the two clients -/

theorem Client.core_fragile (c : Client) : c.core.Fragile Sys.Fault (· ≠ 0) (fun _ => False) := by
  obtain ⟨impl, command, os⟩ := c
  cases impl with
  | python =>
    exact (Upset.main command).andThen (fun _ h => h.elim) (fun e he => he) fun _ => trivial
  | c => exact C.Upset.attempt command

theorem Client.rest_ends (c : Client) {status : Nat} (h : status ≠ 0) :
    (c.rest status).Ends (· ≠ 0) (fun _ => False) := by
  obtain ⟨impl, command, os⟩ := c
  cases impl with
  | python => exact h
  | c =>
    show (C.farewell status).Ends _ _
    unfold C.farewell
    rw [if_neg h]
    exact h

theorem C.writeAll_onNet (b : Bytes) : (C.writeAll b).Uses Sys.OnNet (fun _ => True) := by
  refine Proc.uses_bind (Proc.uses_perform trivial) fun a => ?_
  cases a <;> trivial

theorem C.readExactLoop_onNet (n fuel : Nat) (data : Bytes) :
    (C.readExactLoop n fuel data).Uses Sys.OnNet (fun _ => True) := by
  induction fuel generalizing data with
  | zero => trivial
  | succ fuel ih =>
    rw [C.readExactLoop]
    split
    · refine Proc.uses_bind (Proc.uses_perform trivial) fun a => ?_
      cases a with
      | error e => trivial
      | ok chunk =>
        dsimp only
        split
        · trivial
        · exact ih _
    · trivial

theorem C.readFrame_onNet : C.readFrame.Uses Sys.OnNet (fun _ => True) := by
  refine Proc.uses_bind (Proc.uses_bind (C.readExactLoop_onNet _ _ _) fun header => ?_) fun header => ?_
  · -- the header, and its magic and version
    cases header with
    | none => trivial
    | some header =>
      dsimp only
      split
      · trivial
      split
      · trivial
      · trivial
  · -- the cap, and the payload
    cases header with
    | none => trivial
    | some header =>
      dsimp only
      split
      · trivial
      split
      · trivial
      refine Proc.uses_bind (C.readExactLoop_onNet _ _ _) fun payload => ?_
      cases payload <;> trivial

/-- The goodbye of the C client touches nothing but the connection. -/
theorem C.doQuit_onNet : C.doQuit.Uses Sys.OnNet (fun _ => True) := by
  refine Proc.uses_bind (Proc.uses_bind (C.writeAll_onNet _) fun ok => ?_) fun ok => ?_
  · split
    · trivial
    · trivial
  · split
    · exact Proc.uses_bind C.readFrame_onNet fun _ => trivial
    · trivial

theorem Client.rest_onNet (c : Client) (status : Nat) : (c.rest status).Uses Sys.OnNet (fun _ => True) := by
  obtain ⟨impl, command, os⟩ := c
  cases impl with
  | python => trivial
  | c =>
    show (C.farewell status).Uses _ _
    unfold C.farewell
    split
    · exact Proc.uses_bind C.doQuit_onNet fun _ => trivial
    · trivial

theorem Course.start (c : Client) (t : T) : Course c t [] c.party := by
  unfold Client.party
  rw [c.program_eq]
  exact .going (fun z => .refl _ _) c.core_fragile (.fresh t)

/-! ### Steps -/

/-- Another session does something. -/
theorem Course.other (h : Course c t log p) (hsid : e.sid ≠ t) : Course c t (e :: log) p := by
  cases h with
  | going hp hf hi => exact .going hp hf (hi.other hsid)
  | settled hp hu ho hi => exact .settled hp hu ho (hi.other hsid)
  | lost hp => exact .lost hp

/-- The session at the other end does something. -/
theorem Course.session {x : Lines} (h : Course c t log p) (hsid : e.sid = t)
    (hx : p.machine.net.Serves e.op e.ans x) : Course c t (e :: log) (p.joined x) := by
  cases h with
  | going hp hf hi => exact .going hp hf (hi.session hsid hx.flows)
  | settled hp hu ho hi => exact .settled hp hu ho (hi.session hsid hx.flows)
  | lost hp => exact .lost hp

theorem Intact.client {m m' : Machine Lines} {o : Sys} {a : o.Ans} {got sent : Bytes}
    (h : Intact t log m.net got sent) (ha : Clean m o a m') :
    Intact t log m'.net (got ++ o.brought a) (sent ++ o.pieces.flatten) := by
  constructor
  · rw [ha.downTaking]
    exact h.taking
  · rw [List.append_assoc, ← ha.down]
    exact h.down
  · rw [List.append_assoc, ← ha.down]
    exact h.whole
  · rw [ha.up, ← List.append_assoc, h.up]
  · exact ha.upTaking

/-- After the command there are only operations of the network. -/
theorem Course.settled_step {m m' m₁ : Machine Lines} {o : Sys} {k : o.Ans → CProg Nat} {a : o.Ans}
    {got sent : Bytes} (hp : c.Comes (.done 0) m got sent)
    (hu : (Proc.call o k : CProg Nat).Uses Sys.OnNet (fun _ => True)) (ho : m'.os = m.os)
    (hi : Passed t log m'.net got sent) (ha : Net.lines.env.gives m' o a m₁) :
    Course c t log ⟨k a, m₁⟩ := by
  refine .settled hp (hu.2 a) ?_ ⟨hi.got, hi.sent.trans ?_⟩
  · rw [← ho]
    cases o with
    | recv n =>
      obtain ⟨x, -, rfl⟩ := ha
      rfl
    | send b =>
      obtain ⟨x, -, rfl⟩ := ha
      rfl
    | fs | reserve | discard => exact hu.1.elim
  · exact (List.prefix_append_right_inj _).mpr (Net.lines_up ha)

/-- **The client does something.** -/
theorem Course.client {m m' : Machine Lines} {o : Sys} {k : o.Ans → CProg Nat} {a : o.Ans}
    (h : Course c t log ⟨.call o k, m⟩) (ha : Net.lines.env.gives m o a m') :
    Course c t log ⟨k a, m'⟩ := by
  generalize hq : (⟨.call o k, m⟩ : Party) = q at h
  cases h with
  | lost hp =>
    cases hq
    exact .lost (hp a)
  | settled hp hu ho hi =>
    cases hq
    exact Course.settled_step hp hu ho hi ha
  | @going p m got sent hp hf hi =>
    obtain ⟨hcall, rfl⟩ := Party.mk.inj hq
    cases p with
    | done status =>
      -- the command is done, and this is the first operation of the goodbye
      by_cases hs : status = 0
      · subst hs
        have hu := c.rest_onNet 0
        have hrest : c.rest 0 = .call o k := hcall.symm
        rw [hrest] at hu
        exact Course.settled_step hp hu rfl hi.passed ha
      · have hends := c.rest_ends hs
        have hrest : c.rest status = .call o k := hcall.symm
        rw [hrest] at hends
        exact .lost (hends a)
    | raise e => cases e
    | call o' k' =>
      cases hcall
      -- a fault dooms the command; without one the lines have behaved as a wire
      by_cases hfault : o.Fault a
      · exact .lost (((hf a).1 hfault).bind fun status hs => c.rest_ends hs)
      · have hclean := Net.lines_clean ha hfault hi.upTaking
        exact .going (hp.step hclean) (hf a).2 (hi.client hclean)

/-- A client that has ended with the status 0 has done its command on a wire. -/
theorem Course.finished {m : Machine Lines} (h : Course c t log ⟨.done 0, m⟩) :
    ∃ m' got sent, c.Comes (.done 0) m' got sent ∧ m.os = m'.os ∧ Passed t log m.net got sent := by
  generalize hq : (⟨.done 0, m⟩ : Party) = q at h
  cases h with
  | lost hp =>
    cases hq
    exact absurd rfl hp
  | settled hp hu ho hi =>
    cases hq
    exact ⟨_, _, _, hp, ho, hi⟩
  | @going p m got sent hp hf hi =>
    obtain ⟨hdone, rfl⟩ := Party.mk.inj hq
    cases p with
    | done status =>
      by_cases hs : status = 0
      · subst hs
        exact ⟨_, _, _, hp, rfl, hi.passed⟩
      · have hends := c.rest_ends hs
        have hrest : c.rest status = .done 0 := hdone.symm
        rw [hrest] at hends
        exact absurd rfl hends
    | raise e => cases e
    | call o' k' => cases hdone

end Course

namespace Network

variable [DecidableEq T] {os : Os} {clients : T → Client} {n : Network T}

/-- **The course of every client in every run.** -/
theorem Run.course (h : Run (start os clients) n) (t : T) :
    Course (clients t) t n.server.world.log (n.parties t) := by
  induction h with
  | refl => exact .start (clients t) t
  | @tail n _ _ hstep ih =>
    cases hstep with
    | @client t' o k a m hcall ha =>
      by_cases ht : t = t'
      · subst ht
        simp only [Function.update_self]
        have hparty : n.parties t = ⟨.call o k, (n.parties t).machine⟩ := by rw [← hcall]
        rw [hparty] at ih
        exact ih.client ha
      · simp only [Function.update_of_ne ht]
        exact ih
    | @session t' o k a w x hn hx hserves =>
      simp only [hx.2]
      by_cases ht : t = t'
      · subst ht
        simp only [Function.update_self]
        exact ih.session rfl hserves
      · simp only [Function.update_of_ne ht]
        exact ih.other fun h => ht h.symm

/-- **A client that has ended with the status 0.** Its command has come to its end on a wire: what it has
received is the first of what its session has said, and what it has sent is the first of what the session
hears. -/
theorem Run.finished (h : Run (start os clients) n) {t : T} (hdone : (n.parties t).status = some 0) :
    ∃ m got sent, (clients t).Comes (.done 0) m got sent ∧ (n.parties t).machine.os = m.os ∧
      Passed t n.server.world.log (n.parties t).machine.net got sent := by
  have hcourse := h.course t
  have hparty : n.parties t = ⟨.done 0, (n.parties t).machine⟩ := by rw [← Party.status_eq hdone]
  rw [hparty] at hcourse
  exact hcourse.finished

end Network

end Retriever
