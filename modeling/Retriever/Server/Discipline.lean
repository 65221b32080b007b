/-
# Retriever.Server.Discipline — what a session does, from its first byte to its last

`SessionEnds` says what a session may do, command by command: how the stream is cut into frames and
upload bodies, what each command is answered with, when the session goes on and when it is over. The
handlers have been treated one by one (`GetEnds`, `PutEnds`); here they are put together, by
induction over the stream, into a theorem on all sessions of a lone client whose calls succeed.
-/
import Retriever.Server.Get
import Retriever.Server.Listing
import Retriever.Server.Phases
import Retriever.Server.Smooth

namespace Retriever

open Proc (Yields)

/-! ## The discipline -/

/-- More has been written. -/
def Machine.told (m : Machine Wire) (b : Bytes) : Machine Wire :=
  m.wired m.net.input (m.net.output ++ b)

/-- The ERROR frame for a reason and a message. -/
def refusal (reason : UInt8) (message : Text) : Bytes :=
  frameBytes T_ERROR (errorPayload reason message)

/-- The listing of a directory. -/
def Os.listing (os : Os) : Bytes := joinNul (os.entries os.cwd)

/-- **How a command ends**: what the handler returns (`true` when the session goes on) or raises, and
what it leaves behind. The command's frame has been read. -/
inductive Serves : Frame → Machine Wire → Except Exn Bool → Machine Wire → Prop
  | quit (p : Bytes) (m : Machine Wire) : Serves ⟨T_QUIT, p⟩ m (.ok false) (m.told okFrame)
  | list (p : Bytes) {m : Machine Wire} : m.os.listing.length < 256 ^ 8 →
      Serves ⟨T_LIST, p⟩ m (.ok true) (m.told (frameBytes T_OK m.os.listing))
  -- the header has no room for the length
  | listTooLong (p : Bytes) {m : Machine Wire} : 256 ^ 8 ≤ m.os.listing.length →
      Serves ⟨T_LIST, p⟩ m (.error .overflowError) m
  | get {p : Bytes} {m m' : Machine Wire} {r : Except Exn Unit} : GetEnds p m r m' →
      Serves ⟨T_GET, p⟩ m (r.map fun _ => true) m'
  | put {p : Bytes} {m m' : Machine Wire} {r : Except Exn Unit} : PutEnds p m r m' →
      Serves ⟨T_PUT, p⟩ m (r.map fun _ => true) m'
  | other {f : Frame} (m : Machine Wire) : f.type ≠ T_QUIT → f.type ≠ T_LIST → f.type ≠ T_GET →
      f.type ≠ T_PUT →
      Serves f m (.error (.frameError E_MALFORMED "expected a command frame".toList)) m

/-- **The rest of a session**, from the top of the loop in the state `m` to its end in `m'`. -/
inductive Discipline : Machine Wire → Machine Wire → Prop
  -- the client has closed, between two frames or within one
  | hangup {m : Machine Wire} {rest : Bytes} :
      scanFrame m.net.input = (.error (.sys .connectionError), rest) →
      Discipline m (m.wired rest m.net.output)
  -- what has come is not a frame
  | violation {m : Machine Wire} {rest : Bytes} {reason : UInt8} {message : Text} :
      scanFrame m.net.input = (.error (.frameError reason message), rest) →
      Discipline m (m.wired rest (m.net.output ++ refusal reason message))
  -- a command is handled, and the session goes on behind it
  | next {m m₁ m' : Machine Wire} {f : Frame} {rest : Bytes} :
      scanFrame m.net.input = (.ok f, rest) →
      Serves f (m.wired rest m.net.output) (.ok true) m₁ → Discipline m₁ m' → Discipline m m'
  | quit {m m' : Machine Wire} {f : Frame} {rest : Bytes} :
      scanFrame m.net.input = (.ok f, rest) →
      Serves f (m.wired rest m.net.output) (.ok false) m' → Discipline m m'
  -- the client has closed in the middle of a body
  | interrupted {m m' : Machine Wire} {f : Frame} {rest : Bytes} :
      scanFrame m.net.input = (.ok f, rest) →
      Serves f (m.wired rest m.net.output) (.error (.sys .connectionError)) m' → Discipline m m'
  -- a command breaks the rules
  | refused {m m₁ : Machine Wire} {f : Frame} {rest : Bytes} {reason : UInt8} {message : Text} :
      scanFrame m.net.input = (.ok f, rest) →
      Serves f (m.wired rest m.net.output) (.error (.frameError reason message)) m₁ →
      Discipline m (m₁.told (refusal reason message))
  | internal {m m₁ : Machine Wire} {f : Frame} {rest : Bytes} :
      scanFrame m.net.input = (.ok f, rest) →
      Serves f (m.wired rest m.net.output) (.error .overflowError) m₁ →
      Discipline m (m₁.told (refusal E_INTERNAL "internal server error".toList))

/-- **A whole session**, from the state `m` to its end in `m'`. -/
inductive SessionEnds : Machine Wire → Machine Wire → Prop
  | hangup {m : Machine Wire} {rest : Bytes} :
      scanFrame m.net.input = (.error (.sys .connectionError), rest) →
      SessionEnds m (m.wired rest m.net.output)
  | violation {m : Machine Wire} {rest : Bytes} {reason : UInt8} {message : Text} :
      scanFrame m.net.input = (.error (.frameError reason message), rest) →
      SessionEnds m (m.wired rest (m.net.output ++ refusal reason message))
  | early {m : Machine Wire} {f : Frame} {rest : Bytes} :
      scanFrame m.net.input = (.ok f, rest) → f.type ≠ T_HELLO →
      SessionEnds m (m.wired rest (m.net.output ++
        refusal E_MALFORMED "expected HELLO before any command".toList))
  | greeted {m m' : Machine Wire} {f : Frame} {rest : Bytes} :
      scanFrame m.net.input = (.ok f, rest) → f.type = T_HELLO →
      Discipline (m.wired rest (m.net.output ++ okFrame)) m' → SessionEnds m m'

/-- The names of the entries are valid UTF-8. -/
def Utf8Names (os : Os) : Prop := ∀ n, os.entry n ≠ none → (utf8Decode n).all (·.isOk) = true

/-! ## Violations -/

theorem toDigits_short {n : Nat} (h : n < 256 ^ 8) : (Nat.toDigits 10 n).length ≤ 20 :=
  (Nat.length_toDigits_le_iff (by decide) (by decide)).mpr (lt_trans h (by decide))

theorem hex02X_length (t : UInt8) : (hex02X t).length = 2 := by
  have hlt : (Nat.toDigits 16 t.toNat).length ≤ 2 :=
    (Nat.length_toDigits_le_iff (by decide) (by decide)).mpr t.toNat_lt
  rw [hex02X, List.length_leftpad, List.length_map]
  omega

theorem parseHeader_violates {h : Bytes} {e : Exn} (he : parseHeader h = .error e) :
    ∃ reason, e.Violates reason := by
  have hversion : ∀ b : UInt8,
      (encode ("unsupported version ".toList ++ Nat.toDigits 10 b.toNat)).length < 256 ^ 2 := by
    intro b
    have hdigits := toDigits_short (lt_trans b.toNat_lt (by decide : 2 ^ 8 < 256 ^ 8))
    apply encode_short
    simp only [List.length_append, String.length_toList]
    have hfront : "unsupported version ".length = 20 := by decide
    omega
  have htype : ∀ b : UInt8,
      (encode ("unknown frame type 0x".toList ++ hex02X b)).length < 256 ^ 2 := by
    intro b
    apply encode_short
    simp only [List.length_append, String.length_toList, hex02X_length]
    decide
  unfold parseHeader at he
  split at he
  · cases he
    exact ⟨_, _, encode_short (by decide), rfl⟩
  · split at he
    · cases he
      exact ⟨_, _, hversion _, rfl⟩
    · split at he
      · cases he
        exact ⟨_, _, htype _, rfl⟩
      · cases he

/-- `read_frame` fails for want of bytes, or with a FrameError. -/
theorem scanFrame_error {s rest : Bytes} {e : Exn} (h : scanFrame s = (.error e, rest)) :
    e = .sys .connectionError ∨ ∃ reason, e.Violates reason := by
  unfold scanFrame at h
  split at h
  · next hlen =>
    split at h
    · next he =>
      cases h
      exact .inr (parseHeader_violates he)
    · next t n hok =>
      split at h
      · cases h
        refine .inr ⟨_, _, encode_short ?_, rfl⟩
        have hn := ((parseHeader_eq_ok (List.length_take_of_le hlen)).mp hok).2.1
        have hdigits := toDigits_short hn
        simp only [List.length_append, String.length_toList, hex02X_length]
        have hfront : "payload of ".length = 11 := by decide
        have hback : " bytes exceeds cap for type 0x".length = 30 := by decide
        omega
      · split at h
        · cases h
        · cases h
          exact .inl rfl
  · cases h
    exact .inl rfl

/-! ## Single commands -/

section Commands

variable {m m' : Machine Wire} {f : Frame} {payload : Bytes}

/-- What a handler does, as what the loop body does. -/
theorem wp_handled {h : Py Unit} (b : Bool)
    (hh : h.wp Net.smooth (fun _ m' => Serves f m (.ok b) m') (fun e m' => Serves f m (.error e) m') m) :
    (h >>= fun _ => (pure b : Py Bool)).wp Net.smooth (fun b m' => Serves f m (.ok b) m')
      (fun e m' => Serves f m (.error e) m') m :=
  Proc.wp_bind.mpr (Proc.wp_mono hh (fun _ _ hs => hs) fun _ _ he => he)

theorem encodePath_of_utf8 (h : Utf8Names m.os) :
    ∀ n ∈ m.os.entries m.os.cwd, encodePath n = .ok n := by
  intro n hn
  rw [encodePath, if_pos (h n (m.os.mem_entries.mp hn))]

/-- Every command ends as it should. -/
theorem dispatch_serves (hfl : m.inFlight = ∅) (hn : Utf8Names m.os) (f : Frame) :
    (dispatch f).wp Net.smooth (fun b m' => Serves f m (.ok b) m')
      (fun e m' => Serves f m (.error e) m') m := by
  obtain ⟨t, p⟩ := f
  unfold dispatch
  split
  · next ht =>
    obtain rfl : t = T_QUIT := ht
    refine wp_handled false ((yields_writeFrame (by decide) m).smooth (fun _ _ => .quit p m) ?_)
    rintro e ⟨⟩
  split
  · next ht =>
    obtain rfl : t = T_LIST := ht
    apply wp_handled true
    by_cases hlt : m.os.listing.length < 256 ^ 8
    · refine (handleList_of_writeFrame (encodePath_of_utf8 hn) (yields_writeFrame hlt m)).smooth
        (fun _ _ => .list p hlt) ?_
      rintro e ⟨⟩
    · have hle := Nat.le_of_not_lt hlt
      refine (handleList_of_writeFrame (encodePath_of_utf8 hn) (writeFrame_overflows hle m)).smooth
        ?_ ?_
      · rintro a ⟨⟩
      · rintro e ⟨⟩
        exact .listTooLong p hle
  split
  · next ht =>
    obtain rfl : t = T_GET := ht
    obtain ⟨r, m', hy, hends⟩ := handleGet_yields p m
    refine wp_handled true (hy.smooth ?_ ?_)
    · rintro a rfl
      exact .get hends
    · rintro e rfl
      exact .get hends
  split
  · next ht =>
    obtain rfl : t = T_PUT := ht
    refine wp_handled true (Proc.wp_mono (@handlePut_smooth p m ?_) ?_ ?_)
    · intro req _
      rw [hfl]
      exact Finset.notMem_empty _
    · intro a m' hends
      exact .put hends
    · intro e m' hends
      exact .put hends
  · next hq hl hg hp => exact .other m hq hl hg hp

theorem Refuses.keeps {reason : UInt8} {r : Except Exn Unit} (h : Refuses reason m r m') :
    m'.os = m.os ∧ m'.inFlight = m.inFlight ∧ m'.net.input = m.net.input := by
  obtain ⟨-, b, -, rfl⟩ := h
  exact ⟨rfl, rfl, rfl⟩

theorem PutRequest.Uploads.input {req : PutRequest} {r : Except Exn Unit}
    (h : req.Uploads m r m') : m'.net.input = m.net.input.drop (req.need m.os) := by
  unfold PutRequest.Uploads at h
  split at h
  · rw [h.2.2.2]
    rfl
  · split at h
    · obtain ⟨-, -, -, b, -, hnet⟩ := h
      rw [hnet]
      rfl
    · rw [h.2.2.2.2]
      rfl

theorem Listable.utf8 {n : Bytes} (h : Listable n) : (utf8Decode n).all (·.isOk) = true := by
  have henc := h.encodePath_eq
  unfold encodePath at henc
  split at henc
  · assumption
  · cases henc

/-- The names an upload adds are ASCII. -/
theorem Utf8Names.confined {req : PutRequest} {os os' : Os} (h : Utf8Names os)
    (hname : checkFilename req.name = true) (hframe : Os.Confined (req.Paths os) os os') :
    Utf8Names os' := by
  have hacc := accepted_of_checkFilename hname
  intro n hn
  by_cases hp : req.Paths os (os.cwd ++ [n])
  · rcases hp with hp | hp
    · obtain rfl : n = req.path := by simpa using hp
      exact hacc.listable.utf8
    · obtain rfl : n = req.partialPath := by simpa using hp
      exact (hacc.listable.partialName hacc.encode_no_slash _).utf8
  · rw [hframe.entry hp] at hn
    exact h n hn

/-- A command reads its body at most, holds no reservation at the end and adds names in UTF-8. -/
theorem Serves.keeps {r : Except Exn Bool} (h : Serves f m r m') :
    m'.inFlight = m.inFlight ∧ m'.net.input.length ≤ m.net.input.length ∧
      (Utf8Names m.os → Utf8Names m'.os) := by
  have hrefused : ∀ {reason r}, Refuses reason m r m' → m'.inFlight = m.inFlight ∧
      m'.net.input.length ≤ m.net.input.length ∧ (Utf8Names m.os → Utf8Names m'.os) := by
    intro reason r hr
    obtain ⟨hos, hfl, hin⟩ := hr.keeps
    exact ⟨hfl, by rw [hin], fun hn => by rw [hos]; exact hn⟩
  cases h with
  | quit p m => exact ⟨rfl, Nat.le_refl _, id⟩
  | list p hlt => exact ⟨rfl, Nat.le_refl _, id⟩
  | listTooLong p hle => exact ⟨rfl, Nat.le_refl _, id⟩
  | other m => exact ⟨rfl, Nat.le_refl _, id⟩
  | @get p m m' r hends =>
    unfold GetEnds at hends
    split at hends
    · obtain ⟨-, -, rfl⟩ := hends
      exact ⟨rfl, Nat.le_refl _, id⟩
    · split at hends
      · exact hrefused hends
      · split at hends
        · exact hrefused hends
        · split at hends
          · obtain ⟨-, rfl⟩ := hends
            exact ⟨rfl, Nat.le_refl _, id⟩
          · obtain ⟨-, rfl⟩ := hends
            exact ⟨rfl, Nat.le_refl _, id⟩
  | @put p m m' r hends =>
    unfold PutEnds at hends
    split at hends
    · obtain ⟨-, -, rfl⟩ := hends
      exact ⟨rfl, Nat.le_refl _, id⟩
    · split at hends
      · exact hrefused hends
      · next hname =>
        split at hends
        · exact hrefused hends
        · split at hends
          · exact hrefused hends
          · obtain ⟨hfl, hframe, hup⟩ := hends
            refine ⟨hfl, ?_, fun hn => hn.confined (by simpa using hname) hframe⟩
            rw [hup.input, List.length_drop]
            exact Nat.sub_le _ _

theorem map_eq_error {r : Except Exn Unit} {e : Exn} (h : r.map (fun _ => true) = .error e) :
    r = .error e := by
  cases r with
  | ok a => cases h
  | error e' =>
    cases h
    rfl

/-- The exceptions of a command. -/
theorem Serves.raises {r : Except Exn Bool} {e : Exn} (h : Serves f m r m') (he : r = .error e) :
    e = .sys .connectionError ∨ e = .overflowError ∨ ∃ reason, e.Violates reason := by
  cases h with
  | quit | list => cases he
  | listTooLong p hle =>
    cases he
    exact .inr (.inl rfl)
  | other m =>
    cases he
    exact .inr (.inr ⟨_, _, encode_short (by decide), rfl⟩)
  | @get p m m' r hends =>
    obtain rfl := map_eq_error he
    unfold GetEnds at hends
    split at hends
    · obtain ⟨hv, hr, -⟩ := hends
      cases hr
      exact .inr (.inr ⟨_, hv⟩)
    · split at hends
      · cases hends.1
      · split at hends
        · cases hends.1
        · split at hends
          · cases hends.1
            exact .inr (.inr ⟨_, _, encode_short (by decide), rfl⟩)
          · cases hends.1
  | @put p m m' r hends =>
    obtain rfl := map_eq_error he
    unfold PutEnds at hends
    split at hends
    · next hp =>
      cases hends.2.1
      exact .inr (.inr ⟨_, parsePut_violates hp⟩)
    · split at hends
      · cases hends.1
      · split at hends
        · cases hends.1
        · split at hends
          · cases hends.1
          · have hup := hends.2.2
            unfold PutRequest.Uploads at hup
            split at hup
            · cases hup.1
              exact .inl rfl
            · split at hup
              · cases hup.1
              · cases hup.1

end Commands

/-! ## Whole sessions -/

/-- Every way through the session on which no call fails comes to its end, in a state in `Q`. -/
inductive Session.Ensures (Q : Machine Wire → Prop) : Session → Machine Wire → Prop
  | closed {m : Machine Wire} : Q m → Session.Ensures Q .closed m
  | step {l : Session} {m : Machine Wire} {o : Sys} {k : o.Ans → Session} :
      l.next = some ⟨o, k⟩ → (∀ a m₁, Net.smooth.gives m o a m₁ → Session.Ensures Q (k a) m₁) →
      Session.Ensures Q l m

namespace Session

variable {Q : Machine Wire → Prop} {m : Machine Wire}

theorem ensures_failing {r : Option Request} {p : Py Unit}
    (h : p.wp Net.smooth (fun _ m' => Q m') (fun _ m' => Q m') m) :
    Ensures Q (settleFailing r p) m := by
  induction p generalizing m with
  | done a => exact .closed h
  | raise e => exact .closed h
  | call o k ih => exact .step rfl fun a m₁ ha => ih a (h.2 a m₁ ha)

theorem ensures_serving {r : Request} {p : Py Bool}
    (h : p.wp Net.smooth (fun b m' => Ensures Q (settleServing r (.done b)) m')
      (fun e m' => Ensures Q (fail (some r) e) m') m) : Ensures Q (settleServing r p) m := by
  induction p generalizing m with
  | done a => exact h
  | raise e => exact h
  | call o k ih => exact .step rfl fun a m₁ ha => ih a (h.2 a m₁ ha)

theorem ensures_awaiting {n : Nat} {p : Py (Option Frame)}
    (h : p.wp Net.smooth (fun f m' => Ensures Q (settleAwaiting n (.done f)) m')
      (fun e m' => Ensures Q (fail none e) m') m) : Ensures Q (settleAwaiting n p) m := by
  induction p generalizing m with
  | done a => exact h
  | raise e => exact h
  | call o k ih => exact .step rfl fun a m₁ ha => ih a (h.2 a m₁ ha)

theorem ensures_greeting {p : Py Unit}
    (h : p.wp Net.smooth (fun _ m' => Ensures Q (.awaiting 0 nextFrame) m')
      (fun e m' => Ensures Q (fail none e) m') m) : Ensures Q (settleGreeting p) m := by
  induction p generalizing m with
  | done a => exact h
  | raise e => exact h
  | call o k ih => exact .step rfl fun a m₁ ha => ih a (h.2 a m₁ ha)

/-- A FrameError is answered by one ERROR frame. -/
theorem ensures_violation {r : Option Request} {reason : UInt8} {e : Exn} (he : e.Violates reason)
    (hQ : ∀ message, e = .frameError reason message → Q (m.told (refusal reason message))) :
    Ensures Q (fail r e) m := by
  obtain ⟨message, hshort, rfl⟩ := he
  refine ensures_failing ((yields_sendError hshort m).smooth (fun _ _ => hQ message rfl) ?_)
  rintro e ⟨⟩

theorem Ensures.mono {Q' : Machine Wire → Prop} {l : Session} (h : Ensures Q l m)
    (hQ : ∀ m, Q m → Q' m) : Ensures Q' l m := by
  induction h with
  | closed hq => exact .closed (hQ _ hq)
  | step hn _ ih => exact .step hn ih

/-- The loop of `handle_client` keeps the discipline. -/
theorem awaiting_ensures (n : Nat) (m : Machine Wire) (hfl : m.inFlight = ∅)
    (hnames : Utf8Names m.os) : Ensures (Discipline m) (.awaiting n nextFrame) m := by
  -- every round takes a frame off the input
  induction hlen : m.net.input.length using Nat.strong_induction_on generalizing n m with
  | _ k ih =>
    show Ensures _ (settleAwaiting n nextFrame) m
    have hy := nextFrame_yields m
    cases hs : scanFrame m.net.input with
    | mk x rest =>
    rw [hs] at hy
    refine ensures_awaiting (hy.smooth ?_ ?_)
    · intro f hf
      cases f with
      | none =>
        obtain rfl := nextOf_none hf
        exact .closed (.hangup hs)
      | some f =>
        obtain rfl : x = .ok f := by
          have hx := nextOf_some (x := (x, rest)) hf
          exact congrArg Prod.fst hx
        show Ensures _ (settleServing (n, f) (dispatch f)) _
        refine ensures_serving (Proc.wp_mono
          (@dispatch_serves (m.wired rest m.net.output) hfl hnames f) ?_ ?_)
        · intro b m₁ hserve
          cases b with
          | false => exact .closed (.quit hs hserve)
          | true =>
            obtain ⟨hfl₁, hle, hnames₁⟩ := hserve.keeps
            have hshort := scanFrame_shorter hs
            refine (ih m₁.net.input.length ?_ (n + 1) m₁ (hfl₁.trans hfl) (hnames₁ hnames) rfl).mono
              fun m' hm' => .next hs hserve hm'
            change m₁.net.input.length ≤ rest.length at hle
            omega
        · intro e m₁ hserve
          rcases hserve.raises rfl with rfl | rfl | ⟨reason, hv⟩
          · exact .closed (.interrupted hs hserve)
          · refine ensures_failing ((yields_sendError (encode_short (by decide)) m₁).smooth
              (fun _ _ => .internal hs hserve) ?_)
            rintro e ⟨⟩
          · apply ensures_violation hv
            rintro message rfl
            exact .refused hs hserve
    · intro e he
      obtain ⟨rfl, hne⟩ := nextOf_raises he
      rcases scanFrame_error hs with rfl | ⟨reason, hv⟩
      · exact absurd rfl hne
      · apply ensures_violation hv
        rintro message rfl
        exact .violation hs

/-- A session keeps the discipline from its first byte on. -/
theorem accepted_ensures (m : Machine Wire) (hfl : m.inFlight = ∅) (hnames : Utf8Names m.os) :
    Ensures (SessionEnds m) accepted m := by
  show Ensures _ (settleGreeting greet) m
  have hread := readFrame_yields (m := m) m.net.input m.net.output
  rw [Machine.wired_self] at hread
  cases hs : scanFrame m.net.input with
  | mk x rest =>
  rw [hs] at hread
  apply ensures_greeting
  unfold greet
  cases x with
  | error e =>
    refine hread.bind_error.smooth ?_ ?_
    · rintro a ⟨⟩
    · rintro e ⟨⟩
      rcases scanFrame_error hs with rfl | ⟨reason, hv⟩
      · exact .closed (.hangup hs)
      · apply ensures_violation hv
        rintro message rfl
        exact .violation hs
  | ok f =>
    apply hread.smooth_bind
    by_cases hf : f.type = T_HELLO
    · rw [if_neg (not_ne_iff.mpr hf)]
      refine (yields_writeFrame (by decide) _).smooth (fun _ _ => ?_) ?_
      · exact (awaiting_ensures 0 (m.wired rest (m.net.output ++ okFrame)) hfl hnames).mono
          fun m' hm' => .greeted hs hf hm'
      · rintro e ⟨⟩
    · rw [if_pos hf]
      apply ensures_violation ⟨_, encode_short (by decide), rfl⟩
      rintro message ⟨⟩
      exact .early hs hf

/-- One call of a lone session that does not fail. -/
inductive SmoothStep : Session × Machine Wire → Session × Machine Wire → Prop
  | mk {l : Session} {m m₁ : Machine Wire} {o : Sys} {k : o.Ans → Session} {a : o.Ans} :
      l.next = some ⟨o, k⟩ → Net.smooth.gives m o a m₁ → SmoothStep (l, m) (k a, m₁)

abbrev SmoothRun : Session × Machine Wire → Session × Machine Wire → Prop :=
  Relation.ReflTransGen SmoothStep

theorem Ensures.run {c c₁ : Session × Machine Wire} (h : Ensures Q c.1 c.2) (hr : SmoothRun c c₁) :
    Ensures Q c₁.1 c₁.2 := by
  induction hr with
  | refl => exact h
  | tail _ hstep ih =>
    cases hstep with
    | mk hn hx =>
      cases ih with
      | closed => cases hn
      | step hn' hall =>
        cases hn'.symm.trans hn
        exact hall _ _ hx

end Session

/-! ## Every step on the way -/

/-- The client has greeted, and the greeting has been answered. -/
def Greeted (stream output : Bytes) : Prop :=
  (∃ rest, stream = frameBytes T_HELLO [] ++ rest) ∧ okFrame <+: output

/-- What holds of a session on the way: before the greeting and between the commands it only talks,
and once it fails there is one ERROR frame left to send. -/
def Session.Orderly (stream : Bytes) : Session → Machine Wire → Prop
  | .greeting p, m => Quietly none p ∧
      p.wp Net.wire.env (fun _ m' => Greeted stream m'.net.output) (fun _ _ => True) m
  | .awaiting _ p, m => Quietly none p ∧ Greeted stream m.net.output
  | .serving _ _, m => Greeted stream m.net.output
  | .failing _ p, _ => ∃ reason message, p = Py.sendall (refusal reason message)
  | .closed, _ => True

namespace Session

variable {stream : Bytes} {m m' : Machine Wire}

theorem onError_sends (e : Exn) : (∃ a, onError e = .done a) ∨ (∃ e', onError e = .raise e') ∨
    ∃ reason message, onError e = Py.sendall (refusal reason message) := by
  have hsend : ∀ reason message, (∃ e', sendError reason message = .raise e') ∨
      ∃ reason' message', sendError reason message = Py.sendall (refusal reason' message') := by
    intro reason message
    by_cases hm : (encode message).length < 256 ^ 2
    · exact .inr ⟨reason, message, sendError_eq hm⟩
    · have hp : packError reason message = .error .overflowError := by
        rw [packError, toBytes, if_neg hm]
        rfl
      refine .inl ⟨.overflowError, ?_⟩
      simp only [sendError, hp, Proc.ofExcept_error, Proc.raise_bind]
  unfold onError
  split
  · exact .inr (hsend _ _)
  · exact .inl ⟨_, rfl⟩
  · exact .inl ⟨_, rfl⟩
  · exact .inr (hsend _ _)

theorem orderly_fail (r : Option Request) (e : Exn) : Orderly stream (fail r e) m := by
  unfold fail
  rcases onError_sends e with ⟨a, h⟩ | ⟨e', h⟩ | ⟨reason, message, h⟩
  · rw [h]
    trivial
  · rw [h]
    trivial
  · rw [h]
    exact ⟨reason, message, rfl⟩

theorem orderly_serving {r : Request} {p : Py Bool} (h : Greeted stream m.net.output) :
    Orderly stream (settleServing r p) m := by
  cases p with
  | done b =>
    cases b with
    | true => exact ⟨Quietly.nextFrame, h⟩
    | false => trivial
  | raise e => exact orderly_fail _ _
  | call o k => exact h

theorem orderly_awaiting {n : Nat} {p : Py (Option Frame)} (hp : Quietly none p)
    (h : Greeted stream m.net.output) : Orderly stream (settleAwaiting n p) m := by
  cases p with
  | done f =>
    cases f with
    | none => trivial
    | some f => exact orderly_serving h
  | raise e => exact orderly_fail _ _
  | call o k => exact ⟨hp, h⟩

theorem orderly_greeting {p : Py Unit} (hp : Quietly none p)
    (h : p.wp Net.wire.env (fun _ m' => Greeted stream m'.net.output) (fun _ _ => True) m) :
    Orderly stream (settleGreeting p) m := by
  cases p with
  | done a => exact ⟨Quietly.nextFrame, h⟩
  | raise e => exact orderly_fail _ _
  | call o k => exact ⟨hp, h⟩

theorem orderly_accepted (os : Os) (inFlight : Finset Bytes) (stream : Bytes) :
    Orderly stream accepted ⟨os, inFlight, ⟨stream, []⟩⟩ := by
  refine ⟨Quietly.greet, ?_⟩
  have hread := readFrame_yields (m := ⟨os, inFlight, ⟨stream, []⟩⟩) stream []
  cases hs : scanFrame stream with
  | mk x rest =>
  rw [hs] at hread
  unfold greet
  cases x with
  | error e => exact hread.bind_error.wp (by rintro a ⟨⟩) fun _ _ => trivial
  | ok f =>
    refine Proc.wp_bind.mpr (hread.wp ?_ (by rintro e ⟨⟩))
    rintro a ⟨⟩
    by_cases hf : f.type = T_HELLO
    · rw [if_neg (not_ne_iff.mpr hf)]
      refine (yields_writeFrame (by decide) _).wp (fun _ _ => ⟨?_, ?_⟩) fun _ _ => trivial
      · -- a HELLO has no payload
        obtain ⟨t, p⟩ := f
        obtain rfl : t = T_HELLO := hf
        obtain ⟨hstream, cap, hcap, hle⟩ := scanFrame_eq_ok.mp hs
        cases hcap
        obtain rfl : p = [] := List.length_eq_zero_iff.mp (Nat.le_zero.mp hle)
        exact ⟨rest, hstream⟩
      · exact List.prefix_append _ _
    · rw [if_pos hf]
      trivial

/-- Replies are only added. -/
theorem output_mono {o : Sys} {a : o.Ans} (h : Net.wire.env.gives m o a m') :
    m.net.output <+: m'.net.output := by
  cases o with
  | recv n =>
    obtain ⟨w, ⟨c, -, -, -, -, hout⟩, rfl⟩ := h
    show _ <+: w.output
    rw [hout]
  | send b =>
    obtain ⟨w, ⟨-, rfl⟩, rfl⟩ := h
    exact List.prefix_append _ _
  | fs o =>
    obtain ⟨-, rfl⟩ := h
    exact List.prefix_refl _
  | reserve p =>
    obtain ⟨-, rfl⟩ := h
    exact List.prefix_refl _
  | discard p =>
    obtain rfl := h
    exact List.prefix_refl _

theorem quiet_os {r : Option Request} {o : Sys} {a : o.Ans} (ho : o.Quiet r)
    (h : Net.wire.env.gives m o a m') : m'.os = m.os := by
  cases ho with
  | recv n _ =>
    obtain ⟨w, -, rfl⟩ := h
    rfl
  | send _ =>
    obtain ⟨w, -, rfl⟩ := h
    rfl
  | fs hl =>
    obtain ⟨-, rfl⟩ := h
    exact Os.run_looks hl

/-- **One step further.** Only a command that is being served changes the directory. -/
theorem Step.orderly {l l' : Session} (h : Step (l, m) (l', m')) (ho : Orderly stream l m) :
    Orderly stream l' m' ∧ (m'.os ≠ m.os → ∃ r p, l = .serving r p) := by
  cases h with
  | @mk _ _ _ o k a hn hx =>
  cases l with
  | greeting p =>
    cases p with
    | call o' k' =>
      cases hn
      obtain ⟨hq, hwp⟩ := ho
      refine ⟨orderly_greeting (hq.2 a) (hwp.2 a m' hx), fun hne => ?_⟩
      exact absurd (quiet_os hq.1 hx) hne
    | _ => cases hn
  | awaiting n p =>
    cases p with
    | call o' k' =>
      cases hn
      obtain ⟨hq, hg⟩ := ho
      refine ⟨orderly_awaiting (hq.2 a) ⟨hg.1, hg.2.trans (output_mono hx)⟩, fun hne => ?_⟩
      exact absurd (quiet_os hq.1 hx) hne
    | _ => cases hn
  | serving r p =>
    cases p with
    | call o' k' =>
      cases hn
      exact ⟨orderly_serving ⟨ho.1, ho.2.trans (output_mono hx)⟩, fun _ => ⟨r, _, rfl⟩⟩
    | _ => cases hn
  | failing r p =>
    obtain ⟨reason, message, rfl⟩ := ho
    cases hn
    obtain ⟨w, ⟨rfl, rfl⟩, rfl⟩ := hx
    exact ⟨trivial, fun hne => absurd rfl hne⟩
  | closed => cases hn

theorem Run.orderly {c c' : Session × Machine Wire} (h : Run c c') (ho : Orderly stream c.1 c.2) :
    Orderly stream c'.1 c'.2 := by
  induction h with
  | refl => exact ho
  | tail _ hstep ih => exact (hstep.orderly ih).1

end Session

/-- A session at its start, with the bytes its client will send. -/
def opening (os : Os) (stream : Bytes) : Session × Machine Wire :=
  (Session.accepted, ⟨os, ∅, ⟨stream, []⟩⟩)

/-- **Session discipline** of the session of a client that sends `stream` and closes. -/
structure Disciplined (os : Os) (stream : Bytes) : Prop where
  /-- Every run comes to an end. -/
  ends : Acc (fun c' c => Session.Step c c') (opening os stream)
  /-- Every run whose calls succeed ends as `SessionEnds` says. -/
  outcome : ∀ m, Session.SmoothRun (opening os stream) (.closed, m) →
    SessionEnds (opening os stream).2 m
  /-- Only commands change the directory, and only after a HELLO that was answered. -/
  quiet : ∀ l m c, Session.Run (opening os stream) (l, m) → Session.Step (l, m) c →
    c.2.os ≠ m.os → (∃ r p, l = .serving r p) ∧ Greeted stream m.net.output
  /-- After an error one ERROR frame is sent, and that is the end. -/
  last : ∀ r p m, Session.Run (opening os stream) (.failing r p, m) →
    ∃ reason message, ∀ c, Session.Step (.failing r p, m) c →
      c = (.closed, m.told (refusal reason message))

/-- **Session discipline.** For every byte stream of a lone client and every directory whose names
are valid UTF-8. -/
theorem session_discipline {os : Os} (hnames : Utf8Names os) (stream : Bytes) :
    Disciplined os stream where
  ends := by
    obtain ⟨m', h⟩ := Session.accepted_ends (opening os stream).2
    exact h.acc
  outcome := by
    intro m hr
    have hens := (Session.accepted_ensures (opening os stream).2 rfl hnames)
    have hend := Session.Ensures.run (c := opening os stream) hens hr
    cases hend with
    | closed h => exact h
    | step hn _ => cases hn
  quiet := by
    intro l m c hr hstep hne
    have ho := hr.orderly (Session.orderly_accepted os ∅ stream)
    obtain ⟨r, p, rfl⟩ := (hstep.orderly ho).2 hne
    exact ⟨⟨r, p, rfl⟩, ho⟩
  last := by
    intro r p m hr
    obtain ⟨reason, message, rfl⟩ := hr.orderly (Session.orderly_accepted os ∅ stream)
    refine ⟨reason, message, fun c hstep => ?_⟩
    cases hstep with
    | mk hn hx =>
      cases hn
      obtain ⟨w, ⟨rfl, rfl⟩, rfl⟩ := hx
      rfl

/-- A client that greets, asks for a file that is not there, and quits. -/
theorem session_discipline_greeting : Disciplined Os.empty
    (frameBytes T_HELLO [] ++ frameBytes T_GET (getPayload 0 noToken (ascii "a")) ++
      frameBytes T_QUIT []) :=
  session_discipline (fun n hn => absurd (Os.empty_entry n) hn) _

end Retriever
