/-
# Retriever.Server.GetView — a GET seen from inside

What a GET can rely on while nobody touches the file it serves: once the name has been seen to be a
file, it stays that file with those bytes. `View` is what the handler has learned and what it has
sent, `View.env` the answers it can get, and `handleGet_wp` says that whatever it sends in such an
environment is an error frame or a reply with the size, the hash and the bytes of one content. Who
keeps the file from being touched is not said here.
-/
import Retriever.Calls
import Retriever.Frames
import Retriever.Names

namespace Retriever

/-- What a GET has learned about its name and what it has sent: the content once it has been seen,
the open file, the bytes handed to `sendall`. -/
structure View where
  known : Option Bytes
  file : Option Nat
  sent : Bytes

namespace View

def fresh : View := ⟨none, none, []⟩

/-- The calls of a GET of `N`. A file is opened once its name has been seen to be one. -/
inductive May (N : Bytes) (v : View) : Sys → Prop
  | stat : Plain N ∨ N = [Os.DOT] → May N v (.fs (.stat N))
  | openRb {c : Bytes} : v.known = some c → May N v (.fs (.openRb N))
  | read {f pos n : Nat} {c : Bytes} : v.known = some c → v.file = some f →
      May N v (.fs (.read f pos n))
  | send (b : Bytes) : May N v (.send b)

/-- The answers to them while the file stays as it is and the connection holds. -/
inductive Gives (N : Bytes) (v : View) : (o : Sys) → o.Ans → View → Prop
  | seen {c : Bytes} : (∀ c', v.known = some c' → c' = c) → c.length < OFF_MAX →
      Gives N v (.fs (.stat N)) (some (.regular c.length)) { v with known := some c }
  | unseen {st : Option Stat} : v.known = none → (∀ n, st ≠ some (.regular n)) →
      Gives N v (.fs (.stat N)) st v
  | opened (f : Nat) : Gives N v (.fs (.openRb N)) (.ok f) { v with file := some f }
  | got {f pos n : Nat} {c : Bytes} : v.known = some c →
      Gives N v (.fs (.read f pos n)) (.ok ((c.drop pos).take n)) v
  | sent (b : Bytes) : Gives N v (.send b) (.ok ()) { v with sent := v.sent ++ b }

/-- A GET of `N` in which `ok` holds at every call. -/
def env (N : Bytes) (ok : View → Prop) : Proc.Env Sys Sys.Ans View where
  may v o := ok v ∧ May N v o
  gives := Gives N

end View

/-- Where the reply to a request for content `c` starts. -/
def GetRequest.start (g : GetRequest) (c : Bytes) : Nat :=
  startOffset g.offset g.token (sha256 c)

theorem GetRequest.start_le {g : GetRequest} {c : Bytes} (h : g.offset ≤ c.length) :
    g.start c ≤ c.length := by
  unfold GetRequest.start startOffset
  split
  · exact h
  · exact Nat.zero_le _

/-- A reply in progress: nothing yet, or the front of the reply for the content that was seen. -/
def GetRequest.Underway (g : GetRequest) (v : View) : Prop :=
  v.sent = [] ∨ ∃ c, v.known = some c ∧ g.offset ≤ c.length ∧ v.sent <+: getReply c (g.start c)

/-- A finished reply: an error frame, or the whole reply for the content that was seen. -/
def GetRequest.Served (g : GetRequest) (v : View) : Prop :=
  (∃ reason, IsErrorFrame reason v.sent) ∨
    ∃ c, v.known = some c ∧ g.offset ≤ c.length ∧ v.sent = getReply c (g.start c)

/-- The front of a GET reply. -/
def getHeader (c : Bytes) (start : Nat) : Bytes :=
  MAGIC ++ [VERSION, T_OK] ++ toBE 8 (GET_META + (c.length - start))

theorem getMeta_length (c : Bytes) (start : Nat) : (getMeta c start).length = GET_META := by
  simp only [getMeta, List.length_append, toBE_length, sha256_length]
  rfl

theorem getReply_eq (c : Bytes) (start : Nat) :
    getReply c start = getHeader c start ++ getMeta c start ++ c.drop start := by
  simp only [getReply, frameBytes, getHeader, List.length_append, getMeta_length, List.length_drop,
    List.append_assoc]

section

variable {N : Bytes} {ok : View → Prop} {v : View} {E : Exn → View → Prop}

theorem View.wp_send {b : Bytes} {Q : Unit → View → Prop} (hok : ok v)
    (hQ : Q () { v with sent := v.sent ++ b }) : (Py.sendall b).wp (View.env N ok) Q E v := by
  refine Py.wp_sendall.mpr ⟨⟨hok, .send b⟩, ?_⟩
  intro a v' ha
  cases ha
  exact hQ

/-- A refusal is one error frame. -/
theorem View.wp_sendError {reason : UInt8} {m : Text} {Q : Unit → View → Prop} (hok : ok v)
    (hnil : v.sent = []) (hm : (encode m).length < 256 ^ 2)
    (hQ : ∀ v', IsErrorFrame reason v'.sent → Q () v') :
    (sendError reason m).wp (View.env N ok) Q E v := by
  rw [sendError_eq hm]
  refine View.wp_send hok (hQ _ ⟨m, hm, ?_⟩)
  show v.sent ++ _ = _
  rw [hnil, List.nil_append]

/-- The loop that sends the body, from `pos` on. -/
theorem View.wp_sendBody {f : Nat} (c front : Bytes) {Q : Unit → View → Prop} {start : Nat}
    (hok : ∀ v, v.known = some c → (∃ pos ≤ c.length, v.sent = front ++ (c.drop start).take pos) →
      ok v)
    (hQ : ∀ v, v.known = some c → v.sent = front ++ c.drop start → Q () v)
    {fuel pos remaining : Nat} (hfuel : remaining ≤ fuel) (hpos : pos + remaining = c.length)
    (hstart : start ≤ pos) {v : View} (hk : v.known = some c) (hf : v.file = some f)
    (hs : v.sent = front ++ (c.drop start).take (pos - start)) :
    (sendBody f fuel pos remaining).wp (View.env N ok) Q E v := by
  have hdone : remaining = 0 → Q () v := by
    intro h0
    apply hQ v hk
    rw [hs, List.take_of_length_le (by rw [List.length_drop]; omega)]
  induction fuel generalizing pos remaining v with
  | zero => exact hdone (by omega)
  | succ fuel ih =>
    rw [sendBody]
    split
    · next hrem =>
      refine Proc.wp_bind.mpr (Py.wp_read.mpr ⟨⟨hok v hk ⟨_, by omega, hs⟩, .read hk hf⟩, ?_⟩)
      intro a v' ha
      cases ha with
      | got hk' =>
        cases hk.symm.trans hk'
        -- the file is as long as it was, so there is something to read
        have hlen : ((c.drop pos).take (min 65536 remaining)).length = min 65536 remaining := by
          rw [List.length_take, List.length_drop]
          omega
        have hne : (c.drop pos).take (min 65536 remaining) ≠ [] := by
          rw [← List.length_pos_iff, hlen]
          omega
        show Proc.wp _ (if _ then _ else _) _ _ _
        rw [if_neg hne, hlen]
        refine Proc.wp_bind.mpr (View.wp_send (hok v hk ⟨_, by omega, hs⟩) ?_)
        have hsent : v.sent ++ (c.drop pos).take (min 65536 remaining) =
            front ++ (c.drop start).take (pos + min 65536 remaining - start) := by
          rw [hs, List.append_assoc, show pos + min 65536 remaining - start =
            (pos - start) + min 65536 remaining by omega, List.take_add, List.drop_drop,
            show start + (pos - start) = pos by omega]
        refine ih (by omega) (by omega) (by omega) hk hf hsent ?_
        intro h0
        refine hQ _ hk ?_
        show v.sent ++ _ = _
        rw [hsent, List.take_of_length_le (by rw [List.length_drop]; omega)]
    · next hrem => exact hdone (by omega)

/-- The part after the name has been seen to be a file. -/
theorem View.wp_serveFile {g : GetRequest} {c : Bytes} (hN : Plain N ∨ N = [Os.DOT])
    (hk : v.known = some c) (hs : v.sent = []) (hc : c.length < OFF_MAX) :
    (serveFile N g.offset g.token).wp (View.env N g.Underway) (fun _ v => g.Served v)
      (fun e v => v.sent = [] ∧ ∃ m, (encode m).length < 256 ^ 2 ∧
        e = .frameError E_MALFORMED m) v := by
  have hstat : ∀ {a v'}, View.Gives N v (.fs (.stat N)) a v' →
      a = some (.regular c.length) ∧ v' = v := by
    intro a v' ha
    cases ha with
    | seen hsame _ =>
      cases hsame c hk
      exact ⟨rfl, by rw [← hk]⟩
    | unseen hnone _ =>
      rw [hk] at hnone
      cases hnone
  unfold serveFile Py.getsize
  refine Proc.wp_bind.mpr (Proc.wp_bind.mpr (Py.wp_stat.mpr ⟨⟨.inl hs, .stat hN⟩, ?_⟩))
  intro a v' ha
  obtain ⟨rfl, rfl⟩ := hstat ha
  show Proc.wp _ (if c.length < g.offset then _ else _) _ _ _
  by_cases hoff : c.length < g.offset
  · rw [if_pos hoff]
    exact ⟨hs, _, encode_short (by decide), rfl⟩
  · rw [if_neg hoff]
    have hle : g.offset ≤ c.length := Nat.not_lt.mp hoff
    have hstart : g.start c ≤ c.length := GetRequest.start_le hle
    have hreply := getReply_eq c (g.start c)
    -- what has been sent at any time is a front of the reply
    have hunder : ∀ {w : View}, w.known = some c → w.sent <+: getReply c (g.start c) →
        g.Underway w := fun hw hp => .inr ⟨c, hw, hle, hp⟩
    refine Proc.wp_bind.mpr (wp_sha256File
      (J := fun f w => w.known = some c ∧ w.sent = [] ∧ w.file = some f) ⟨.inl hs, .openRb hk⟩
      ?_ ?_ hc ?_)
    · intro a w ha
      cases ha with
      | opened f => exact ⟨f, rfl, hk, hs, rfl⟩
    · rintro f n w pos ⟨hw, hws, hwf⟩
      refine ⟨⟨.inl hws, .read hw hwf⟩, ?_⟩
      intro a w' ha
      cases ha with
      | got hk' =>
        cases hw.symm.trans hk'
        exact ⟨rfl, hw, hws, hwf⟩
    · rintro f w ⟨hw, hws, -⟩
      have hlen : GET_META + (c.length - g.start c) < 256 ^ 8 := by
        have : (OFF_MAX : Nat) + GET_META < 256 ^ 8 := by decide
        omega
      have hsize8 : c.length < 256 ^ 8 := lt_trans hc (by decide)
      have hstart8 : g.start c < 256 ^ 8 := lt_of_le_of_lt hstart hsize8
      show Proc.wp _ (writeFrameHeader T_OK (GET_META + (c.length - g.start c)) >>= _) _ _ _
      rw [writeFrameHeader_eq hlen]
      refine Proc.wp_bind.mpr (View.wp_send (hunder hw (by rw [hws]; exact List.nil_prefix)) ?_)
      rw [hws, List.nil_append]
      show Proc.wp _ (Proc.ofExcept (toBytes 8 c.length) >>= fun size8 =>
        Proc.ofExcept (toBytes 8 (g.start c)) >>= _) _ _ _
      simp only [toBytes_of_lt hsize8, toBytes_of_lt hstart8, Proc.ofExcept_ok, Proc.done_bind]
      refine Proc.wp_bind.mpr (View.wp_send (hunder hw ?_) ?_)
      · rw [hreply, List.append_assoc]
        exact List.prefix_append _ _
      · refine Proc.wp_bind.mpr (Py.wp_openRb.mpr ⟨⟨hunder hw ?_, .openRb hw⟩, ?_⟩)
        · rw [hreply]
          exact List.prefix_append _ _
        · intro a w' ha
          cases ha with
          | opened f =>
            show Proc.wp _ (sendBody f (c.length - g.start c) (g.start c) (c.length - g.start c)) _ _ _
            refine View.wp_sendBody c (getHeader c (g.start c) ++ getMeta c (g.start c))
              ?_ ?_ le_rfl (by omega) le_rfl hw rfl ?_
            · rintro w' hw' ⟨pos, -, hs'⟩
              apply hunder hw'
              rw [hs', hreply]
              exact (List.prefix_append_right_inj _).mpr (List.take_prefix _ _)
            · intro w' hw' hs'
              exact .inr ⟨c, hw', hle, by rw [hs', hreply]⟩
            · rw [Nat.sub_self, List.take_zero, List.append_nil]
              rfl

/-- **What a GET sends.** Whatever the name is seen to be, the handler sends an error frame or the
reply for one content, in full; it raises nothing but a refusal of the offset, before anything has
been sent; and at every call what has been sent is a front of that reply. -/
theorem handleGet_wp {payload : Bytes} {g : GetRequest} (hg : parseGet payload = .ok g)
    (hs : v.sent = []) :
    (handleGet payload).wp (View.env (encode g.name) g.Underway) (fun _ v => g.Served v)
      (fun e v => v.sent = [] ∧ ∃ m, (encode m).length < 256 ^ 2 ∧
        e = .frameError E_MALFORMED m) v := by
  unfold handleGet
  simp only [hg, Proc.ofExcept_ok, Proc.done_bind]
  split
  · exact View.wp_sendError (.inl hs) hs (encode_short (by decide)) fun v' h => .inl ⟨_, h⟩
  · next hname =>
    have hN := (accepted_of_checkFilename (by simpa using hname)).plain_or_dot
    refine Proc.wp_bind.mpr (Proc.wp_bind.mpr (Py.wp_stat.mpr ⟨⟨.inl hs, .stat hN⟩, ?_⟩))
    intro a v' ha
    cases ha with
    | @seen c hsame hc =>
      show Proc.wp _ (serveFile _ g.offset g.token) _ _ _
      exact View.wp_serveFile hN rfl hs hc
    | unseen _ hno =>
      have hreg : a.any Stat.isReg = false := by
        cases a with
        | none => rfl
        | some st =>
          cases st with
          | regular n => exact absurd rfl (hno n)
          | directory n => rfl
      show Proc.wp _ (if a.any Stat.isReg = false then sendError _ _ else serveFile _ _ _) _ _ _
      rw [if_pos hreg]
      exact View.wp_sendError (.inl hs) hs (encode_short (by decide)) fun v' h => .inl ⟨_, h⟩

end

end Retriever
