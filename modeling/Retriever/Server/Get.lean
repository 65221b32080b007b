/-
# Retriever.Server.Get — GET as a reply

What a lone `handle_get` sends, for every payload: one ERROR frame, or the whole reply for the bytes
the name stands for. The directory stays as it is, and nothing is read from the connection.
-/
import Retriever.Server.GetView
import Retriever.Server.Put

namespace Retriever

open Proc (Yields)

/-- A FrameError whose message fits into an ERROR frame. -/
def Exn.Violates (reason : UInt8) (e : Exn) : Prop :=
  ∃ message, (encode message).length < 256 ^ 2 ∧ e = .frameError reason message

section

variable {m : Machine Wire} {p : Bytes} {i : Nat}

/-- The loop sends the file from `pos` to its end. -/
theorem sendBody_yields {fuel pos remaining : Nat} (hfuel : remaining ≤ fuel)
    (hpos : pos + remaining = (m.os.store.data i).length) :
    Yields Net.wire.env (sendBody i fuel pos remaining) m (.ok ())
      (m.wired m.net.input (m.net.output ++ (m.os.store.data i).drop pos)) := by
  -- nothing is left to send
  have hdone : ∀ (m : Machine Wire) (pos : Nat), (m.os.store.data i).length ≤ pos →
      m.wired m.net.input (m.net.output ++ (m.os.store.data i).drop pos) = m := by
    intro m pos hle
    rw [List.drop_of_length_le hle, List.append_nil, Machine.wired_self]
  induction fuel generalizing pos remaining m with
  | zero =>
    rw [hdone m pos (by omega)]
    exact Proc.yields_done _ _
  | succ fuel ih =>
    rw [sendBody]
    by_cases hrem : remaining > 0
    · have hlen : (((m.os.store.data i).drop pos).take (min 65536 remaining)).length =
          min 65536 remaining := by
        rw [List.length_take, List.length_drop]
        omega
      have hne : ((m.os.store.data i).drop pos).take (min 65536 remaining) ≠ [] := by
        rw [← List.length_pos_iff, hlen]
        omega
      have hread : Yields Net.wire.env (Py.read i pos (min 65536 remaining)) m
          (.ok (((m.os.store.data i).drop pos).take (min 65536 remaining))) m :=
        Py.wpm_read.mpr ⟨rfl, rfl⟩
      rw [if_pos hrem]
      apply hread.bind
      rw [if_neg hne, hlen]
      apply (yields_sendall _ m).bind
      have hnext := @ih (m.wired m.net.input (m.net.output ++
        ((m.os.store.data i).drop pos).take (min 65536 remaining)))
        (pos + min 65536 remaining) (remaining - min 65536 remaining) (by omega)
        (show _ = (m.os.store.data i).length by omega)
      simp only [Machine.wired, List.append_assoc] at hnext ⊢
      rw [← List.drop_drop, List.take_append_drop] at hnext
      exact hnext
    · rw [if_neg hrem, hdone m pos (by omega)]
      exact Proc.yields_done _ _

/-- The message of a GET whose offset is too large. -/
def pastEnd : Text := "GET offset is past the end of the file".toList

theorem serveFile_yields (g : GetRequest) (hat : m.os.at? p = some (.file i)) :
    Yields Net.wire.env (serveFile p g.offset g.token) m
      (if (m.os.store.data i).length < g.offset then .error (.frameError E_MALFORMED pastEnd)
        else .ok ())
      (if (m.os.store.data i).length < g.offset then m
        else m.wired m.net.input (m.net.output ++
          getReply (m.os.store.data i) (g.start (m.os.store.data i)))) := by
  have hsize : Yields Net.wire.env (Py.getsize p) m (.ok (m.os.store.data i).length) m :=
    (Py.wpm_getsize (Os.statAt_file hat)).mpr ⟨rfl, rfl⟩
  unfold serveFile
  apply hsize.bind
  by_cases hoff : (m.os.store.data i).length < g.offset
  · rw [if_pos hoff, if_pos hoff, if_pos hoff]
    exact Proc.yields_raise _ _
  · rw [if_neg hoff, if_neg hoff, if_neg hoff]
    have hsmall := m.os.small i
    have hstart : g.start (m.os.store.data i) ≤ (m.os.store.data i).length :=
      GetRequest.start_le (Nat.le_of_not_lt hoff)
    have hmax : OFF_MAX + GET_META < 256 ^ 8 := by decide
    apply (yields_sha256File hat).bind
    show Yields Net.wire.env (writeFrameHeader T_OK
      (GET_META + ((m.os.store.data i).length - g.start (m.os.store.data i))) >>= fun _ =>
        Proc.ofExcept (toBytes 8 (m.os.store.data i).length) >>= fun size8 =>
          Proc.ofExcept (toBytes 8 (g.start (m.os.store.data i))) >>= fun start8 => _) _ _ _
    rw [writeFrameHeader_eq (by omega), toBytes_of_lt (by omega), toBytes_of_lt (by omega)]
    simp only [Proc.ofExcept_ok, Proc.done_bind]
    refine (yields_sendall _ m).bind ((yields_sendall _ _).bind ?_)
    have hopen : ∀ net, Yields Net.wire.env (Py.openRb p) ⟨m.os, m.inFlight, net⟩ (.ok i)
        ⟨m.os, m.inFlight, net⟩ := by
      intro net
      apply Py.wpm_openRb.mpr
      simp only [Os.run, hat]
      exact ⟨rfl, rfl⟩
    apply (hopen _).bind
    have hbody := @sendBody_yields ⟨m.os, m.inFlight, ⟨m.net.input, m.net.output ++
      getHeader (m.os.store.data i) (g.start (m.os.store.data i)) ++
        getMeta (m.os.store.data i) (g.start (m.os.store.data i))⟩⟩ i
      ((m.os.store.data i).length - g.start (m.os.store.data i)) (g.start (m.os.store.data i))
      ((m.os.store.data i).length - g.start (m.os.store.data i)) le_rfl
      (show _ = (m.os.store.data i).length by omega)
    rw [getReply_eq]
    simp only [Machine.wired, List.append_assoc] at hbody ⊢
    exact hbody

end

/-- **How a GET ends.** -/
def GetEnds (payload : Bytes) (m : Machine Wire) (r : Except Exn Unit) (m' : Machine Wire) : Prop :=
  match parseGet payload with
  | .error e => e.Violates E_MALFORMED ∧ r = .error e ∧ m' = m
  | .ok g =>
    if checkFilename g.name = false then Refuses E_BAD_NAME m r m'
    else
      match m.os.content (encode g.name) with
      | none => Refuses E_NOT_FOUND m r m'
      | some c =>
        if c.length < g.offset then r = .error (.frameError E_MALFORMED pastEnd) ∧ m' = m
        else r = .ok () ∧ m' = m.wired m.net.input (m.net.output ++ getReply c (g.start c))

/-- The messages of the parsers are short. -/
theorem parseName_violates {payload : Bytes} {e : Exn} (h : parseName payload = .error e) :
    e.Violates E_MALFORMED := by
  unfold parseName at h
  split at h
  · cases h
    exact ⟨_, encode_short (by decide), rfl⟩
  · simp only at h
    split at h
    · cases h
      exact ⟨_, encode_short (by decide), rfl⟩
    · cases h

theorem parseGet_violates {payload : Bytes} {e : Exn} (h : parseGet payload = .error e) :
    e.Violates E_MALFORMED := by
  unfold parseGet at h
  split at h
  · cases h
    exact ⟨_, encode_short (by decide), rfl⟩
  · cases hp : parseName (payload.drop 16) with
    | error e' =>
      rw [hp] at h
      cases h
      exact parseName_violates hp
    | ok x =>
      rw [hp] at h
      simp only at h
      split at h
      · cases h
        exact ⟨_, encode_short (by decide), rfl⟩
      · cases h

theorem parsePut_violates {payload : Bytes} {e : Exn} (h : parsePut payload = .error e) :
    e.Violates E_MALFORMED := by
  unfold parsePut at h
  split at h
  · cases h
    exact ⟨_, encode_short (by decide), rfl⟩
  · cases hp : parseName (payload.drop (8 + HASH_SIZE)) with
    | error e' =>
      rw [hp] at h
      cases h
      exact parseName_violates hp
    | ok x =>
      rw [hp] at h
      simp only at h
      split at h
      · cases h
        exact ⟨_, encode_short (by decide), rfl⟩
      · cases h

theorem yields_isfile (p : Bytes) (m : Machine Wire) :
    Yields Net.wire.env (Py.isfile p) m (.ok (m.os.content p).isSome) m := by
  refine Py.wpm_isfile.mpr ⟨?_, rfl⟩
  cases hat : m.os.at? p with
  | none => simp [Os.content, Os.statAt, hat, Os.bytesOf]
  | some sl => cases sl <;> simp [Os.content, Os.statAt, hat, Os.bytesOf, Stat.isReg]

theorem handleGet_yields (payload : Bytes) (m : Machine Wire) :
    ∃ r m', Yields Net.wire.env (handleGet payload) m r m' ∧ GetEnds payload m r m' := by
  unfold handleGet GetEnds
  cases hp : parseGet payload with
  | error e => exact ⟨_, m, Proc.yields_raise e m, parseGet_violates hp, rfl, rfl⟩
  | ok g =>
    simp only [Proc.ofExcept_ok, Proc.done_bind]
    by_cases hname : checkFilename g.name = false
    · simp only [if_pos hname]
      exact refuses_sendError _ _ (encode_short (by decide)) m
    · simp only [if_neg hname]
      have hfile := yields_isfile (encode g.name) m
      cases hc : m.os.content (encode g.name) with
      | none =>
        rw [hc] at hfile
        obtain ⟨r, m', hy, hr⟩ := refuses_sendError E_NOT_FOUND "not found on server".toList
          (encode_short (by decide)) m
        refine ⟨r, m', hfile.bind ?_, hr⟩
        exact hy
      | some c =>
        rw [hc] at hfile
        obtain ⟨i, hat, rfl⟩ : ∃ i, m.os.at? (encode g.name) = some (.file i) ∧
            m.os.store.data i = c := Os.content_at hc
        refine ⟨_, _, hfile.bind (serveFile_yields g hat), ?_⟩
        simp only
        split <;> exact ⟨rfl, rfl⟩

end Retriever
