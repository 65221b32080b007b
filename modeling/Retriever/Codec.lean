/-
# Retriever.Codec — frames are read back as they were written

`scanFrame` is what `read_frame` makes of the front of a byte string: a frame or the exception, and
what is left. `readFrame_yields` says that the reader does that for every splitting of the bytes
over the `recv` calls. From it: the reader accepts exactly what the writer writes
(`scanFrame_eq_ok`), every other string is refused for the reason the protocol gives, and the C
reader and writer do the same as the Python ones (`frame_codec`).
-/
import Retriever.Sha256.Refine
import Retriever.Wire

namespace Retriever

/-- `read_frame` on the front of a byte string: the result and the rest. -/
def scanFrame (s : Bytes) : Except Exn Frame × Bytes :=
  if HEADER_SIZE ≤ s.length then
    match parseHeader (s.take HEADER_SIZE) with
    | .error e => (.error e, s.drop HEADER_SIZE)
    | .ok (t, n) =>
      if n > (payloadCaps t).getD 0 then
        (.error (.frameError E_MALFORMED ("payload of ".toList ++ Nat.toDigits 10 n
          ++ " bytes exceeds cap for type 0x".toList ++ hex02X t)), s.drop HEADER_SIZE)
      else if n ≤ (s.drop HEADER_SIZE).length then
        (.ok ⟨t, (s.drop HEADER_SIZE).take n⟩, (s.drop HEADER_SIZE).drop n)
      else (.error (.sys .connectionError), [])
  else (.error (.sys .connectionError), [])

variable {m : Machine Wire}

/-! ## The reader, for every splitting -/

theorem readFrameHeader_yields (input output : Bytes) :
    Proc.Yields Net.wire.env readFrameHeader (m.wired input output)
      (if HEADER_SIZE ≤ input.length then parseHeader (input.take HEADER_SIZE)
        else .error (.sys .connectionError))
      (m.wired (input.drop HEADER_SIZE) output) := by
  have h := readExactBytes_yields (m := m) HEADER_SIZE input output
  unfold readFrameHeader
  by_cases hl : HEADER_SIZE ≤ input.length
  · rw [if_pos hl] at h ⊢
    exact h.bind (Proc.yields_ofExcept _ _)
  · rw [if_neg hl] at h ⊢
    exact h.bind_error

theorem readFrame_yields (input output : Bytes) :
    Proc.Yields Net.wire.env readFrame (m.wired input output) (scanFrame input).1
      (m.wired (scanFrame input).2 output) := by
  have hh := readFrameHeader_yields (m := m) input output
  unfold readFrame scanFrame
  by_cases hl : HEADER_SIZE ≤ input.length
  · rw [if_pos hl] at hh ⊢
    cases hp : parseHeader (input.take HEADER_SIZE) with
    | error e =>
      rw [hp] at hh
      exact hh.bind_error
    | ok tn =>
      obtain ⟨t, n⟩ := tn
      rw [hp] at hh
      apply hh.bind
      by_cases hcap : n > (payloadCaps t).getD 0
      · simp only [if_pos hcap]
        exact Proc.yields_raise _ _
      · simp only [if_neg hcap]
        by_cases hn : n = 0
        · subst hn
          simp only [ne_eq, not_true_eq_false, if_false, Nat.zero_le, if_true, List.take_zero,
            List.drop_zero]
          exact Proc.yields_done _ _
        · simp only [ne_eq, hn, not_false_eq_true, if_true]
          have hbody := readExactBytes_yields (m := m) n (input.drop HEADER_SIZE) output
          by_cases hlen : n ≤ (input.drop HEADER_SIZE).length
          · rw [if_pos hlen] at hbody ⊢
            exact hbody.bind (Proc.yields_done _ _)
          · rw [if_neg hlen] at hbody ⊢
            rw [List.drop_of_length_le (Nat.le_of_lt (Nat.not_le.mp hlen))] at hbody
            exact hbody.bind_error
  · rw [if_neg hl] at hh ⊢
    rw [List.drop_of_length_le (Nat.le_of_lt (Nat.not_le.mp hl))] at hh
    exact hh.bind_error

/-! ## What is accepted -/

/-- The fields of fourteen bytes. -/
theorem header_split {h : Bytes} (hl : h.length = HEADER_SIZE) :
    h = h.take 4 ++ [h.getD 4 0, h.getD 5 0] ++ h.drop 6 ∧ (h.drop 6).length = 8 := by
  match h, hl with
  | [a, b, c, d, e, f, g, i, j, k, l, m, n, o], _ => exact ⟨rfl, rfl⟩

theorem parseHeader_eq_ok {h : Bytes} (hl : h.length = HEADER_SIZE) {t : UInt8} {n : Nat} :
    parseHeader h = .ok (t, n) ↔
      h = MAGIC ++ [VERSION, t] ++ toBE 8 n ∧ n < 256 ^ 8 ∧ payloadCaps t ≠ none := by
  obtain ⟨hsplit, hlen⟩ := header_split hl
  have hdrop : ∀ t' n', (MAGIC ++ [VERSION, t'] ++ toBE 8 n').drop 6 = toBE 8 n' := by
    intro t' n'
    rw [List.drop_left' (by simp [MAGIC])]
  constructor
  · intro hp
    unfold parseHeader at hp
    split at hp
    · cases hp
    · next hm =>
      split at hp
      · cases hp
      · next hv =>
        split at hp
        · cases hp
        · next hcap =>
          cases hp
          rw [List.take_of_length_le (by rw [hlen])]
          refine ⟨?_, ?_, hcap⟩
          · rw [toBE_ofBE_of_length hlen, ← not_ne_iff.mp hm, ← not_ne_iff.mp hv]
            exact hsplit
          · rw [← hlen]
            exact ofBE_lt _
  · rintro ⟨rfl, hn, hcap⟩
    have h4 : (MAGIC ++ [VERSION, t] ++ toBE 8 n).getD 4 0 = VERSION := by simp [MAGIC]
    have h5 : (MAGIC ++ [VERSION, t] ++ toBE 8 n).getD 5 0 = t := by simp [MAGIC]
    have hm : (MAGIC ++ [VERSION, t] ++ toBE 8 n).take 4 = MAGIC := by simp [MAGIC]
    simp only [parseHeader, hm, h4, h5, hdrop, ne_eq, not_true_eq_false, if_false, hcap]
    rw [List.take_of_length_le (by simp), ofBE_toBE hn]

theorem payloadCaps_lt {t : UInt8} : (payloadCaps t).getD 0 < 256 ^ 8 := by
  unfold payloadCaps
  split
  · decide
  · split <;> decide

/-- **The reader accepts what the writer writes**, and nothing else. -/
theorem scanFrame_eq_ok {s rest : Bytes} {t : UInt8} {p : Bytes} :
    scanFrame s = (.ok ⟨t, p⟩, rest) ↔
      s = frameBytes t p ++ rest ∧ ∃ cap, payloadCaps t = some cap ∧ p.length ≤ cap := by
  constructor
  · intro h
    unfold scanFrame at h
    split at h
    · next hl =>
      have htake : (s.take HEADER_SIZE).length = HEADER_SIZE := List.length_take_of_le hl
      split at h
      · cases h
      · next t' n hp =>
        split at h
        · cases h
        · next hcap =>
          split at h
          · next hn =>
            cases h
            obtain ⟨hhead, -, hknown⟩ := (parseHeader_eq_ok htake).mp hp
            have hlen : ((s.drop HEADER_SIZE).take n).length = n := List.length_take_of_le hn
            refine ⟨?_, ?_⟩
            · rw [frameBytes, hlen, List.append_assoc, List.take_append_drop, ← hhead,
                List.take_append_drop]
            · obtain ⟨cap, hc⟩ := Option.ne_none_iff_exists'.mp hknown
              refine ⟨cap, hc, ?_⟩
              rw [hlen]
              rw [hc, Option.getD_some] at hcap
              omega
          · cases h
    · cases h
  · rintro ⟨rfl, cap, hc, hle⟩
    have hlt := payloadCaps_lt (t := t)
    rw [hc, Option.getD_some] at hlt
    have hfront : (MAGIC ++ [VERSION, t] ++ toBE 8 p.length).length = HEADER_SIZE := by
      simp [MAGIC, HEADER_SIZE]
    have hs : frameBytes t p ++ rest =
        (MAGIC ++ [VERSION, t] ++ toBE 8 p.length) ++ (p ++ rest) := by
      rw [frameBytes, List.append_assoc]
    have hp : parseHeader (MAGIC ++ [VERSION, t] ++ toBE 8 p.length) = .ok (t, p.length) :=
      (parseHeader_eq_ok hfront).mpr ⟨rfl, by omega, by rw [hc]; simp⟩
    unfold scanFrame
    rw [hs, List.take_left' hfront, List.drop_left' hfront, hp,
      if_pos (by rw [List.length_append, hfront]; exact Nat.le_add_right _ _)]
    simp only [hc, Option.getD_some, if_neg (Nat.not_lt.mpr hle), List.length_append,
      if_pos (Nat.le_add_right p.length rest.length), List.take_left, List.drop_left]

/-! ## The C side -/

namespace C

/-- The shifts do not lose anything as long as the value fits. -/
theorem foldl_shift (bs : Bytes) (v : UInt64) (k : Nat) (hv : v.toNat < 256 ^ k)
    (hk : k + bs.length ≤ 8) :
    (bs.foldl (fun (v : UInt64) b => (v <<< 8) ||| b.toUInt64) v).toNat =
      bs.foldl (fun acc b => acc * 256 + b.toNat) v.toNat := by
  induction bs generalizing v k with
  | nil => rfl
  | cons b bs ih =>
    rw [List.length_cons] at hk
    have hb : b.toNat < 2 ^ 8 := b.toNat_lt
    have hpow : 256 ^ (k + 1) ≤ 256 ^ 8 := Nat.pow_le_pow_right (by decide) (by omega)
    have hsucc : 256 ^ (k + 1) = 256 ^ k * 256 := pow_succ 256 k
    have hstep : ((v <<< 8) ||| b.toUInt64).toNat = v.toNat * 256 + b.toNat := by
      rw [UInt64.toNat_or, UInt64.toNat_shiftLeft, UInt8.toNat_toUInt64]
      have hmod : v.toNat <<< ((8 : UInt64).toNat % 64) % 2 ^ 64 = v.toNat <<< 8 := by
        rw [show (8 : UInt64).toNat % 64 = 8 from rfl, Nat.shiftLeft_eq]
        exact Nat.mod_eq_of_lt (by omega)
      rw [hmod, ← Nat.shiftLeft_add_eq_or_of_lt hb, Nat.shiftLeft_eq]
    rw [List.foldl_cons, List.foldl_cons, ← hstep]
    exact ih _ (k + 1) (by rw [hstep]; omega) (by omega)

theorem getU64_toNat {src : Bytes} (h : 8 ≤ src.length) : (getU64 src).toNat = ofBE (src.take 8) := by
  have hrange : getU64 src =
      (src.take 8).foldl (fun (v : UInt64) b => (v <<< 8) ||| b.toUInt64) 0 := by
    match src, h with
    | a :: b :: c :: d :: e :: f :: g :: i :: _, _ => rfl
  rw [hrange]
  exact foldl_shift _ 0 0 (by decide) (by rw [List.length_take_of_le h])

theorem putU64_eq (v : UInt64) : putU64 v = toBE 8 v.toNat := CSha.lengthBytes_eq v

theorem putU64_ofNat (n : Nat) : putU64 (UInt64.ofNat n) = toBE 8 n := by
  rw [putU64_eq, UInt64.toNat_ofNat', show 2 ^ 64 = 256 ^ 8 from rfl, toBE_mod]

/-- The C writer writes the same bytes. -/
theorem writeFrame_puts {N : Type} {net : Net N} {put : N → Bytes → N} (h : net.Sends put) (t : UInt8)
    (p : Bytes) (m : Machine N) :
    Proc.Yields net.env (writeFrame t p) m (.ok true) (m.puts put (frameBytes t p)) := by
  unfold writeFrame
  rw [putU64_ofNat]
  apply (h.cWriteAll _ m).bind
  rw [if_neg (by decide)]
  by_cases hp : p.length > 0
  · rw [if_pos hp, frameBytes, ← h.puts_puts m (MAGIC ++ [VERSION, t] ++ toBE 8 p.length) p]
    exact h.cWriteAll p _
  · have hnil : p = [] := List.length_eq_zero_iff.mp (by omega)
    subst hnil
    rw [if_neg hp, frameBytes, List.append_nil]
    exact Proc.yields_done _ _

theorem writeFrame_yields (t : UInt8) (p : Bytes) (m : Machine Wire) :
    Proc.Yields Net.wire.env (writeFrame t p) m (.ok true)
      (m.wired m.net.input (m.net.output ++ frameBytes t p)) :=
  writeFrame_puts Net.wire_sends t p m

/-- The C reader on a header. -/
theorem readFrameHeader_yields (t : UInt8) (n : Nat) (rest output : Bytes) (m : Machine Wire) :
    Proc.Yields Net.wire.env readFrameHeader
      (m.wired (MAGIC ++ [VERSION, t] ++ toBE 8 n ++ rest) output)
      (.ok (some (t, UInt64.ofNat n))) (m.wired rest output) := by
  have hfront : (MAGIC ++ [VERSION, t] ++ toBE 8 n).length = HEADER_SIZE := by
    simp [MAGIC, HEADER_SIZE]
  have hread := readExact_yields (m := m) HEADER_SIZE (MAGIC ++ [VERSION, t] ++ toBE 8 n ++ rest) output
  rw [if_pos (by rw [List.length_append, hfront]; exact Nat.le_add_right _ _),
    List.take_left' hfront, List.drop_left' hfront] at hread
  unfold readFrameHeader
  apply hread.bind
  have h4 : (MAGIC ++ [VERSION, t] ++ toBE 8 n).getD 4 0 = VERSION := by simp [MAGIC]
  have h5 : (MAGIC ++ [VERSION, t] ++ toBE 8 n).getD 5 0 = t := by simp [MAGIC]
  have hm : (MAGIC ++ [VERSION, t] ++ toBE 8 n).take 4 = MAGIC := by simp [MAGIC]
  have hdrop : (MAGIC ++ [VERSION, t] ++ toBE 8 n).drop 6 = toBE 8 n := by
    rw [List.drop_left' (by simp [MAGIC])]
  have hlen : getU64 (toBE 8 n) = UInt64.ofNat n := by
    apply UInt64.toNat_inj.mp
    rw [getU64_toNat (by simp), List.take_of_length_le (by simp), ofBE_toBE_mod,
      UInt64.toNat_ofNat']
    rfl
  simp only [hm, h4, h5, hdrop, hlen, ne_eq, not_true_eq_false, if_false]
  exact Proc.yields_done _ _

/-- The C reader on a frame of any type. -/
theorem readFrame_frameBytes {p : Bytes} (hle : p.length ≤ PAYLOAD_CAP) (t : UInt8) (rest output : Bytes)
    (m : Machine Wire) :
    Proc.Yields Net.wire.env readFrame (m.wired (frameBytes t p ++ rest) output) (.ok (some ⟨t, p⟩))
      (m.wired rest output) := by
  have hbig : PAYLOAD_CAP < 256 ^ 8 := by decide
  have hhead : Proc.Yields Net.wire.env readFrameHeader (m.wired (frameBytes t p ++ rest) output)
      (.ok (some (t, UInt64.ofNat p.length))) (m.wired (p ++ rest) output) := by
    rw [frameBytes, List.append_assoc]
    exact readFrameHeader_yields t p.length (p ++ rest) output m
  have hnat : (UInt64.ofNat p.length).toNat = p.length := by
    rw [UInt64.toNat_ofNat']
    exact Nat.mod_eq_of_lt (by omega)
  unfold readFrame
  apply hhead.bind
  simp only [hnat]
  rw [if_neg (by omega)]
  by_cases hp : UInt64.ofNat p.length = 0
  · have hnil : p = [] := by
      apply List.length_eq_zero_iff.mp
      rw [← hnat, hp]
      rfl
    subst hnil
    rw [if_pos hp]
    exact Proc.yields_done _ _
  · rw [if_neg hp]
    have hread := readExact_yields (m := m) p.length (p ++ rest) output
    rw [if_pos (by simp), List.take_left, List.drop_left] at hread
    exact hread.bind (Proc.yields_done _ _)

/-- The C reader on a string the Python reader accepts. -/
theorem readFrame_yields {input output rest : Bytes} {t : UInt8} {p : Bytes}
    (h : scanFrame input = (.ok ⟨t, p⟩, rest)) (m : Machine Wire) :
    Proc.Yields Net.wire.env readFrame (m.wired input output) (.ok (some ⟨t, p⟩))
      (m.wired rest output) := by
  obtain ⟨rfl, cap, hc, hle⟩ := scanFrame_eq_ok.mp h
  have hcap : cap ≤ PAYLOAD_CAP := by
    unfold payloadCaps at hc
    split at hc
    · cases hc
      decide
    · split at hc
      · cases hc
        decide
      · cases hc
  exact readFrame_frameBytes (hle.trans hcap) t rest output m

end C

/-! ## Both implementations -/

/-- On the bytes `s` the Python reader takes `k` of them and ends with `r`, however they arrive. -/
def ReadsFrame (s : Bytes) (r : Except Exn Frame) (k : Nat) : Prop :=
  k ≤ s.length ∧ ∀ (m : Machine Wire) (output : Bytes),
    Proc.Yields Net.wire.env readFrame (m.wired s output) r (m.wired (s.drop k) output)

/-- On the bytes `s` the C reader takes `k` of them and returns the frame, however they arrive. -/
def C.ReadsFrame (s : Bytes) (f : Frame) (k : Nat) : Prop :=
  k ≤ s.length ∧ ∀ (m : Machine Wire) (output : Bytes),
    Proc.Yields Net.wire.env C.readFrame (m.wired s output) (.ok (some f)) (m.wired (s.drop k) output)

/-- A machine to read on. -/
def Machine.idle : Machine Wire := ⟨Os.empty, ∅, ⟨[], []⟩⟩

theorem readsFrame_iff {s : Bytes} {r : Except Exn Frame} {k : Nat} :
    ReadsFrame s r k ↔ k ≤ s.length ∧ scanFrame s = (r, s.drop k) := by
  refine and_congr_right fun _ => ⟨fun h => ?_, fun h m output => ?_⟩
  · obtain ⟨r', m', hrun⟩ := Proc.exists_runs Net.wire_live readFrame (Machine.idle.wired s [])
    obtain ⟨h1, h2⟩ := (readFrame_yields s []).unique hrun
    obtain ⟨h3, h4⟩ := (h Machine.idle []).unique hrun
    apply Prod.ext (h1.symm.trans h3)
    have hnet := congrArg (fun m : Machine Wire => m.net.input) (h2.symm.trans h4)
    exact hnet
  · have := readFrame_yields (m := m) s output
    rw [h] at this
    exact this

theorem parseHeader_wrong {h : Bytes} (hw : h.take 5 ≠ MAGIC ++ [VERSION])
    (hl : h.length = HEADER_SIZE) :
    ∃ message, parseHeader h = .error (.frameError E_UNSUPPORTED_VERSION message) := by
  unfold parseHeader
  by_cases hm : h.take 4 = MAGIC
  · rw [if_neg (not_ne_iff.mpr hm)]
    have hv : h.getD 4 0 ≠ VERSION := by
      intro hv
      apply hw
      rw [← hm, ← hv]
      match h, hl with
      | [a, b, c, d, e, f, g, i, j, k, l, m, n, o], _ => rfl
    rw [if_pos hv]
    exact ⟨_, rfl⟩
  · rw [if_pos hm]
    exact ⟨_, rfl⟩

/-- The fields of a header whose first five bytes are right. -/
theorem parseHeader_right {h : Bytes} (hr : h.take 5 = MAGIC ++ [VERSION])
    (hl : h.length = HEADER_SIZE) : parseHeader h =
      if payloadCaps (h.getD 5 0) = none then
        .error (.frameError E_MALFORMED ("unknown frame type 0x".toList ++ hex02X (h.getD 5 0)))
      else .ok (h.getD 5 0, ofBE ((h.drop 6).take 8)) := by
  have hm : h.take 4 = MAGIC := by
    have := congrArg (List.take 4) hr
    rwa [List.take_take] at this
  have hv : h.getD 4 0 = VERSION := by
    match h, hl, hr with
    | [a, b, c, d, e, f, g, i, j, k, l, m, n, o], _, hr =>
      exact congrArg (fun l => l.getD 4 0) hr
  unfold parseHeader
  rw [if_neg (not_ne_iff.mpr hm), if_neg (not_ne_iff.mpr hv)]

/-- **The frame reader accepts exactly the writer's image, and the implementations agree.** On
every byte string, for every way it arrives: `read_frame` returns `(t, p)` after `k` bytes exactly
when these are `write_frame(t, p)` for a known type with a payload within its cap; fourteen bytes
with a wrong magic or version are UNSUPPORTED_VERSION; a right start with an unknown type or too
long a payload is MALFORMED; in the other cases, where the string ends too early, the reader raises
`ConnectionError`. What the Python reader accepts the C reader accepts alike, and the two writers
write the same. -/
theorem frame_codec (s : Bytes) :
    (∀ t p k, ReadsFrame s (.ok ⟨t, p⟩) k ↔ s.take k = frameBytes t p ∧ k ≤ s.length ∧
      ∃ cap, payloadCaps t = some cap ∧ p.length ≤ cap) ∧
    (HEADER_SIZE ≤ s.length → s.take 5 ≠ MAGIC ++ [VERSION] →
      ∃ message, ReadsFrame s (.error (.frameError E_UNSUPPORTED_VERSION message)) HEADER_SIZE) ∧
    (HEADER_SIZE ≤ s.length → s.take 5 = MAGIC ++ [VERSION] →
      (∀ cap, payloadCaps (s.getD 5 0) = some cap → cap < ofBE ((s.drop 6).take 8)) →
      ∃ message, ReadsFrame s (.error (.frameError E_MALFORMED message)) HEADER_SIZE) ∧
    ((s.length < HEADER_SIZE ∨ s.take 5 = MAGIC ++ [VERSION] ∧
      ∃ cap, payloadCaps (s.getD 5 0) = some cap ∧ ofBE ((s.drop 6).take 8) ≤ cap ∧
        s.length < HEADER_SIZE + ofBE ((s.drop 6).take 8)) →
      ReadsFrame s (.error (.sys .connectionError)) s.length) ∧
    (∀ t p k, ReadsFrame s (.ok ⟨t, p⟩) k → C.ReadsFrame s ⟨t, p⟩ k) ∧
    ∀ t p (m : Machine Wire), p.length < 2 ^ 64 →
      Proc.Yields Net.wire.env (writeFrame t p) m (.ok ())
        (m.wired m.net.input (m.net.output ++ frameBytes t p)) ∧
      Proc.Yields Net.wire.env (C.writeFrame t p) m (.ok true)
        (m.wired m.net.input (m.net.output ++ frameBytes t p)) := by
  -- the header as the first fourteen bytes and as fields of the whole string
  have hfields : HEADER_SIZE ≤ s.length → (s.take HEADER_SIZE).length = HEADER_SIZE ∧
      (s.take HEADER_SIZE).take 5 = s.take 5 ∧ (s.take HEADER_SIZE).getD 5 0 = s.getD 5 0 ∧
      ((s.take HEADER_SIZE).drop 6).take 8 = (s.drop 6).take 8 := by
    intro hl
    refine ⟨List.length_take_of_le hl, by rw [List.take_take]; rfl, ?_, ?_⟩
    · match s, hl with
      | _ :: _ :: _ :: _ :: _ :: _ :: _, _ => rfl
    · rw [List.drop_take, List.take_take]
      rfl
  have hscan := fun (hl : HEADER_SIZE ≤ s.length) (hr : s.take 5 = MAGIC ++ [VERSION]) =>
    parseHeader_right ((hfields hl).2.1.trans hr) (hfields hl).1
  refine ⟨fun t p k => ?_, fun hl hw => ?_, fun hl hr hcap => ?_, fun hshort => ?_,
    fun t p k h => ?_, fun t p m hp => ⟨?_, C.writeFrame_yields t p m⟩⟩
  · rw [readsFrame_iff]
    constructor
    · rintro ⟨hk, h⟩
      obtain ⟨hs, hcap⟩ := scanFrame_eq_ok.mp h
      refine ⟨?_, hk, hcap⟩
      have hboth : s.take k ++ s.drop k = frameBytes t p ++ s.drop k := by
        rw [List.take_append_drop]
        exact hs
      exact List.append_cancel_right hboth
    · rintro ⟨hs, hk, hcap⟩
      refine ⟨hk, scanFrame_eq_ok.mpr ⟨?_, hcap⟩⟩
      rw [← hs, List.take_append_drop]
  · obtain ⟨hlen, h5, -, -⟩ := hfields hl
    obtain ⟨message, hm⟩ := parseHeader_wrong (by rw [h5]; exact hw) hlen
    refine ⟨message, readsFrame_iff.mpr ⟨hl, ?_⟩⟩
    rw [scanFrame, if_pos hl, hm]
  · obtain ⟨-, -, ht, hn⟩ := hfields hl
    have hp := hscan hl hr
    rw [ht, hn] at hp
    have hbad : ∃ message,
        scanFrame s = (.error (.frameError E_MALFORMED message), s.drop HEADER_SIZE) := by
      rw [scanFrame, if_pos hl, hp]
      cases hc : payloadCaps (s.getD 5 0) with
      | none => exact ⟨_, rfl⟩
      | some cap =>
        simp only [reduceCtorEq, if_false, hc, Option.getD_some, gt_iff_lt, if_pos (hcap cap hc)]
        exact ⟨_, rfl⟩
    obtain ⟨message, hm⟩ := hbad
    exact ⟨message, readsFrame_iff.mpr ⟨hl, hm⟩⟩
  · rw [readsFrame_iff]
    refine ⟨le_refl _, ?_⟩
    rw [List.drop_length]
    rcases hshort with hl | ⟨hr, cap, hc, hle, hlen⟩
    · rw [scanFrame, if_neg (by omega)]
    · by_cases hl : HEADER_SIZE ≤ s.length
      · obtain ⟨-, -, ht, hn⟩ := hfields hl
        have hp := hscan hl hr
        rw [ht, hn, if_neg (by rw [hc]; simp)] at hp
        rw [scanFrame, if_pos hl, hp]
        simp only [hc, Option.getD_some, gt_iff_lt, if_neg (Nat.not_lt.mpr hle)]
        rw [if_neg (by rw [List.length_drop]; omega)]
      · rw [scanFrame, if_neg hl]
  · obtain ⟨hk, h⟩ := readsFrame_iff.mp h
    exact ⟨hk, fun m output => C.readFrame_yields h m⟩
  · rw [writeFrame_eq (by simpa using hp)]
    exact yields_sendall _ m

end Retriever
