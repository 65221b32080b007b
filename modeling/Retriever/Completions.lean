/-
# Retriever.Completions — when a command of the C client returns 0

The C client returns 0 or -1 from a command, and nothing is raised. Which of the two it is, is decided by
the disk and the bytes of the server, as with Python, and this module says how. The conditions are
sharper than Python's in the type of every reply, and wider where Python decodes text.
-/
import Retriever.Endings

namespace Retriever

open Proc (Yields Runs)

/-- The stream starts with the OK frame `f`. -/
def Granted (stream : Bytes) (f : Frame) (rest : Bytes) : Prop :=
  scanFrame stream = (.ok f, rest) ∧ f.type = T_OK

theorem Granted.unique {s rest rest' : Bytes} {f f' : Frame} (h : Granted s f rest)
    (h' : Granted s f' rest') : f = f' ∧ rest = rest' := by
  cases h.1.symm.trans h'.1
  exact ⟨rfl, rfl⟩

section Frames

variable {m : Machine Wire}

/-- The C reader on an OK frame, and on everything else. -/
theorem C.readFrame_wp {Q : Option Frame → Machine Wire → Prop} {E : Empty → Machine Wire → Prop}
    (hok : ∀ f rest, Granted m.net.input f rest → Q (some f) (m.wired rest m.net.output))
    (hno : ∀ r m', (¬ ∃ f rest, Granted m.net.input f rest) → (∀ f, r = some f → f.type ≠ T_OK) →
      Q r m') : C.readFrame.wp Net.wire.env Q E m := by
  by_cases h : ∃ f rest, Granted m.net.input f rest
  · obtain ⟨f, rest, hs, ht⟩ := h
    have hread := @C.readFrame_yields m.net.input m.net.output rest f.type f.payload hs m
    rw [Machine.wired_self] at hread
    refine hread.wp (fun r hr => ?_) fun e => e.elim
    cases hr
    exact hok f rest ⟨hs, ht⟩
  · refine Proc.wp_mono (C.readFrame_sound m) (fun r m' hr => hno r m' h ?_) fun e => e.elim
    intro f hf ht
    obtain ⟨hle, hin⟩ := hr.2 f hf
    refine h ⟨f, m'.net.input, scanFrame_eq_ok.mpr ⟨hin, C.PAYLOAD_CAP, ?_, hle⟩, ht⟩
    rw [ht]
    rfl

/-- The C writer. -/
theorem C.writeFrame_wp {t : UInt8} {payload : Bytes} {Q : Bool → Machine Wire → Prop}
    {E : Empty → Machine Wire → Prop}
    (h : Q true (m.wired m.net.input (m.net.output ++ frameBytes t payload))) :
    (C.writeFrame t payload).wp Net.wire.env Q E m := by
  refine (C.writeFrame_yields t payload m).wp (fun ok hok => ?_) fun e => e.elim
  cases hok
  exact h

/-- The handshake: an OK frame is what it takes. -/
theorem C.doHello_wp {Q : Bool → Machine Wire → Prop} {E : Empty → Machine Wire → Prop}
    (hok : ∀ f rest output, Granted m.net.input f rest → Q true (m.wired rest output))
    (hno : ∀ m', (¬ ∃ f rest, Granted m.net.input f rest) → Q false m') :
    C.doHello.wp Net.wire.env Q E m := by
  unfold C.doHello
  refine Proc.wp_bind.mpr (C.writeFrame_wp ?_)
  rw [if_neg (by decide)]
  refine Proc.wp_bind.mpr (C.readFrame_wp ?_ ?_)
  · intro f rest hf
    simp only
    rw [if_neg (by rw [hf.2]; decide), if_neg (not_not.mpr hf.2)]
    exact hok f rest _ hf
  · intro r m' hnone hr
    cases r with
    | none => exact hno m' hnone
    | some f =>
      simp only
      split
      · exact hno m' hnone
      rw [if_pos (hr f rfl)]
      exact hno m' hnone

/-- The listing: an OK frame is what it takes, and its payload is what is printed. -/
theorem C.doList_wp : C.doList.wp Net.wire.env
    (fun names _ => (∃ f rest, Granted m.net.input f rest ∧
        names = some (C.listNames f.payload 0 (List.range (f.payload.length + 1)))) ∨
      names = none ∧ ¬ ∃ f rest, Granted m.net.input f rest) (fun _ _ => False) m := by
  unfold C.doList
  refine Proc.wp_bind.mpr (C.writeFrame_wp ?_)
  rw [if_neg (by decide)]
  refine Proc.wp_bind.mpr (C.readFrame_wp ?_ ?_)
  · intro f rest hf
    simp only
    rw [if_neg (by rw [hf.2]; decide), if_neg (not_not.mpr hf.2)]
    exact .inl ⟨f, rest, hf, rfl⟩
  · intro r m' hnone hr
    cases r with
    | none => exact .inr ⟨rfl, hnone⟩
    | some f =>
      simp only
      split
      · exact .inr ⟨rfl, hnone⟩
      rw [if_pos (hr f rfl)]
      exact .inr ⟨rfl, hnone⟩

end Frames

/-! ## An upload -/

/-- What the C client needs for an upload: two OK frames, and an offset within the file in the first. -/
def C.Puts (os : Os) (path name stream : Bytes) : Prop :=
  ∃ i, os.at? path = some (.file i) ∧ name.length ≤ C.MAX_NAME ∧
    ∃ f rest, Granted stream f rest ∧ 8 ≤ f.payload.length ∧
      ofBE (f.payload.take 8) ≤ (os.store.data i).length ∧ ∃ f' rest', Granted rest f' rest'

theorem C.receiveVerdict_wp {m : Machine Wire} : C.receiveVerdict.wp Net.wire.env
    (fun ok _ => ok = true ↔ ∃ f rest, Granted m.net.input f rest) (fun _ _ => False) m := by
  unfold C.receiveVerdict
  refine Proc.wp_bind.mpr (C.readFrame_wp ?_ ?_)
  · intro f rest hf
    simp only
    rw [if_neg (by rw [hf.2]; decide)]
    exact iff_of_true (decide_eq_true hf.2) ⟨f, rest, hf⟩
  · intro r m' hnone hr
    cases r with
    | none => exact iff_of_false (by decide) hnone
    | some f =>
      simp only
      split
      · exact iff_of_false (by decide) hnone
      · exact iff_of_false (fun h => hr f rfl (of_decide_eq_true h)) hnone

theorem C.doPut_completes (m : Machine Wire) (path name : Bytes) : (C.doPut path name).wp Net.wire.env
    (fun ok _ => ok = true ↔ C.Puts m.os path name m.net.input) (fun _ _ => False) m := by
  by_cases hreq : (∃ i, m.os.at? path = some (.file i)) ∧ name.length ≤ C.MAX_NAME
  · obtain ⟨⟨i, hat⟩, hname⟩ := hreq
    apply C.doPut_wp Net.wire_sends hat rfl hname
    unfold C.receiveStep1
    refine Proc.wp_bind.mpr (C.readFrame_wp ?_ ?_)
    · intro f rest hf
      simp only
      rw [if_neg (by rw [hf.2]; decide)]
      -- the offset in the frame decides, and then the verdict
      have hputs : C.Puts m.os path name m.net.input ↔ 8 ≤ f.payload.length ∧
          ofBE (f.payload.take 8) ≤ (m.os.store.data i).length ∧ ∃ f' rest', Granted rest f' rest' := by
        constructor
        · rintro ⟨i', hat', -, f', rest', hf', h⟩
          obtain ⟨rfl, rfl⟩ := hf.unique hf'
          cases hat.symm.trans hat'
          exact h
        · exact fun h => ⟨i, hat, hname, f, rest, hf, h⟩
      by_cases hlen : f.payload.length < 8
      · rw [if_pos (.inr hlen)]
        exact iff_of_false (by decide) fun h => by have := (hputs.mp h).1; omega
      · have hoff : (C.getU64 f.payload).toNat = ofBE (f.payload.take 8) :=
          C.getU64_toNat (Nat.le_of_not_lt hlen)
        rw [if_neg (not_or.mpr ⟨not_not.mpr hf.2, hlen⟩), hputs]
        refine C.sendUpload_wp (m := Machine.wired _ rest _) Net.wire_sends hat rfl (fun hfar => ?_)
          fun hnear => ?_
        · rw [hoff] at hfar
          exact iff_of_false (by decide) fun h => absurd h.2.1 (Nat.not_le.mpr hfar)
        · rw [hoff] at hnear
          refine Proc.wp_mono C.receiveVerdict_wp (fun ok _ h => h.trans ?_) fun _ _ h => h
          exact ⟨fun h => ⟨Nat.le_of_not_lt hlen, hnear, h⟩, fun h => h.2.2⟩
    · intro r m' hnone hr
      have hfail : false = true ↔ C.Puts m.os path name m.net.input := by
        apply iff_of_false (by decide)
        rintro ⟨-, -, -, f, rest, hf, -⟩
        exact hnone ⟨f, rest, hf⟩
      cases r with
      | none => exact hfail
      | some f =>
        simp only
        split
        · exact hfail
        rw [if_pos (.inl (hr f rfl))]
        exact hfail
  · refine Proc.wp_mono (C.doPut_unrequestable hreq) (fun ok _ hok => ?_) fun _ _ h => h
    rw [hok]
    apply iff_of_false (by decide)
    rintro ⟨i, hat, hname, -⟩
    exact hreq ⟨⟨i, hat⟩, hname⟩

/-! ## A download, once it is announced -/

section Download

variable {m : Machine Wire} {f : Nat} {os os₁ : Os} {dest p digest : Bytes}

/-- The whole body is taken only if it is there and has room. -/
theorem C.saveBody_room {fuel : Nat} {n : UInt64} (hfuel : n.toNat ≤ fuel) :
    (C.saveBody f fuel n).wp Net.wire.env (fun ok _ => ok = true →
      n.toNat ≤ m.net.input.length ∧ (m.os.store.data f).length + n.toNat < OFF_MAX)
      (fun _ _ => False) m := by
  induction fuel generalizing m n with
  | zero => exact fun _ => ⟨by omega, by have := m.os.small f; omega⟩
  | succ fuel ih =>
    unfold C.saveBody
    by_cases hpos : n > 0
    · rw [if_pos hpos]
      have hpos' : 0 < n.toNat := by simpa using UInt64.lt_iff_toNat_lt.mp hpos
      generalize hwant : (if n < 65536 then n else 65536) = want
      have hwant' : want.toNat ≤ n.toNat ∧ 0 < want.toNat := by
        rw [← hwant, C.want_toNat]
        exact ⟨Nat.min_le_right _ _, by simp only [C.BLOCK]; omega⟩
      have hsub : (n - want).toNat = n.toNat - want.toNat :=
        UInt64.toNat_sub_of_le _ _ (UInt64.le_iff_toNat_le.mpr hwant'.1)
      have hread := C.readExact_yields (m := m) want.toNat m.net.input m.net.output
      rw [Machine.wired_self] at hread
      refine Proc.wp_bind.mpr (hread.wp (fun r hr => ?_) fun e => e.elim)
      cases hr
      by_cases hfull : want.toNat ≤ m.net.input.length
      · rw [if_pos hfull]
        have hlen : (m.net.input.take want.toNat).length = want.toNat := by
          rw [List.length_take, Nat.min_eq_left hfull]
        refine Proc.wp_bind.mpr (Proc.wp_perform.mpr (Net.call_fs.mpr ?_))
        by_cases hsmall : (m.os.store.data f).length + (m.net.input.take want.toNat).length < OFF_MAX
        · rw [show (m.wired (m.net.input.drop want.toNat) m.net.output).os.run
            (.write f (m.net.input.take want.toNat)) =
            (.ok (), m.os.extend f (m.net.input.take want.toNat)) from Os.run_write hsmall]
          refine Proc.wp_mono (@ih ⟨m.os.extend f (m.net.input.take want.toNat), m.inFlight,
            ⟨m.net.input.drop want.toNat, m.net.output⟩⟩ (n - want) (by omega)) (fun ok _ h hok => ?_)
            fun _ _ h => h
          have hdata := congrArg List.length (Os.extend_data hsmall)
          rw [List.length_append, hlen] at hdata
          obtain ⟨hleft, hroom⟩ := h hok
          simp only [List.length_drop] at hleft hroom
          omega
        · have hrun : m.os.run (.write f (m.net.input.take want.toNat)) = (.error .osError, m.os) := by
            simp only [Os.run, dif_neg hsmall]
          rw [show (m.wired (m.net.input.drop want.toNat) m.net.output).os.run
            (.write f (m.net.input.take want.toNat)) = _ from hrun]
          exact fun h => by cases h
      · rw [if_neg hfull]
        exact fun h => by cases h
    · have hzero : n.toNat = 0 := by
        rw [gt_iff_lt, UInt64.lt_iff_toNat_lt] at hpos
        exact Nat.eq_zero_of_not_pos hpos
      rw [if_neg hpos, hzero]
      exact fun _ => ⟨Nat.zero_le _, m.os.small f⟩

theorem C.verifyDownload_completes (hat : m.os.at? p = some (.file f)) :
    (C.verifyDownload dest p digest).wp Net.wire.env
      (fun ok _ => ok = true ↔ sha256 (m.os.store.data f) = digest ∧
        (m.os.run (.rename p dest)).1 = .ok ()) (fun _ _ => False) m := by
  unfold C.verifyDownload
  refine Proc.wp_bind.mpr (C.wpm_sha256File_at hat ?_)
  simp only
  by_cases hhash : sha256 (m.os.store.data f) = digest
  · rw [if_neg (not_not.mpr hhash)]
    refine Proc.wp_bind.mpr (Proc.wp_perform.mpr (Net.call_fs.mpr ?_))
    cases hren : (m.os.run (.rename p dest)).1 with
    | ok u => exact iff_of_true rfl ⟨hhash, rfl⟩
    | error e => exact iff_of_false (by decide) fun h => by cases h.2
  · rw [if_pos hhash]
    refine Proc.wp_bind.mpr (Proc.wp_perform.mpr (Net.call_fs.mpr ?_))
    exact iff_of_false (by decide) fun h => hhash h.1

/-- From the opening of the partial on. -/
theorem C.fetch_completes (start n : UInt64) : (C.fetchBody dest p digest start n).wp Net.wire.env
    (fun ok _ => ok = true ↔ m.os.Completes dest p start.toNat n.toNat digest m.net.input)
    (fun _ _ => False) m := by
  refine Proc.wp_bind.mpr (C.fopenPartial_wp ?_)
  rcases hopen : m.os.openPartial start.toNat p with ⟨r, os₁⟩
  cases r with
  | error e =>
    apply iff_of_false (by decide)
    rintro ⟨f, os₂, hopen', -⟩
    cases hopen.symm.trans hopen'
  | ok f =>
    apply Proc.wp_bind.mpr
    by_cases hroom : n.toNat ≤ m.net.input.length ∧ (os₁.store.data f).length + n.toNat < OFF_MAX
    · obtain ⟨ok, w, rest, hsave, -, htrue, hall⟩ := @C.saveBody_saves ⟨os₁, m.inFlight, m.net⟩ f n.toNat n
        le_rfl hroom.2
      obtain rfl : ok = true := htrue hroom.1
      obtain rfl := (hall rfl).2
      have hlen : (m.net.input.take n.toNat).length = n.toNat := by
        rw [List.length_take, Nat.min_eq_left hroom.1]
      have hdata := Os.extend_data (show (os₁.store.data f).length +
        (m.net.input.take n.toNat).length < OFF_MAX by rw [hlen]; exact hroom.2)
      refine hsave.wp (fun ok hok => ?_) fun e => e.elim
      cases hok
      refine Proc.wp_mono (C.verifyDownload_completes (Os.openPartial_at? hopen _)) (fun ok _ h => h.trans ?_)
        fun _ _ h => h
      constructor
      · rintro ⟨hhash, hren⟩
        exact ⟨f, os₁, hopen, hroom, by rw [← hdata]; exact hhash, hren⟩
      · rintro ⟨f', os₂, hopen', -, hhash, hren⟩
        cases hopen.symm.trans hopen'
        exact ⟨by rw [hdata]; exact hhash, hren⟩
    · refine Proc.wp_mono (@C.saveBody_room ⟨os₁, m.inFlight, m.net⟩ f n.toNat n le_rfl)
        (fun saved _ h => ?_) fun _ _ h => h
      cases saved with
      | true => exact absurd (h rfl) hroom
      | false =>
        apply iff_of_false (by decide)
        rintro ⟨f', os₂, hopen', hroom', -⟩
        cases hopen.symm.trans hopen'
        exact hroom hroom'

end Download

/-- `total_size - start`, in 64 bits. -/
def C.remaining (metadata : Bytes) : UInt64 := C.getU64 metadata - C.getU64 (metadata.drop 8)

/-- What the C client needs for a download to be completed, once the metadata has been read. -/
def C.Downloads (os : Os) (dest : Bytes) (existing : C.Found) (metadata body : Bytes) : Prop :=
  ∃ p, C.partialName dest (metadata.drop 16) = some p ∧
    (C.discardOld os (metaStart metadata) existing).Completes dest p (metaStart metadata)
      (C.remaining metadata).toNat (metadata.drop 16) body

theorem C.receiveDownload_completes (m : Machine Wire) (dest : Bytes) (existing : C.Found)
    {metadata : Bytes} (hmeta : metadata.length = GET_META) :
    (C.receiveDownload dest existing metadata).wp Net.wire.env
      (fun ok _ => ok = true ↔ C.Downloads m.os dest existing metadata m.net.input)
      (fun _ _ => False) m := by
  obtain ⟨-, hstart⟩ := C.getU64_meta hmeta
  unfold C.Downloads
  refine C.receiveDownload_wp (fun hp => ?_) fun p hp => ?_
  · apply iff_of_false Bool.false_ne_true
    rintro ⟨p, hp', -⟩
    cases hp.symm.trans hp'
  · refine Proc.wp_mono (C.fetch_completes _ _) (fun ok _ h => h.trans ?_) fun _ _ h => h
    rw [hstart]
    constructor
    · exact fun h => ⟨p, hp, h⟩
    · rintro ⟨p', hp', h⟩
      obtain rfl : p = p' := Option.some.inj (hp.symm.trans hp')
      exact h

/-! ## A download -/

/-- The stream starts with the header of an OK frame, and metadata. -/
def C.Announced (stream : Bytes) : Prop :=
  HEADER_SIZE + GET_META ≤ stream.length ∧
  ∃ n, parseHeader (stream.take HEADER_SIZE) = .ok (T_OK, n)

section Get

variable {m : Machine Wire}

/-- The C reader finds the header of an OK frame only where Python does. -/
theorem C.readFrameHeader_wp {Q : Option (UInt8 × UInt64) → Machine Wire → Prop}
    {E : Empty → Machine Wire → Prop}
    (h : ∀ r, (∀ n, r = some (T_OK, n) → HEADER_SIZE ≤ m.net.input.length ∧
      ∃ n, parseHeader (m.net.input.take HEADER_SIZE) = .ok (T_OK, n)) →
      Q r (m.wired (m.net.input.drop HEADER_SIZE) m.net.output)) :
    C.readFrameHeader.wp Net.wire.env Q E m := by
  have hread := C.readExact_yields (m := m) HEADER_SIZE m.net.input m.net.output
  rw [Machine.wired_self] at hread
  unfold C.readFrameHeader
  refine Proc.wp_bind.mpr (hread.wp (fun r hr => ?_) fun e => e.elim)
  cases hr
  by_cases hl : HEADER_SIZE ≤ m.net.input.length
  · rw [if_pos hl]
    simp only
    split
    · exact h none fun n hn => by cases hn
    next hmagic =>
    split
    · exact h none fun n hn => by cases hn
    next hversion =>
    refine h _ fun n hn => ⟨hl, ofBE (((m.net.input.take HEADER_SIZE).drop 6).take 8), ?_⟩
    have ht : (m.net.input.take HEADER_SIZE).getD 5 0 = T_OK :=
      congrArg Prod.fst (Option.some.inj hn)
    unfold parseHeader
    rw [if_neg hmagic, if_neg hversion, if_neg (by rw [ht]; decide), ht]
  · rw [if_neg hl]
    exact h none fun n hn => by cases hn

theorem C.receiveGetReply_completes (dest : Bytes) (existing : C.Found) :
    (C.receiveGetReply dest existing).wp Net.wire.env
      (fun ok _ => ok = true ↔ C.Announced m.net.input ∧
        C.Downloads m.os dest existing (metaOf m.net.input) (bodyOf m.net.input))
      (fun _ _ => False) m := by
  by_cases hann : C.Announced m.net.input
  · obtain ⟨hlen, n, hp⟩ := hann
    have hmeta : (metaOf m.net.input).length = GET_META := by
      rw [metaOf, List.length_take, List.length_drop]
      omega
    have hhead : (m.net.input.take HEADER_SIZE).length = HEADER_SIZE := by
      rw [List.length_take]
      omega
    have hin : m.net.input = okHeader n ++ metaOf m.net.input ++ bodyOf m.net.input := by
      rw [okHeader, ← ((parseHeader_eq_ok hhead).mp hp).1, List.append_assoc, metaOf, bodyOf,
        List.take_append_drop, List.take_append_drop]
    apply C.receiveGetReply_front hmeta hin
    refine Proc.wp_mono (C.receiveDownload_completes _ dest existing hmeta) (fun ok _ h => h.trans ?_)
      fun _ _ h => h
    exact ⟨fun h => ⟨⟨hlen, n, hp⟩, h⟩, fun h => h.2⟩
  · have hfail : false = true ↔ C.Announced m.net.input ∧
        C.Downloads m.os dest existing (metaOf m.net.input) (bodyOf m.net.input) :=
      iff_of_false Bool.false_ne_true fun h => hann h.1
    unfold C.receiveGetReply
    refine Proc.wp_bind.mpr (C.readFrameHeader_wp fun r hr => ?_)
    cases r with
    | none => exact hfail
    | some tn =>
      obtain ⟨t, n⟩ := tn
      simp only
      split
      · split
        · exact hfail
        · have hread := C.readExact_yields (m := m) n.toNat (m.net.input.drop HEADER_SIZE) m.net.output
          refine Proc.wp_bind.mpr (hread.wp (fun r' _ => ?_) fun e => e.elim)
          exact hfail
      split
      · exact hfail
      next ht =>
      obtain ⟨hl, hp⟩ := hr n (by rw [not_ne_iff.mp ht])
      have hread := C.readExact_yields (m := m) GET_META (m.net.input.drop HEADER_SIZE) m.net.output
      refine Proc.wp_bind.mpr (hread.wp (fun r' hr' => ?_) fun e => e.elim)
      cases hr'
      rw [if_neg fun hlen => hann ⟨by rw [List.length_drop] at hlen; omega, hp⟩]
      exact hfail

end Get

/-- The partial that the C client finds for a destination. -/
def C.leftover (os : Os) (dest : Bytes) : C.Found :=
  match (C.findPartial dest).eval os.ask with
  | .ok existing => existing

/-- What the C client needs for a download. -/
def C.Gets (os : Os) (name dest stream : Bytes) : Prop :=
  os.at? dest = none ∧ name.length ≤ C.MAX_NAME ∧ C.Announced stream ∧
    C.Downloads os dest (C.leftover os dest) (metaOf stream) (bodyOf stream)

theorem C.doGet_completes (m : Machine Wire) (name dest : Bytes) : (C.doGet name dest).wp Net.wire.env
    (fun ok _ => ok = true ↔ C.Gets m.os name dest m.net.input) (fun _ _ => False) m := by
  unfold C.doGet C.fileExists
  refine Proc.wp_bind.mpr (Proc.wp_bind.mpr (Proc.wp_perform.mpr ((Net.call_looks (.stat _)).mpr ?_)))
  show Proc.wp _ (if (m.os.statAt dest).isSome = true then _ else _) _ _ _
  by_cases hfree : m.os.at? dest = none
  · rw [Os.statAt_none hfree, if_neg (by decide)]
    have hlook := @Net.yields_eval Wire Net.wire m _ _ _ _ (C.findPartial_uses dest)
    refine Proc.wp_bind.mpr (hlook.wp (fun existing hex => ?_) fun e => e.elim)
    have hleft : C.leftover m.os dest = existing := by
      unfold C.leftover
      rw [hex]
    by_cases hname : name.length > C.MAX_NAME
    · rw [if_pos hname]
      exact iff_of_false Bool.false_ne_true fun h => absurd h.2.1 (Nat.not_le.mpr hname)
    · rw [if_neg hname]
      refine Proc.wp_bind.mpr (C.writeFrame_wp ?_)
      rw [if_neg (by decide)]
      refine Proc.wp_mono (C.receiveGetReply_completes (m := Machine.wired _ _ _) dest existing)
        (fun ok _ h => h.trans ?_) fun _ _ h => h
      rw [← hleft]
      exact ⟨fun h => ⟨hfree, Nat.le_of_not_lt hname, h⟩, fun h => h.2.2⟩
  · rw [if_pos (by rw [Option.isSome_iff_ne_none]; exact mt Os.statAt_eq_none.mp hfree)]
    exact iff_of_false Bool.false_ne_true fun h => hfree h.1

/-! ## The program -/

/-- What the C client needs for a command to return 0. -/
def C.Completes (os : Os) : Command → Bytes → Prop
  | .list, s => ∃ f rest, Granted s f rest
  | .get name other, s => C.Gets os name (other.getD (C.basenameOf name)) s
  | .put name other, s => C.Puts os name (other.getD (C.basenameOf name)) s

theorem C.runCommand_completes (m : Machine Wire) (command : Command) :
    (C.runCommand command).wp Net.wire.env (fun ok _ => ok = true ↔ C.Completes m.os command m.net.input)
      (fun _ _ => False) m := by
  cases command with
  | list =>
    refine Proc.wp_bind.mpr (Proc.wp_mono C.doList_wp ?_ fun _ _ h => h)
    rintro names _ (⟨f, rest, hf, rfl⟩ | ⟨rfl, hnone⟩)
    · exact iff_of_true rfl ⟨f, rest, hf⟩
    · exact iff_of_false (by decide) hnone
  | get name other => exact C.doGet_completes m name _
  | put name other => exact C.doPut_completes m name _

/-- The exit status of the C client: the handshake, and then the command. -/
def C.Exits (os : Os) (command : Command) (stream : Bytes) (status : Nat) : Prop :=
  (¬ ∃ f rest, Granted stream f rest) ∧ status = C.EXIT_CONN ∨
  ∃ f rest, Granted stream f rest ∧
    (C.Completes os command rest ∧ status = 0 ∨ ¬ C.Completes os command rest ∧ status = C.EXIT_SERVER)

theorem C.main_exits (m : Machine Wire) (command : Command) : (C.main command).wp Net.wire.env
    (fun status _ => C.Exits m.os command m.net.input status) (fun _ _ => False) m := by
  unfold C.main
  refine Proc.wp_bind.mpr (C.doHello_wp ?_ ?_)
  · intro f rest output hf
    rw [if_neg (by decide)]
    refine Proc.wp_bind.mpr (Proc.wp_mono (C.runCommand_completes _ command) ?_ fun _ _ h => h)
    intro ok m' hok
    cases ok with
    | false => exact .inr ⟨f, rest, hf, .inr ⟨mt hok.mpr Bool.false_ne_true, rfl⟩⟩
    | true =>
      have hdone : C.Exits m.os command m.net.input 0 := .inr ⟨f, rest, hf, .inl ⟨hok.mp rfl, rfl⟩⟩
      rw [if_neg (by decide)]
      -- whatever comes of the goodbye
      apply Proc.wp_bind.mpr
      unfold C.doQuit
      refine Proc.wp_bind.mpr (C.writeFrame_wp ?_)
      rw [if_pos rfl]
      refine Proc.wp_bind.mpr (C.readFrame_wp ?_ ?_)
      · exact fun _ _ _ => hdone
      · exact fun _ _ _ _ => hdone
  · intro m' hnone
    exact .inl ⟨hnone, rfl⟩

end Retriever
