/-
# Retriever.Printed — what the C client prints

Two formats are taken apart by hand in C and by the library in Python: the payload of an ERROR frame and
that of a listing. Here the parsers are compared, on every payload.
-/
import Retriever.Completions

namespace Retriever

/-! ## `printf` -/

namespace C

/-- With so many bytes there, `printf` stops at the precision or at a zero byte. -/
theorem readString_eq {n : Nat} {mem : Bytes} (h : n ≤ mem.length) :
    readString n mem = some ((mem.take n).takeWhile (· ≠ 0)) := by
  induction n generalizing mem with
  | zero => rfl
  | succ n ih =>
    cases mem with
    | nil => cases h
    | cons b mem =>
      rw [readString, List.take_succ_cons]
      by_cases hb : b = 0
      · rw [if_pos hb, List.takeWhile_cons_of_neg (by simpa using hb)]
      · rw [if_neg hb, ih (Nat.le_of_succ_le_succ h), List.takeWhile_cons_of_pos (by simpa using hb)]
        rfl

theorem printString_eq {n : Nat} {mem : Bytes} (h : n ≤ mem.length) :
    printString n mem = some ((mem.take n).takeWhile (· ≠ 0)) := by
  unfold printString
  rw [if_neg (by omega), Int.toNat_natCast, readString_eq h]

theorem getU16_toNat {src : Bytes} (h : 2 ≤ src.length) : (getU16 src).toNat = ofBE (src.take 2) := by
  match src, h with
  | a :: b :: rest, _ =>
    have ha := a.toNat_lt
    have hb := b.toNat_lt
    show ((a.toUInt16 <<< 8) ||| b.toUInt16).toNat = ofBE [a, b]
    have hshift : (a.toUInt16 <<< 8).toNat = a.toNat <<< 8 := by
      rw [UInt16.toNat_shiftLeft, UInt8.toNat_toUInt16, show (8 : UInt16).toNat % 16 = 8 from rfl,
        Nat.shiftLeft_eq]
      exact Nat.mod_eq_of_lt (by omega)
    rw [UInt16.toNat_or, UInt8.toNat_toUInt16, hshift, ← Nat.shiftLeft_add_eq_or_of_lt hb,
      Nat.shiftLeft_eq]
    simp [ofBE]

end C

/-! ## ERROR payloads -/

/-- The length of the message, as the payload states it. -/
def messageLen (p : Bytes) : Nat := ofBE ((p.drop 1).take 2)

/-- Both clients take `p` for well formed or neither does, and then they see the same reason and the same
message, which make up `p`. -/
structure JudgedAlike (p : Bytes) : Prop where
  parsed : (∃ reason message, C.reportError p = some (.message reason message)) ↔
    ∃ rm, unpackError p = .ok rm
  same : ∀ reason message rm, C.reportError p = some (.message reason message) →
    unpackError p = .ok rm → rm.1 = reason ∧ encode rm.2 = message ∧ packError rm.1 rm.2 = .ok p

/-- A payload without room for doubt: it is too short for its fields or for its message, or it ends with
its message, which is UTF-8 and has no zero byte. -/
def Unequivocal (p : Bytes) : Prop :=
  p.length < 3 ∨ p.length < 3 + messageLen p ∨
    p.length = 3 + messageLen p ∧ IsUtf8 (p.drop 3) ∧ 0 ∉ p.drop 3

instance (p : Bytes) : Decidable (Unequivocal p) := inferInstanceAs (Decidable (_ ∨ _ ∨ _))

section Errors

variable {p : Bytes}

theorem C.reportError_eq (h : 3 ≤ p.length) : C.reportError p =
    if messageLen p + 3 > p.length then some .wrongLength
    else some (.message (p.getD 0 0) (((p.drop 3).take (messageLen p)).takeWhile (· ≠ 0))) := by
  have hlen : (C.getU16 (p.drop 1)).toNat = messageLen p :=
    C.getU16_toNat (by rw [List.length_drop]; omega)
  unfold C.reportError
  rw [if_neg (by omega)]
  simp only [hlen]
  split
  · rfl
  · rw [C.printString_eq (by rw [List.length_drop]; omega)]
    rfl

/-- Fields and message make up the payload. -/
theorem packError_unpacked (h : p.length = 3 + messageLen p) (hutf8 : IsUtf8 (p.drop 3)) :
    packError (p.getD 0 0) (decodeReplace (p.drop 3)) = .ok p := by
  have hfields : [p.getD 0 0] ++ (p.drop 1).take 2 ++ p.drop 3 = p := by
    match p, h with
    | a :: b :: c :: rest, _ => rfl
    | [], h | [_], h | [_, _], h => simp at h; omega
  have htwo : ((p.drop 1).take 2).length = 2 := by
    rw [List.length_take, List.length_drop]
    omega
  have hlen : (p.drop 3).length = messageLen p := by
    rw [List.length_drop, h, Nat.add_sub_cancel_left]
  have hback : toBE 2 (messageLen p) = (p.drop 1).take 2 := by
    have := toBE_ofBE ((p.drop 1).take 2)
    rwa [htwo] at this
  have hsmall : messageLen p < 256 ^ 2 := by
    have := ofBE_lt ((p.drop 1).take 2)
    rwa [htwo] at this
  unfold packError
  rw [hutf8.encode_decodeReplace, hlen, toBytes_of_lt hsmall, hback]
  exact congrArg _ hfields

theorem judgedAlike_of_neither (hc : ∀ reason message, C.reportError p ≠ some (.message reason message))
    {e : Exn} (he : unpackError p = .error e) : JudgedAlike p := by
  refine ⟨⟨?_, ?_⟩, fun reason message rm h => absurd h (hc reason message)⟩
  · rintro ⟨reason, message, h⟩
    exact absurd h (hc reason message)
  · rintro ⟨rm, h⟩
    rw [he] at h
    cases h

theorem not_judgedAlike_of_printed {reason : UInt8} {message : Bytes} {e : Exn}
    (hc : C.reportError p = some (.message reason message)) (he : unpackError p = .error e) :
    ¬ JudgedAlike p := by
  intro h
  obtain ⟨rm, hrm⟩ := h.parsed.mp ⟨reason, message, hc⟩
  rw [he] at hrm
  cases hrm

/-- What is printed of a message is the message, unless there is a zero byte in it. -/
theorem takeWhile_ne_zero_eq_iff {bs : Bytes} : bs.takeWhile (· ≠ 0) = bs ↔ 0 ∉ bs := by
  rw [List.takeWhile_eq_self_iff]
  constructor
  · intro h h0
    exact absurd (h 0 h0) (by decide)
  · intro h b hb
    apply decide_eq_true
    rintro rfl
    exact h hb

/-- **When both clients judge an ERROR payload alike.** -/
theorem judgedAlike_iff (p : Bytes) : JudgedAlike p ↔ Unequivocal p := by
  by_cases hshort : p.length < 3
  · have hc : C.reportError p = some .malformed := if_pos hshort
    obtain ⟨reason, message, he⟩ := unpackError_unequal (p := p) (.inl hshort)
    refine iff_of_true (judgedAlike_of_neither ?_ he) (.inl hshort)
    intro reason message h
    rw [hc] at h
    cases h
  have hc := C.reportError_eq (Nat.le_of_not_lt hshort)
  rcases Nat.lt_trichotomy p.length (3 + messageLen p) with hlt | heq | hgt
  · -- the message is cut off: neither takes it
    rw [if_pos (by omega)] at hc
    obtain ⟨reason, message, he⟩ := unpackError_unequal (p := p) (.inr hlt.ne)
    refine iff_of_true (judgedAlike_of_neither ?_ he) (.inr (.inl hlt))
    intro reason message h
    rw [hc] at h
    cases h
  · rw [if_neg (by omega), List.take_of_length_le (by rw [List.length_drop]; omega)] at hc
    have hp := unpackError_eq heq
    by_cases hutf8 : IsUtf8 (p.drop 3)
    · rw [if_pos hutf8] at hp
      have hsame : JudgedAlike p ↔ 0 ∉ p.drop 3 := by
        constructor
        · intro h
          have hmessage := (h.same _ _ _ hc hp).2.1
          rw [hutf8.encode_decodeReplace] at hmessage
          exact takeWhile_ne_zero_eq_iff.mp hmessage.symm
        · intro h0
          rw [takeWhile_ne_zero_eq_iff.mpr h0] at hc
          refine ⟨⟨fun _ => ⟨_, hp⟩, fun _ => ⟨_, _, hc⟩⟩, fun reason message rm hc' hp' => ?_⟩
          cases Option.some.inj (hc.symm.trans hc')
          cases Except.ok.inj (hp.symm.trans hp')
          exact ⟨rfl, hutf8.encode_decodeReplace, packError_unpacked heq hutf8⟩
      rw [hsame]
      constructor
      · exact fun h0 => .inr (.inr ⟨heq, hutf8, h0⟩)
      · rintro (h | h | ⟨-, -, h0⟩)
        · omega
        · omega
        · exact h0
    · rw [if_neg hutf8] at hp
      apply iff_of_false (not_judgedAlike_of_printed hc hp)
      rintro (h | h | ⟨-, h, -⟩)
      · omega
      · omega
      · exact hutf8 h
  · -- bytes after the message: C goes by the stated length only
    rw [if_neg (by omega)] at hc
    obtain ⟨reason, message, he⟩ := unpackError_unequal (p := p) (.inr hgt.ne')
    apply iff_of_false (not_judgedAlike_of_printed hc he)
    rintro (h | h | ⟨h, -⟩) <;> omega

/-- A byte after an empty message: the C client prints the reason, Python takes the frame for
malformed. -/
theorem trailing_byte_judged :
    C.reportError [E_NOT_FOUND, 0, 0, 65] = some (.message E_NOT_FOUND []) ∧
    (∃ message, unpackError [E_NOT_FOUND, 0, 0, 65] = .error (.frameError E_MALFORMED message)) ∧
    ¬ JudgedAlike [E_NOT_FOUND, 0, 0, 65] := by
  have hc : C.reportError [E_NOT_FOUND, 0, 0, 65] = some (.message E_NOT_FOUND []) := by decide
  have hp : unpackError [E_NOT_FOUND, 0, 0, 65] = .error (.frameError E_MALFORMED
      "error payload length does not match msg_len".toList) := by
    unfold unpackError
    rw [if_neg (by decide), if_pos (by decide)]
  exact ⟨hc, ⟨_, hp⟩, not_judgedAlike_of_printed hc hp⟩

end Errors

/-! ## Listings -/

namespace C

section Counters

variable {a b : Nat}

theorem toNat_ofNat_of_le (h : a ≤ PAYLOAD_CAP + 1) : (UInt64.ofNat a).toNat = a := by
  have hcap : PAYLOAD_CAP + 1 < 2 ^ 64 := by decide
  rw [UInt64.toNat_ofNat']
  exact Nat.mod_eq_of_lt (by omega)

theorem ofNat_le_iff (ha : a ≤ PAYLOAD_CAP + 1) (hb : b ≤ PAYLOAD_CAP + 1) :
    UInt64.ofNat a ≤ UInt64.ofNat b ↔ a ≤ b := by
  rw [UInt64.le_iff_toNat_le, toNat_ofNat_of_le ha, toNat_ofNat_of_le hb]

theorem ofNat_lt_iff (ha : a ≤ PAYLOAD_CAP + 1) (hb : b ≤ PAYLOAD_CAP + 1) :
    UInt64.ofNat a < UInt64.ofNat b ↔ a < b := by
  rw [UInt64.lt_iff_toNat_lt, toNat_ofNat_of_le ha, toNat_ofNat_of_le hb]

theorem ofNat_inj_of_le (ha : a ≤ PAYLOAD_CAP + 1) (hb : b ≤ PAYLOAD_CAP + 1) :
    UInt64.ofNat a = UInt64.ofNat b ↔ a = b := by
  rw [← UInt64.toNat_inj, toNat_ofNat_of_le ha, toNat_ofNat_of_le hb]

theorem ofNat_sub_of_le (hle : b ≤ a) (ha : a ≤ PAYLOAD_CAP + 1) :
    UInt64.ofNat a - UInt64.ofNat b = UInt64.ofNat (a - b) := by
  have hb : b ≤ PAYLOAD_CAP + 1 := hle.trans ha
  apply UInt64.toNat_inj.mp
  rw [UInt64.toNat_sub_of_le _ _ ((ofNat_le_iff hb ha).mpr hle), toNat_ofNat_of_le ha,
    toNat_ofNat_of_le hb, toNat_ofNat_of_le (by omega)]

/-- Lengths within the cap are not changed by the conversion to `int`. -/
theorem toInt_ofNat (h : a ≤ PAYLOAD_CAP + 1) : toInt (UInt64.ofNat a) = a := by
  have hcap : PAYLOAD_CAP + 1 < 2 ^ 31 := by decide
  have hnat : (UInt64.ofNat a).toUInt32.toNat = a := by
    rw [UInt64.toNat_toUInt32, toNat_ofNat_of_le h]
    exact Nat.mod_eq_of_lt (by omega)
  show ((UInt64.ofNat a).toUInt32.toInt32.toBitVec).toInt = a
  rw [BitVec.toInt_eq_toNat_of_lt]
  · exact congrArg _ hnat
  · show 2 * (UInt64.ofNat a).toUInt32.toNat < 2 ^ 32
    omega

end Counters

section Loop

variable {payload : Bytes} {fuel i start : Nat}

theorem printNames_past (hcap : payload.length ≤ PAYLOAD_CAP) (s : UInt64) :
    printNames payload (UInt64.ofNat payload.length) (fuel + 1) (UInt64.ofNat (payload.length + 1)) s =
      some [] := by
  unfold printNames
  rw [if_neg]
  rw [ofNat_le_iff (by omega) (by omega)]
  omega

/-- A name ends here. -/
theorem printNames_break (hcap : payload.length ≤ PAYLOAD_CAP) (hi : i ≤ payload.length)
    (hs : start ≤ i) (hat : i = payload.length ∨ payload[i]? = some 0)
    (hno : 0 ∉ (payload.drop start).take (i - start)) :
    printNames payload (UInt64.ofNat payload.length) (fuel + 1) (UInt64.ofNat i) (UInt64.ofNat start) =
      (printNames payload (UInt64.ofNat payload.length) fuel (UInt64.ofNat (i + 1))
        (UInt64.ofNat (i + 1))).map
        ((if i > start then [(payload.drop start).take (i - start)] else []) ++ ·) := by
  have hends : nameEnds payload (UInt64.ofNat payload.length) (UInt64.ofNat i) = some true := by
    unfold nameEnds
    rw [toNat_ofNat_of_le (by omega)]
    by_cases h : i = payload.length
    · rw [if_pos (by rw [h])]
    · rw [if_neg (mt (ofNat_inj_of_le (by omega) (by omega)).mp h), hat.resolve_left h]
      rfl
  have hprinted : printName payload (UInt64.ofNat start) (UInt64.ofNat i) =
      some (if i > start then [(payload.drop start).take (i - start)] else []) := by
    unfold printName
    rw [ofNat_sub_of_le hs (by omega), toInt_ofNat (by omega), toNat_ofNat_of_le (by omega)]
    by_cases h : i > start
    · rw [if_pos ((ofNat_lt_iff (by omega) (by omega)).mpr h), if_pos h,
        printString_eq (by rw [List.length_drop]; omega), takeWhile_ne_zero_eq_iff.mpr hno]
      rfl
    · rw [if_neg (mt (ofNat_lt_iff (by omega) (by omega)).mp h), if_neg h]
  have hnext : UInt64.ofNat i + 1 = UInt64.ofNat (i + 1) := (UInt64.ofNat_add i 1).symm
  conv_lhs => unfold printNames
  rw [if_pos ((ofNat_le_iff (by omega) (by omega)).mpr hi), hends, hprinted, hnext]
  cases printNames payload (UInt64.ofNat payload.length) fuel (UInt64.ofNat (i + 1))
    (UInt64.ofNat (i + 1)) <;> rfl

/-- A byte of a name. -/
theorem printNames_next {b : UInt8} (hcap : payload.length ≤ PAYLOAD_CAP) (hi : i < payload.length)
    (hat : payload[i]? = some b) (hb : b ≠ 0) (s : UInt64) :
    printNames payload (UInt64.ofNat payload.length) (fuel + 1) (UInt64.ofNat i) s =
      printNames payload (UInt64.ofNat payload.length) fuel (UInt64.ofNat (i + 1)) s := by
  have hends : nameEnds payload (UInt64.ofNat payload.length) (UInt64.ofNat i) = some false := by
    unfold nameEnds
    rw [if_neg (mt (ofNat_inj_of_le (by omega) (by omega)).mp (Nat.ne_of_lt hi)),
      toNat_ofNat_of_le (by omega), hat, Option.map_some, decide_eq_false hb]
  have hnext : UInt64.ofNat i + 1 = UInt64.ofNat (i + 1) := (UInt64.ofNat_add i 1).symm
  conv_lhs => unfold printNames
  rw [if_pos ((ofNat_le_iff (by omega) (by omega)).mpr (Nat.le_of_lt hi)), hends, hnext]
  rfl

/-- The name that has been read so far, in its place. -/
theorem slice_eq (done cur rest : Bytes) :
    ((done ++ cur ++ rest).drop done.length).take (done.length + cur.length - done.length) = cur := by
  rw [List.append_assoc, List.drop_left, Nat.add_sub_cancel_left, List.take_left]

/-- The loop at the end of the name `cur`: it is printed unless it is empty. -/
theorem printNames_named {done cur rest : Bytes} (hcur : 0 ∉ cur)
    (hcap : (done ++ cur ++ rest).length ≤ PAYLOAD_CAP) (hrest : rest = [] ∨ rest.head? = some 0) :
    printNames (done ++ cur ++ rest) (UInt64.ofNat (done ++ cur ++ rest).length) (fuel + 1)
        (UInt64.ofNat (done.length + cur.length)) (UInt64.ofNat done.length) =
      (printNames (done ++ cur ++ rest) (UInt64.ofNat (done ++ cur ++ rest).length) fuel
        (UInt64.ofNat (done.length + cur.length + 1)) (UInt64.ofNat (done.length + cur.length + 1))).map
        ([cur].filter (· ≠ []) ++ ·) := by
  have hslice := slice_eq done cur rest
  have hname : (if done.length + cur.length > done.length then [cur] else []) =
      [cur].filter (· ≠ []) := by
    cases cur <;> simp
  have hat : done.length + cur.length = (done ++ cur ++ rest).length ∨
      (done ++ cur ++ rest)[done.length + cur.length]? = some 0 := by
    rcases hrest with rfl | h0
    · left
      rw [List.append_nil, List.length_append]
    · right
      rw [← List.length_append, List.getElem?_append_right le_rfl, Nat.sub_self, ← List.head?_eq_getElem?,
        h0]
  have hbreak := @printNames_break (done ++ cur ++ rest) fuel (done.length + cur.length) done.length hcap
    (by simp only [List.length_append]; omega) (Nat.le_add_right _ _) hat (by rwa [hslice])
  rwa [hslice, hname] at hbreak

/-- The loop with the name `cur` read so far. What is printed are the pieces between the zero bytes that
are not empty. -/
theorem printNames_from {done cur rest : Bytes} (hcur : 0 ∉ cur)
    (hcap : (done ++ cur ++ rest).length ≤ PAYLOAD_CAP) :
    printNames (done ++ cur ++ rest) (UInt64.ofNat (done ++ cur ++ rest).length) (rest.length + 2)
        (UInt64.ofNat (done.length + cur.length)) (UInt64.ofNat done.length) =
      some (((cur ++ rest).splitOn 0).filter (· ≠ [])) := by
  induction rest generalizing done cur with
  | nil =>
    rw [printNames_named hcur hcap (.inl rfl)]
    rw [List.append_nil] at hcap ⊢
    rw [← List.length_append, List.length_nil, Nat.zero_add, printNames_past hcap, List.append_nil,
      List.splitOn_eq_singleton hcur]
    exact congrArg some (List.append_nil _)
  | cons b rest ih =>
    by_cases hb : b = 0
    · -- a name ends here
      subst hb
      have hsplit : done ++ cur ++ 0 :: rest = (done ++ cur ++ [0]) ++ [] ++ rest := by simp
      have hlen : done.length + cur.length + 1 = (done ++ cur ++ [0]).length := by
        rw [List.length_append, List.length_append, List.length_singleton]
      have hnext := @ih (done ++ cur ++ [0]) [] List.not_mem_nil (by rw [← hsplit]; exact hcap)
      rw [← hsplit, List.length_nil, Nat.add_zero, ← hlen, List.nil_append] at hnext
      rw [List.length_cons, Nat.add_right_comm, printNames_named hcur hcap (.inr rfl), hnext,
        List.splitOn_append_cons_self_of_not_mem hcur]
      exact congrArg some (List.filter_append [cur] (rest.splitOn 0)).symm
    · have hsplit : done ++ cur ++ b :: rest = done ++ (cur ++ [b]) ++ rest := by simp
      have hnext := @ih done (cur ++ [b]) (by simp [hcur, Ne.symm hb]) (by rw [← hsplit]; exact hcap)
      have hlen : done.length + (cur ++ [b]).length = done.length + cur.length + 1 := by
        rw [List.length_append, List.length_singleton, Nat.add_assoc]
      rw [← hsplit, hlen] at hnext
      have hat : (done ++ cur ++ b :: rest)[done.length + cur.length]? = some b := by
        rw [← List.length_append, List.getElem?_append_right le_rfl, Nat.sub_self]
        rfl
      rw [List.length_cons, Nat.add_right_comm,
        printNames_next hcap (by simp only [List.length_append, List.length_cons]; omega) hat hb, hnext,
        List.append_assoc]
      rfl

end Loop

end C

/-- **Listings are taken apart alike.** The loop of the C client never reads outside the payload, comes to
its end and prints the names that Python finds; names that the server has joined come back. -/
theorem listing_parsed_alike {payload : Bytes} (hcap : payload.length ≤ C.PAYLOAD_CAP) :
    C.printNames payload (UInt64.ofNat payload.length) (payload.length + 2) 0 0 =
      some ((payload.splitOn 0).filter (· ≠ [])) ∧
    ∀ names, (∀ n ∈ names, n ≠ [] ∧ 0 ∉ n) → payload = joinNul names →
      C.printNames payload (UInt64.ofNat payload.length) (payload.length + 2) 0 0 = some names := by
  have hloop : C.printNames payload (UInt64.ofNat payload.length) (payload.length + 2) 0 0 =
      some ((payload.splitOn 0).filter (· ≠ [])) := @C.printNames_from [] [] payload List.not_mem_nil hcap
  refine ⟨hloop, fun names hnames hjoin => ?_⟩
  rw [hloop, hjoin, splitOn_joinNul_of_no_nul hnames]

/-- Two names, as the server joins them. -/
theorem listing_parsed_two :
    C.printNames (joinNul [[97], [98, 99]]) 4 6 0 0 = some [[97], [98, 99]] :=
  (listing_parsed_alike (show (joinNul [[97], [98, 99]]).length ≤ C.PAYLOAD_CAP by decide)).2 _
    (by decide) rfl

/-- The loop over the payload, as `do_list` has it and with its counters. -/
theorem C.listNames_printed {payload : Bytes} (hcap : payload.length ≤ C.PAYLOAD_CAP) :
    C.printNames payload (UInt64.ofNat payload.length) (payload.length + 2) 0 0 =
      some (C.listNames payload 0 (List.range (payload.length + 1))) := by
  rw [C.listNames_eq]
  exact @C.printNames_from [] [] payload List.not_mem_nil hcap

/-- **What `do_list` returns is what its loop prints**, of the payload of the OK frame it has read. -/
theorem C.doList_prints (m : Machine Wire) : C.doList.wp Net.wire.env
    (fun names _ => ∀ printed, names = some printed → ∃ f rest, Granted m.net.input f rest ∧
      C.printNames f.payload (UInt64.ofNat f.payload.length) (f.payload.length + 2) 0 0 = some printed)
    (fun _ _ => False) m := by
  refine Proc.wp_mono C.doList_wp ?_ fun _ _ h => h
  rintro names _ (⟨f, rest, hf, rfl⟩ | ⟨rfl, -⟩) printed hprinted
  · obtain ⟨-, cap, hcap, hle⟩ := scanFrame_eq_ok.mp hf.1
    rw [hf.2] at hcap
    cases hcap
    exact ⟨f, rest, hf, (C.listNames_printed hle).trans hprinted⟩
  · cases hprinted

end Retriever
