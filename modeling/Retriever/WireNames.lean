/-
# Retriever.WireNames — the names the server takes from the wire

The server checks the decoded name, with undecodable bytes replaced, and then uses the encoding of it as a
path. A byte from 0x80 up leaves a character that is not ASCII behind whatever stands around it, so a name
that passes was ASCII and is its own path (`checkFilename_wire_iff`, `encode_wireName`). What the handlers
open, create, link or remove is that path and the partial of it, which are entries of the directory
(`handleGet_touches`, `handlePut_touches`); the one accepted name that is no entry, `.`, is only looked at.
-/
import Retriever.Requests

namespace Retriever

open Os (SLASH DOT)

/-! ## Decoding and the check -/

/-- Only bytes below 128 are decoded to ASCII characters alone. -/
theorem ascii_of_decodeReplace {b : Bytes} (h : ∀ c ∈ decodeReplace b, c.toNat < 128) :
    ∀ x ∈ b, x.toNat < 128 := by
  have hbytes : unitBytes (utf8Decode b) = b := (utf8DecodeFrom_spec b .start).1
  intro x hx
  rw [← hbytes] at hx
  obtain ⟨u, hu, hxu⟩ := List.mem_flatMap.mp hx
  cases u with
  | ok c =>
    have hc : c.toNat < 128 := h c (List.mem_map.mpr ⟨.ok c, hu, rfl⟩)
    have hone : String.utf8EncodeChar c = [UInt8.ofNat c.toNat] := by
      have henc := encode_ascii (t := [c]) fun c' hc' => by rwa [List.mem_singleton.mp hc']
      simpa [encode] using henc
    change x ∈ String.utf8EncodeChar c at hxu
    rw [hone] at hxu
    rw [List.mem_singleton.mp hxu, UInt8.toNat_ofNat']
    omega
  | error bad =>
    -- a replacement character is not ASCII
    have hbad := h (Char.ofNat 0xFFFD) (List.mem_map.mpr ⟨.error bad, hu, rfl⟩)
    exact absurd hbad (by decide)

/-- The character of a byte. -/
def chr (x : UInt8) : Char := Char.ofNat x.toNat

theorem chr_toNat {x : UInt8} (h : x.toNat < 128) : (chr x).toNat = x.toNat := by
  have key : ∀ n < 128, (Char.ofNat n).toNat = n := by decide
  exact key _ h

theorem decodeReplace_of_ascii {b : Bytes} (h : ∀ x ∈ b, x.toNat < 128) :
    decodeReplace b = b.map chr := by
  unfold decodeReplace
  rw [utf8Decode_ascii h, List.map_map]
  rfl

/-- A character is in the text when its byte is in the bytes. -/
theorem mem_map_chr {b : Bytes} (h : ∀ x ∈ b, x.toNat < 128) {c : Char} {y : UInt8}
    (hc : c = chr y) (hy : y.toNat < 128) : c ∈ b.map chr ↔ y ∈ b := by
  constructor
  · intro hm
    obtain ⟨x, hx, hxc⟩ := List.mem_map.mp hm
    have heq : x.toNat = y.toNat := by
      rw [← chr_toNat (h x hx), hxc, hc, chr_toNat hy]
    rwa [← UInt8.toNat_inj.mp heq]
  · intro hm
    exact hc ▸ List.mem_map_of_mem hm

/-- `".." in name` -/
theorem hasDotDot_iff (t : Text) : hasDotDot t = true ↔ ['.', '.'] <:+: t := by
  induction t using hasDotDot.induct with
  | case1 rest => exact iff_of_true rfl ⟨[], rest, rfl⟩
  | case2 c rest hno ih =>
    rw [hasDotDot, ih]
    · rw [List.infix_cons_iff]
      refine ⟨.inr, fun h => ?_⟩
      rcases h with ⟨s, hs⟩ | h
      · simp only [List.cons_append, List.nil_append, List.cons.injEq] at hs
        exact absurd hs.2.symm (hno s hs.1.symm)
      · exact h
    · exact hno
  | case3 => simp [hasDotDot]

theorem encode_map_chr {b : Bytes} (h : ∀ x ∈ b, x.toNat < 128) : encode (b.map chr) = b := by
  rw [encode_ascii, List.map_map]
  · conv_rhs => rw [← List.map_id b]
    refine List.map_congr_left fun x hx => ?_
    show UInt8.ofNat (chr x).toNat = x
    rw [chr_toNat (h x hx)]
    exact UInt8.ofNat_toNat
  · intro c hc
    obtain ⟨x, hx, rfl⟩ := List.mem_map.mp hc
    rw [chr_toNat (h x hx)]
    exact h x hx

theorem hasDotDot_map_chr {b : Bytes} (h : ∀ x ∈ b, x.toNat < 128) :
    hasDotDot (b.map chr) = true ↔ [DOT, DOT] <:+: b := by
  rw [hasDotDot_iff]
  constructor
  · rintro ⟨s, e, hs⟩
    refine ⟨encode s, encode e, ?_⟩
    rw [← encode_map_chr h, ← hs]
    simp only [encode, List.flatMap_append]
    rfl
  · exact fun hd => hd.map chr

/-- The names that are accepted, as they are on the wire: 1 to 255 printable ASCII bytes, without a slash,
a backslash or two dots in a row. -/
structure WireName (b : Bytes) : Prop where
  pos : 1 ≤ b.length
  le : b.length ≤ 255
  printable : ∀ x ∈ b, 0x20 ≤ x.toNat ∧ x.toNat ≤ 0x7E
  no_slash : SLASH ∉ b
  no_backslash : (0x5C : UInt8) ∉ b
  no_dotdot : ¬ [DOT, DOT] <:+: b

theorem WireName.lt_128 {b : Bytes} (h : WireName b) : ∀ x ∈ b, x.toNat < 128 := fun x hx =>
  Nat.lt_succ_of_le (Nat.le_succ_of_le (h.printable x hx).2)

theorem checkFilename_iff (t : Text) : checkFilename t = true ↔
    t ≠ [] ∧ t.length ≤ 255 ∧ '/' ∉ t ∧ '\\' ∉ t ∧ hasDotDot t ≠ true ∧
      ∀ c ∈ t, 32 ≤ c.toNat ∧ c.toNat < 127 := by
  unfold checkFilename
  by_cases h1 : t = [] ∨ 255 < t.length
  · simp only [Bool.or_eq_true, List.isEmpty_iff, decide_eq_true_eq, gt_iff_lt, if_pos h1]
    refine iff_of_false (by simp) fun h => ?_
    rcases h1 with h1 | h1
    · exact h.1 h1
    · omega
  · by_cases h2 : ('/' ∈ t ∨ '\\' ∈ t) ∨ hasDotDot t = true
    · simp only [Bool.or_eq_true, List.isEmpty_iff, decide_eq_true_eq, gt_iff_lt, if_neg h1,
        List.contains_eq_mem, if_pos h2]
      refine iff_of_false (by simp) fun h => ?_
      rcases h2 with (h2 | h2) | h2
      · exact h.2.2.1 h2
      · exact h.2.2.2.1 h2
      · exact h.2.2.2.2.1 h2
    · simp only [Bool.or_eq_true, List.isEmpty_iff, decide_eq_true_eq, gt_iff_lt, if_neg h1,
        List.contains_eq_mem, if_neg h2, List.all_eq_true, Bool.and_eq_true]
      rw [not_or] at h1 h2
      rw [not_or] at h2
      exact ⟨fun h => ⟨h1.1, Nat.le_of_not_lt h1.2, h2.1.1, h2.1.2, h2.2, h⟩, fun h => h.2.2.2.2.2⟩

/-- **The check on the decoded name is exact on the bytes.** -/
theorem checkFilename_wire_iff (b : Bytes) : checkFilename (decodeReplace b) = true ↔ WireName b := by
  rw [checkFilename_iff]
  -- for bytes below 128 the text is the bytes, character by character
  have hascii : (∀ x ∈ b, x.toNat < 128) → ((decodeReplace b ≠ [] ∧ (decodeReplace b).length ≤ 255 ∧
      '/' ∉ decodeReplace b ∧ '\\' ∉ decodeReplace b ∧ hasDotDot (decodeReplace b) ≠ true ∧
      ∀ c ∈ decodeReplace b, 32 ≤ c.toNat ∧ c.toNat < 127) ↔ WireName b) := by
    intro h
    rw [decodeReplace_of_ascii h, List.length_map, Ne, List.map_eq_nil_iff,
      mem_map_chr h (y := SLASH) (by decide) (by decide), mem_map_chr h (y := 0x5C) (by decide) (by decide),
      Ne, hasDotDot_map_chr h]
    constructor
    · rintro ⟨hne, hle, hslash, hback, hdots, hprint⟩
      refine ⟨List.length_pos_iff.mpr hne, hle, fun x hx => ?_, hslash, hback, hdots⟩
      have := hprint (chr x) (List.mem_map_of_mem hx)
      rw [chr_toNat (h x hx)] at this
      omega
    · intro hw
      refine ⟨List.length_pos_iff.mp hw.pos, hw.le, hw.no_slash, hw.no_backslash, hw.no_dotdot, ?_⟩
      intro c hc
      obtain ⟨x, hx, rfl⟩ := List.mem_map.mp hc
      have := hw.printable x hx
      rw [chr_toNat (h x hx)]
      omega
  constructor
  · intro h
    refine (hascii (ascii_of_decodeReplace fun c hc => ?_)).mp h
    have := (h.2.2.2.2.2 c hc).2
    omega
  · exact fun h => (hascii h.lt_128).mpr h

/-- The decoded name is the bytes themselves. -/
theorem encode_wireName {b : Bytes} (h : WireName b) : encode (decodeReplace b) = b := by
  rw [decodeReplace_of_ascii h.lt_128, encode_map_chr h.lt_128]

/-! ## What the handlers touch -/

/-- The paths an operation opens, creates, links or removes. -/
def FsOp.touched : FsOp → List Bytes
  | .openRb p | .openAb p | .openWb p | .unlink p | .remove p => [p]
  | .link src dst | .rename src dst => [src, dst]
  | .stat _ | .read _ _ _ | .write _ _ | .listdir _ => []

/-- The operation opens, creates, links or removes paths of a kind only. -/
def Sys.Touches (P : Bytes → Prop) : Sys → Prop
  | .fs o => ∀ p ∈ o.touched, P p
  | .recv _ | .send _ | .reserve _ | .discard _ => True

/-- One session among others, with any client: a filesystem call is answered by what the filesystem has
become meanwhile, everything else in any way. Operations that are not `ok` are not allowed. -/
def amongOthers (ok : Sys → Prop) : Proc.Env Sys Sys.Ans Unit where
  may _ o := ok o
  gives _
    | .fs o, a, _ => ∃ os : Os, a = (os.run o).1
    | .recv _, _, _ | .send _, _, _ | .reserve _, _, _ | .discard _, _, _ => True

/-- Whatever the client sends and whatever happens to the filesystem, the program opens, creates, links
and removes paths of a kind only. -/
def TouchesOnly {α : Type} (P : Bytes → Prop) (p : Py α) : Prop :=
  p.wp (amongOthers (Sys.Touches P)) (fun _ _ => True) (fun _ _ => True) ()

section Touches

variable {P : Bytes → Prop} {α : Type}

theorem TouchesOnly.of_uses {X : Exn → Prop} {p : Py α} (h : p.Uses (Sys.Touches P) X) :
    TouchesOnly P p :=
  Proc.wp_of_uses (fun _ _ ho => ho) h ()

/-- After a look at a path, with what some filesystem has there. -/
theorem TouchesOnly.stat {p : Bytes} {f : Option Stat → Py α}
    (h : ∀ os : Os, TouchesOnly P (f (os.statAt p))) : TouchesOnly P (Py.stat p >>= f) := by
  refine Proc.wp_bind.mpr (Py.wp_stat.mpr ⟨?_, ?_⟩)
  · intro q hq
    cases hq
  · rintro a _ ⟨os, rfl⟩
    exact h os

theorem TouchesOnly.isfile {p : Bytes} {f : Bool → Py α}
    (h : ∀ os : Os, TouchesOnly P (f ((os.statAt p).any Stat.isReg))) :
    TouchesOnly P (Py.isfile p >>= f) := by
  unfold Py.isfile
  rw [bind_assoc]
  exact TouchesOnly.stat h

theorem TouchesOnly.pathExists {p : Bytes} {f : Bool → Py α}
    (h : ∀ os : Os, TouchesOnly P (f (os.statAt p).isSome)) :
    TouchesOnly P (Py.pathExists p >>= f) := by
  unfold Py.pathExists
  rw [bind_assoc]
  exact TouchesOnly.stat h

/-! ### The parts of the handlers -/

theorem touches_one {p : Bytes} (hp : P p) : ∀ q ∈ [p], P q := by
  intro q hq
  rwa [List.mem_singleton.mp hq]

theorem touches_none : ∀ q ∈ ([] : List Bytes), P q := fun _ hq => absurd hq List.not_mem_nil

theorem uses_stat (p : Bytes) : (Py.stat p).Uses (Sys.Touches P) fun _ => True :=
  Proc.uses_perform touches_none

theorem uses_getsize (p : Bytes) : (Py.getsize p).Uses (Sys.Touches P) fun _ => True := by
  refine Proc.uses_bind (uses_stat p) fun st => ?_
  cases st <;> trivial

theorem uses_openRb {p : Bytes} (hp : P p) : (Py.openRb p).Uses (Sys.Touches P) fun _ => True :=
  Proc.uses_bind (Proc.uses_perform (touches_one hp)) fun a => uses_orRaise a

theorem uses_openAb {p : Bytes} (hp : P p) : (Py.openAb p).Uses (Sys.Touches P) fun _ => True :=
  Proc.uses_bind (Proc.uses_perform (touches_one hp)) fun a => uses_orRaise a

theorem uses_remove {p : Bytes} (hp : P p) : (Py.remove p).Uses (Sys.Touches P) fun _ => True :=
  Proc.uses_bind (Proc.uses_perform (touches_one hp)) fun a => uses_orRaise a

theorem uses_read (i pos n : Nat) : (Py.read i pos n).Uses (Sys.Touches P) fun _ => True :=
  Proc.uses_bind (Proc.uses_perform touches_none) fun a => uses_orRaise a

theorem uses_write (i : Nat) (b : Bytes) : (Py.write i b).Uses (Sys.Touches P) fun _ => True :=
  Proc.uses_bind (Proc.uses_perform touches_none) fun a => uses_orRaise a

theorem uses_link {p q : Bytes} (hp : P p) (hq : P q) :
    (Py.link p q).Uses (Sys.Touches P) fun _ => True := by
  refine Proc.uses_bind (Proc.uses_perform fun x hx => ?_) fun a => uses_orRaise a
  rcases List.mem_cons.mp hx with rfl | hx
  · exact hp
  · exact touches_one hq x hx

theorem uses_recv (n : Nat) : (Py.recv n).Uses (Sys.Touches P) fun _ => True :=
  Proc.uses_bind (Proc.uses_perform trivial) fun a => uses_orRaise a

theorem uses_sendall (b : Bytes) : (Py.sendall b).Uses (Sys.Touches P) fun _ => True :=
  Proc.uses_bind (Proc.uses_perform trivial) fun a => uses_orRaise a

theorem uses_writeFrame (t : UInt8) (payload : Bytes) :
    (writeFrame t payload).Uses (Sys.Touches P) fun _ => True :=
  Proc.uses_bind (Proc.uses_ofExcept fun _ _ => trivial) fun _ => uses_sendall _

theorem uses_sendError (reason : UInt8) (message : Text) :
    (sendError reason message).Uses (Sys.Touches P) fun _ => True :=
  Proc.uses_bind (Proc.uses_ofExcept fun _ _ => trivial) fun _ => uses_writeFrame _ _

theorem uses_hash {p : Bytes} (hp : P p) : (sha256File p).Uses (Sys.Touches P) fun _ => True :=
  uses_sha256File (touches_one hp) fun _ _ _ => touches_none

theorem uses_sendBody (f fuel pos remaining : Nat) :
    (sendBody f fuel pos remaining).Uses (Sys.Touches P) fun _ => True := by
  induction fuel generalizing pos remaining with
  | zero => trivial
  | succ fuel ih =>
    unfold sendBody
    split
    · refine Proc.uses_bind (uses_read _ _ _) fun chunk => ?_
      split
      · trivial
      · exact Proc.uses_bind (uses_sendall _) fun _ => ih _ _
    · trivial

theorem uses_serveFile {path : Bytes} (hp : P path) (offset : Nat) (token : Bytes) :
    (serveFile path offset token).Uses (Sys.Touches P) fun _ => True := by
  refine Proc.uses_bind (uses_getsize _) fun size => ?_
  split
  · trivial
  · refine Proc.uses_bind (uses_hash hp) fun digest => ?_
    refine Proc.uses_bind (Proc.uses_bind (Proc.uses_ofExcept fun _ _ => trivial) fun _ =>
      uses_sendall _) fun _ => ?_
    refine Proc.uses_bind (Proc.uses_ofExcept fun _ _ => trivial) fun size8 => ?_
    refine Proc.uses_bind (Proc.uses_ofExcept fun _ _ => trivial) fun start8 => ?_
    refine Proc.uses_bind (uses_sendall _) fun _ => ?_
    exact Proc.uses_bind (uses_openRb hp) fun f => uses_sendBody _ _ _ _

theorem uses_receiveBody (out fileSize fuel written : Nat) :
    (receiveBody out fileSize fuel written).Uses (Sys.Touches P) fun _ => True := by
  induction fuel generalizing written with
  | zero => trivial
  | succ fuel ih =>
    unfold receiveBody
    split
    · refine Proc.uses_bind (uses_recv _) fun chunk => ?_
      split
      · trivial
      · exact Proc.uses_bind (uses_write _ _) fun _ => ih _
    · trivial

theorem uses_resumeOffset {partialPath : Bytes} (hp : P partialPath) (fileSize : Nat) :
    (resumeOffset partialPath fileSize).Uses (Sys.Touches P) fun _ => True := by
  refine Proc.uses_bind (Proc.uses_bind (uses_stat _) fun _ => trivial) fun e => ?_
  have hrest : ∀ held, (if held > fileSize then do
      Py.remove partialPath
      return 0
    else return held : Py Nat).Uses (Sys.Touches P) fun _ => True := by
    intro held
    split
    · exact Proc.uses_bind (uses_remove hp) fun _ => trivial
    · trivial
  split
  · exact Proc.uses_bind (uses_getsize _) hrest
  · exact hrest 0

theorem uses_publish {name partialPath : Bytes} (hn : P name) (hp : P partialPath) :
    (publish name partialPath).Uses (Sys.Touches P) fun _ => True := by
  refine Proc.uses_bind (uses_openRb hp) fun f => Proc.uses_bind (uses_read _ _ _) fun head => ?_
  refine Proc.uses_bind (X := fun _ => True) ?_ fun linked => ?_
  · refine Proc.uses_tryCatch (Proc.uses_bind (uses_link hp hn) fun _ => trivial) fun e _ => ?_
    split <;> trivial
  split
  · exact Proc.uses_bind (uses_remove hp) fun _ => uses_sendError _ _
  · exact Proc.uses_bind (uses_remove hp) fun _ => uses_writeFrame _ _

theorem uses_receiveUpload {name partialPath : Bytes} (hn : P name) (hp : P partialPath)
    (fileSize : Nat) (digest : Bytes) :
    (receiveUpload name partialPath fileSize digest).Uses (Sys.Touches P) fun _ => True := by
  refine Proc.uses_bind (uses_resumeOffset hp _) fun offset => ?_
  refine Proc.uses_bind (Proc.uses_ofExcept fun _ _ => trivial) fun offset8 => ?_
  refine Proc.uses_bind (uses_writeFrame _ _) fun _ => ?_
  refine Proc.uses_bind (uses_openAb hp) fun out => ?_
  refine Proc.uses_bind (uses_receiveBody _ _ _ _) fun _ => ?_
  refine Proc.uses_bind (uses_hash hp) fun h => ?_
  split
  · exact Proc.uses_bind (uses_remove hp) fun _ => uses_sendError _ _
  · exact uses_publish hn hp

end Touches

/-! ## The handlers -/

/-- One component of a path, of a file of its own. -/
structure Component (p : Bytes) : Prop extends Plain p where
  no_nul : (0 : UInt8) ∉ p

theorem WireName.no_nul {b : Bytes} (h : WireName b) : (0 : UInt8) ∉ b := by
  intro hb
  have := (h.printable 0 hb).1
  simp at this

theorem WireName.component {b : Bytes} (h : WireName b) (hdot : b ≠ [DOT]) : Component b where
  ne_nil := List.length_pos_iff.mp h.pos
  no_slash := h.no_slash
  ne_dot := hdot
  ne_dotdot := by
    rintro rfl
    exact h.no_dotdot (List.infix_refl _)
  no_nul := h.no_nul

theorem hex_no_nul (bs : Bytes) : (0 : UInt8) ∉ hex bs := by
  intro h
  obtain ⟨b, -, hb⟩ := List.mem_flatMap.mp h
  have key : ∀ a < 16, hexDigit a ≠ 0 := by decide
  have hlt := b.toNat_lt
  simp only [List.mem_cons, List.not_mem_nil, or_false] at hb
  rcases hb with hb | hb
  · exact key _ (by omega) hb.symm
  · exact key _ (by omega) hb.symm

theorem WireName.component_partialName {b : Bytes} (h : WireName b) (d : Bytes) :
    Component (partialName b d) where
  toPlain := Plain.partialName h.no_slash d
  no_nul := by
    have hx := hex_no_nul (d.take TOKEN_SIZE)
    rw [partialName_plain h.no_slash]
    simp only [partialBase, ascii_part, List.mem_append, not_or]
    exact ⟨⟨⟨⟨by decide, h.no_nul⟩, by decide⟩, hx⟩, by decide⟩

theorem handleGet_touches {payload token b : Bytes} {offset : Nat}
    (h : Layout TOKEN_SIZE payload offset token b) :
    TouchesOnly (fun p => p = b ∧ Component p) (handleGet payload) := by
  have hparse : parseGet payload = .ok ⟨offset, token, decodeReplace b⟩ :=
    parseGet_ok_iff.mpr ⟨b, h, rfl⟩
  unfold handleGet
  rw [hparse, Proc.ofExcept_ok, Proc.done_bind]
  split
  · exact .of_uses (uses_sendError _ _)
  next hcheck =>
  have hb := (checkFilename_wire_iff b).mp (Bool.not_eq_false _ ▸ hcheck)
  show TouchesOnly _ (Py.isfile (encode (decodeReplace b)) >>= _)
  refine TouchesOnly.isfile fun os => ?_
  rw [encode_wireName hb]
  by_cases hdot : b = [DOT]
  · -- the directory itself is there, but it is no file
    rw [hdot, os.statAt_dir os.at?_dot]
    exact .of_uses (uses_sendError _ _)
  · split
    · exact .of_uses (uses_sendError _ _)
    · exact .of_uses (uses_serveFile ⟨rfl, hb.component hdot⟩ _ _)

theorem handlePut_touches {payload digest b : Bytes} {fileSize : Nat}
    (h : Layout HASH_SIZE payload fileSize digest b) :
    TouchesOnly (fun p => (p = b ∨ p = partialName b digest) ∧ Component p) (handlePut payload) := by
  have hparse : parsePut payload = .ok ⟨fileSize, digest, decodeReplace b⟩ :=
    parsePut_ok_iff.mpr ⟨b, h, rfl⟩
  unfold handlePut
  rw [hparse, Proc.ofExcept_ok, Proc.done_bind]
  split
  · exact .of_uses (uses_sendError _ _)
  next hcheck =>
  have hb := (checkFilename_wire_iff b).mp (Bool.not_eq_false _ ▸ hcheck)
  split
  · exact .of_uses (uses_sendError _ _)
  unfold PutRequest.partialPath PutRequest.path
  refine TouchesOnly.pathExists fun os => ?_
  simp only [encode_wireName hb]
  by_cases hdot : b = [DOT]
  · -- the directory itself is there, so nothing is uploaded
    rw [hdot, os.statAt_dir os.at?_dot]
    exact .of_uses (uses_sendError _ _)
  split
  · exact .of_uses (uses_sendError _ _)
  have hrest : ∀ reserved : Bool, (if reserved = false then
        sendError E_ALREADY_EXISTS "an upload of this file is in progress".toList
      else Proc.ensure (Py.discard (partialName b digest))
        (receiveUpload b (partialName b digest) fileSize digest)).Uses
      (Sys.Touches fun p => (p = b ∨ p = partialName b digest) ∧ Component p) fun _ => True := by
    intro reserved
    split
    · exact uses_sendError _ _
    · exact Proc.uses_ensure
        (uses_receiveUpload ⟨.inl rfl, hb.component hdot⟩ ⟨.inr rfl, hb.component_partialName _⟩ _ _)
        (Proc.uses_perform trivial)
  exact .of_uses (Proc.uses_bind (Proc.uses_perform trivial) hrest)

/-- Different accepted names lead to different places, whatever the filesystem. -/
theorem WireName.locate_inj {b b' : Bytes} (h : WireName b) (h' : WireName b') (os : Os)
    (heq : os.locate b = os.locate b') : b = b' := by
  have hplace : ∀ {c : Bytes}, WireName c → os.locate c = some os.cwd ∧ c = [DOT] ∨
      os.locate c = some (os.cwd ++ [c]) := by
    intro c hc
    by_cases hdot : c = [DOT]
    · exact .inl ⟨by rw [hdot, os.locate_dot], hdot⟩
    · exact .inr (os.locate_plain (hc.component hdot).toPlain)
  rcases hplace h with ⟨hl, hd⟩ | hl
  · rcases hplace h' with ⟨hl', hd'⟩ | hl'
    · rw [hd, hd']
    · rw [hl, hl'] at heq
      simp at heq
  · rcases hplace h' with ⟨hl', hd'⟩ | hl'
    · rw [hl, hl'] at heq
      simp at heq
    · rw [hl, hl'] at heq
      simpa using heq

/-- **The names on the wire.** What `parse_name` makes of a name is accepted exactly when the bytes are
a `WireName`; then it is these bytes again, and another name is another place. For a payload with the
name, the handlers open, create, link and remove nothing but single components: the name, and for PUT the
partial of it. -/
theorem wireName_exact (b : Bytes) (hb : b.length ≤ 65535) :
    (∀ rest, ∃ t, parseName (toBE 2 b.length ++ b ++ rest) = .ok (t, rest) ∧
      (checkFilename t = true ↔ WireName b) ∧
      (checkFilename t = true → encode t = b ∧
        ∀ b' t' rest', b'.length ≤ 65535 →
          parseName (toBE 2 b'.length ++ b' ++ rest') = .ok (t', rest') → checkFilename t' = true →
          ∀ os : Os, os.locate (encode t) = os.locate (encode t') → b = b')) ∧
    (∀ payload offset token, Layout TOKEN_SIZE payload offset token b →
      TouchesOnly (fun p => p = b ∧ Component p) (handleGet payload)) ∧
    (∀ payload fileSize digest, Layout HASH_SIZE payload fileSize digest b →
      TouchesOnly (fun p => (p = b ∨ p = partialName b digest) ∧ Component p) (handlePut payload)) := by
  refine ⟨fun rest => ⟨decodeReplace b, parseName_behind (by omega) rest, checkFilename_wire_iff b, ?_⟩,
    fun _ _ _ h => handleGet_touches h, fun _ _ _ h => handlePut_touches h⟩
  intro hcheck
  have hw := (checkFilename_wire_iff b).mp hcheck
  refine ⟨encode_wireName hw, fun b' t' rest' hb' hparse hcheck' os heq => ?_⟩
  rw [parseName_behind (by omega) rest'] at hparse
  cases hparse
  have hw' := (checkFilename_wire_iff b').mp hcheck'
  rw [encode_wireName hw, encode_wireName hw'] at heq
  exact hw.locate_inj hw' os heq

/-- A letter is a name to upload to, and `.` is one that a GET may ask for. -/
theorem wireName_exact_two :
    (WireName (ascii "a") ∧
      TouchesOnly
        (fun p => (p = ascii "a" ∨ p = partialName (ascii "a") (List.replicate HASH_SIZE 0)) ∧ Component p)
        (handlePut (toBE 8 3 ++ List.replicate HASH_SIZE 0 ++ toBE 2 1 ++ ascii "a"))) ∧
    WireName [DOT] ∧ TouchesOnly (fun p => p = [DOT] ∧ Component p)
      (handleGet (toBE 8 0 ++ List.replicate TOKEN_SIZE 0 ++ toBE 2 1 ++ [DOT])) := by
  have ha := wireName_exact (ascii "a") (by decide)
  have hdot := wireName_exact [DOT] (by decide)
  refine ⟨⟨?_, ha.2.2 _ 3 _ ⟨by decide, by decide, by decide, rfl⟩⟩, ?_,
    hdot.2.1 _ 0 _ ⟨by decide, by decide, by decide, rfl⟩⟩
  · obtain ⟨t, ht, hiff, -⟩ := ha.1 []
    have hparse := parseName_behind (show (ascii "a").length < 256 ^ 2 by decide) []
    cases ht.symm.trans hparse
    exact hiff.mp (by decide)
  · obtain ⟨t, ht, hiff, -⟩ := hdot.1 []
    have hparse := parseName_behind (show [DOT].length < 256 ^ 2 by decide) []
    cases ht.symm.trans hparse
    exact hiff.mp (by decide)

end Retriever
