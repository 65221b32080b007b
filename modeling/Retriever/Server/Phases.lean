/-
# Retriever.Server.Phases — what a session does, as an automaton

The steps of `handle_put` for a request that passed its checks, with what each answer means for
the rest of the upload. `handlePut_follows` says that the handler is a path of this automaton
whatever the operating system and the client answer. Everything else a session does (LIST, GET,
greeting, refusing) only looks at the directory (`dispatch_quiet`). `Local.tracks` puts the two
together: a whole session is a path of the automaton `Local.Move`.
-/
import Retriever.Server.World

namespace Retriever

/-! ## Phases of an upload -/

/-- Where an upload stands. `ready r`, `granted r` and `receiving r h w` hold the offset `r` the
server offers, the open partial `h` and the count `w` of bytes written; `hashing i acc` the file
that is being hashed and what has been read of it. -/
inductive Phase where
  | asked
  | turned
  | clear
  | busy
  | reserved
  | found
  | oversize
  | ready (r : Nat)
  | granted (r : Nat)
  | receiving (r h w : Nat)
  | storing (r h w : Nat) (c : Bytes)
  | hashing (i : Nat) (acc : Bytes)
  | corrupt
  | checked
  | sniffing
  | verified
  | linked
  | published
  | lost
  | rejecting (reason : UInt8)
  | closing
  | finished

/-- Between the `add` to `_in_flight` and the `discard`. -/
def Phase.holds : Phase → Bool
  | .asked | .turned | .clear | .busy | .finished => false
  | _ => true

/-- An answer that ends an upload early. -/
inductive Sys.Failed : (o : Sys) → o.Ans → Prop
  | eof (n : Nat) : Sys.Failed (.recv n) (.ok [])
  | recv (n : Nat) (e : SysErr) : Sys.Failed (.recv n) (.error e)
  | offer (r : Nat) (e : SysErr) : Sys.Failed (.send (offerFrame r)) (.error e)
  | fs {o : FsOp} {a : o.Ans} : o.Refused a → Sys.Failed (.fs o) a

/-- What a phase may fail at. A failed link has steps of its own. -/
def Phase.Tries (u : PutRequest) : Phase → Sys → Prop
  | .found, o => o = .fs (.stat u.partialPath)
  | .oversize, o | .corrupt, o | .lost, o => o = .fs (.unlink u.partialPath)
  | .ready r, o => o = .send (offerFrame r)
  | .granted _, o => o = .fs (.openAb u.partialPath)
  | .receiving _ _ w, o =>
    (∃ n, o = .recv n) ∨ u.fileSize ≤ w ∧ o = .fs (.openRb u.partialPath)
  | .storing _ h _ c, o => o = .fs (.write h c)
  | .hashing i acc, o => ∃ n, o = .fs (.read i acc.length n)
  | .checked, o => o = .fs (.openRb u.partialPath)
  | .sniffing, o => ∃ i n, o = .fs (.read i 0 n)
  | _, _ => False

theorem Phase.Tries.holds {u : PutRequest} {ph : Phase} {o : Sys} (h : ph.Tries u o) :
    ph.holds = true := by
  cases ph <;> first | rfl | exact h.elim

theorem Phase.Tries.ne_linked {u : PutRequest} {ph : Phase} {o : Sys} (h : ph.Tries u o) :
    ph ≠ .linked := by
  rintro rfl
  exact h

/-- The steps of an upload `u`. -/
inductive Phase.Move (u : PutRequest) : Phase → (o : Sys) → o.Ans → Phase → Prop
  | taken (st : Stat) : Move u .asked (.fs (.stat u.path)) (some st) .turned
  | free : Move u .asked (.fs (.stat u.path)) none .clear
  | turnAway {b : Bytes} (a : Except SysErr Unit) : IsErrorFrame E_ALREADY_EXISTS b →
      Move u .turned (.send b) a .finished
  | reserve : Move u .clear (.reserve u.partialPath) true .reserved
  | inFlight : Move u .clear (.reserve u.partialPath) false .busy
  | tellBusy {b : Bytes} (a : Except SysErr Unit) : IsErrorFrame E_ALREADY_EXISTS b →
      Move u .busy (.send b) a .finished
  | absent : Move u .reserved (.fs (.stat u.partialPath)) none (.ready 0)
  | present (st : Stat) : Move u .reserved (.fs (.stat u.partialPath)) (some st) .found
  | fits {st : Stat} : st.size ≤ u.fileSize →
      Move u .found (.fs (.stat u.partialPath)) (some st) (.ready st.size)
  | exceeds {st : Stat} : u.fileSize < st.size →
      Move u .found (.fs (.stat u.partialPath)) (some st) .oversize
  | drop : Move u .oversize (.fs (.unlink u.partialPath)) (.ok ()) (.ready 0)
  | offer (r : Nat) : Move u (.ready r) (.send (offerFrame r)) (.ok ()) (.granted r)
  | openPartial (r h : Nat) :
      Move u (.granted r) (.fs (.openAb u.partialPath)) (.ok h) (.receiving r h r)
  | receive {r h w n : Nat} {c : Bytes} : w < u.fileSize → n ≤ u.fileSize - w → c ≠ [] →
      Move u (.receiving r h w) (.recv n) (.ok c) (.storing r h w c)
  | store (r h w : Nat) (c : Bytes) :
      Move u (.storing r h w c) (.fs (.write h c)) (.ok ()) (.receiving r h (w + c.length))
  | rehash {r h w : Nat} (i : Nat) : u.fileSize ≤ w →
      Move u (.receiving r h w) (.fs (.openRb u.partialPath)) (.ok i) (.hashing i [])
  | readMore {i n : Nat} {acc c : Bytes} : c ≠ [] →
      Move u (.hashing i acc) (.fs (.read i acc.length n)) (.ok c) (.hashing i (acc ++ c))
  | mismatch {i n : Nat} {acc : Bytes} : 0 < n → sha256 acc ≠ u.digest →
      Move u (.hashing i acc) (.fs (.read i acc.length n)) (.ok []) .corrupt
  | matched {i n : Nat} {acc : Bytes} : 0 < n → sha256 acc = u.digest →
      Move u (.hashing i acc) (.fs (.read i acc.length n)) (.ok []) .checked
  | dropCorrupt : Move u .corrupt (.fs (.unlink u.partialPath)) (.ok ()) (.rejecting E_CORRUPT)
  | reopen (i : Nat) : Move u .checked (.fs (.openRb u.partialPath)) (.ok i) .sniffing
  | sniff {i pos n : Nat} (c : Bytes) : Move u .sniffing (.fs (.read i pos n)) (.ok c) .verified
  | link : Move u .verified (.fs (.link u.partialPath u.path)) (.ok ()) .linked
  | linkTaken : Move u .verified (.fs (.link u.partialPath u.path)) (.error .fileExists) .lost
  | unlink : Move u .linked (.fs (.unlink u.partialPath)) (.ok ()) .published
  | stuck (e : SysErr) : Move u .linked (.fs (.unlink u.partialPath)) (.error e) .closing
  | confirm (a : Except SysErr Unit) : Move u .published (.send okFrame) a .closing
  | dropLost : Move u .lost (.fs (.unlink u.partialPath)) (.ok ()) (.rejecting E_ALREADY_EXISTS)
  | reject {reason : UInt8} {b : Bytes} (a : Except SysErr Unit) : IsErrorFrame reason b →
      Move u (.rejecting reason) (.send b) a .closing
  | linkFails {e : SysErr} : e ≠ .fileExists →
      Move u .verified (.fs (.link u.partialPath u.path)) (.error e) .closing
  | abort {ph : Phase} {o : Sys} {a : o.Ans} : ph.Tries u o → Sys.Failed o a →
      Move u ph o a .closing
  | release : Move u .closing (.discard u.partialPath) () .finished
  | giveUp {i : Nat} {acc : Bytes} : OFF_MAX ≤ acc.length →
      Move u (.hashing i acc) (.discard u.partialPath) () .finished

/-! ## The calls, one by one -/

namespace Py

variable {Ph : Type} {tr : Ph → (o : Sys) → o.Ans → Ph → Prop} {E : Exn → Ph → Prop} {ph : Ph}

theorem follows_recv {n : Nat} {Q : Bytes → Ph → Prop}
    (hok : ∀ c, ∃ ph', tr ph (.recv n) (.ok c) ph' ∧ Q c ph')
    (herr : ∀ e, ∃ ph', tr ph (.recv n) (.error e) ph' ∧ E (.sys e) ph') :
    (Py.recv n).Follows tr Q E ph
  | .ok c => hok c
  | .error e => herr e

theorem follows_sendall {b : Bytes} {Q : Unit → Ph → Prop}
    (hok : ∃ ph', tr ph (.send b) (.ok ()) ph' ∧ Q () ph')
    (herr : ∀ e, ∃ ph', tr ph (.send b) (.error e) ph' ∧ E (.sys e) ph') :
    (Py.sendall b).Follows tr Q E ph
  | .ok () => hok
  | .error e => herr e

theorem follows_stat {p : Bytes} {Q : Option Stat → Ph → Prop}
    (h : ∀ st, ∃ ph', tr ph (.fs (.stat p)) st ph' ∧ Q st ph') : (Py.stat p).Follows tr Q E ph := h

theorem follows_openRb {p : Bytes} {Q : Nat → Ph → Prop}
    (hok : ∀ i, ∃ ph', tr ph (.fs (.openRb p)) (.ok i) ph' ∧ Q i ph')
    (herr : ∀ e, ∃ ph', tr ph (.fs (.openRb p)) (.error e) ph' ∧ E (.sys e) ph') :
    (Py.openRb p).Follows tr Q E ph
  | .ok i => hok i
  | .error e => herr e

theorem follows_openAb {p : Bytes} {Q : Nat → Ph → Prop}
    (hok : ∀ i, ∃ ph', tr ph (.fs (.openAb p)) (.ok i) ph' ∧ Q i ph')
    (herr : ∀ e, ∃ ph', tr ph (.fs (.openAb p)) (.error e) ph' ∧ E (.sys e) ph') :
    (Py.openAb p).Follows tr Q E ph
  | .ok i => hok i
  | .error e => herr e

theorem follows_read {i pos n : Nat} {Q : Bytes → Ph → Prop}
    (hok : ∀ c, ∃ ph', tr ph (.fs (.read i pos n)) (.ok c) ph' ∧ Q c ph')
    (herr : ∀ e, ∃ ph', tr ph (.fs (.read i pos n)) (.error e) ph' ∧ E (.sys e) ph') :
    (Py.read i pos n).Follows tr Q E ph
  | .ok c => hok c
  | .error e => herr e

theorem follows_write {i : Nat} {b : Bytes} {Q : Unit → Ph → Prop}
    (hok : ∃ ph', tr ph (.fs (.write i b)) (.ok ()) ph' ∧ Q () ph')
    (herr : ∀ e, ∃ ph', tr ph (.fs (.write i b)) (.error e) ph' ∧ E (.sys e) ph') :
    (Py.write i b).Follows tr Q E ph
  | .ok () => hok
  | .error e => herr e

theorem follows_remove {p : Bytes} {Q : Unit → Ph → Prop}
    (hok : ∃ ph', tr ph (.fs (.unlink p)) (.ok ()) ph' ∧ Q () ph')
    (herr : ∀ e, ∃ ph', tr ph (.fs (.unlink p)) (.error e) ph' ∧ E (.sys e) ph') :
    (Py.remove p).Follows tr Q E ph
  | .ok () => hok
  | .error e => herr e

theorem follows_link {p n : Bytes} {Q : Unit → Ph → Prop}
    (hok : ∃ ph', tr ph (.fs (.link p n)) (.ok ()) ph' ∧ Q () ph')
    (herr : ∀ e, ∃ ph', tr ph (.fs (.link p n)) (.error e) ph' ∧ E (.sys e) ph') :
    (Py.link p n).Follows tr Q E ph
  | .ok () => hok
  | .error e => herr e

theorem follows_reserve {p : Bytes} {Q : Bool → Ph → Prop}
    (h : ∀ b, ∃ ph', tr ph (.reserve p) b ph' ∧ Q b ph') : (Py.reserve p).Follows tr Q E ph := h

theorem follows_discard {p : Bytes} {Q : Unit → Ph → Prop}
    (h : ∃ ph', tr ph (.discard p) () ph' ∧ Q () ph') : (Py.discard p).Follows tr Q E ph :=
  fun () => h

end Py

/-! ## The handler, piece by piece -/

namespace Phase

variable {u : PutRequest}

/-- An exception leaves an upload with nothing to do but to give its reservation back. -/
def Ended : Exn → Phase → Prop := fun e ph =>
  (∃ x, e = .sys x) ∧ (ph = .closing ∨ ∃ i acc, ph = .hashing i acc ∧ OFF_MAX ≤ acc.length)

theorem Ended.sys (e : SysErr) : Ended (.sys e) .closing := ⟨⟨e, rfl⟩, .inl rfl⟩

theorem sendError_follows {ph ph' : Phase} {reason : UInt8} {m : Text}
    (hm : (encode m).length < 256 ^ 2)
    (hmove : ∀ b a, IsErrorFrame reason b → Move u ph (.send b) a ph') :
    (sendError reason m).Follows (Move u) (fun _ x => x = ph')
      (fun e x => (∃ y, e = .sys y) ∧ x = ph') ph := by
  have hb : IsErrorFrame reason (frameBytes T_ERROR (errorPayload reason m)) := ⟨m, hm, rfl⟩
  rw [sendError_eq hm]
  exact Py.follows_sendall ⟨ph', hmove _ _ hb, rfl⟩ fun e => ⟨ph', hmove _ _ hb, ⟨e, rfl⟩, rfl⟩

theorem resumeOffset_follows :
    (resumeOffset u.partialPath u.fileSize).Follows (Move u)
      (fun r ph => ph = .ready r ∧ r ≤ u.fileSize) Ended .reserved := by
  unfold resumeOffset Py.pathExists
  simp only [bind_assoc, pure_bind]
  refine Proc.follows_bind.mpr (Py.follows_stat fun st => ?_)
  cases st with
  | none =>
    refine ⟨_, .absent, ?_⟩
    simp
  | some st =>
    refine ⟨_, .present st, ?_⟩
    simp only [Option.isSome_some, if_true, Py.getsize, bind_assoc]
    refine Proc.follows_bind.mpr (Py.follows_stat fun st' => ?_)
    cases st' with
    | none => exact ⟨_, .abort rfl (.fs (.stat _)), .sys _⟩
    | some st' =>
      by_cases hs : st'.size ≤ u.fileSize
      · exact ⟨_, .fits hs, by simp [Nat.not_lt.mpr hs, hs]⟩
      · refine ⟨_, .exceeds (Nat.not_le.mp hs), ?_⟩
        simp only [Proc.pure_eq, Proc.done_bind, if_pos (Nat.not_le.mp hs)]
        refine Proc.follows_bind.mpr (Py.follows_remove ⟨_, .drop, by simp⟩ fun e => ?_)
        exact ⟨_, .abort rfl (.fs (.unlink _ e)), .sys _⟩

theorem receiveBody_follows {r h fuel w : Nat} (hf : u.fileSize ≤ w + fuel) :
    (receiveBody h u.fileSize fuel w).Follows (Move u)
      (fun _ ph => ∃ w', ph = .receiving r h w' ∧ u.fileSize ≤ w') Ended (.receiving r h w) := by
  induction fuel generalizing w with
  | zero => exact ⟨w, rfl, by simpa using hf⟩
  | succ fuel ih =>
    rw [receiveBody]
    split
    · next hw =>
      refine Proc.follows_bind.mpr (Py.follows_recv (fun c => ?_) fun e => ?_)
      · by_cases hc : c = []
        · subst hc
          exact ⟨_, .abort (.inl ⟨_, rfl⟩) (.eof _), .sys _⟩
        · refine ⟨_, .receive hw (Nat.min_le_right _ _) hc, ?_⟩
          rw [if_neg hc]
          refine Proc.follows_bind.mpr (Py.follows_write ⟨_, .store r h w c, ?_⟩ fun e => ?_)
          · have : 0 < c.length := List.length_pos_iff.mpr hc
            exact ih (by omega)
          · exact ⟨_, .abort rfl (.fs (.write _ _ e)), .sys _⟩
      · exact ⟨_, .abort (.inl ⟨_, rfl⟩) (.recv _ e), .sys _⟩
    · next hw => exact ⟨w, rfl, by omega⟩

theorem readAll_follows {i n fuel : Nat} (hn : 0 < n) {acc : Bytes}
    (hf : OFF_MAX ≤ acc.length + fuel) : (Py.readAll i n fuel acc).Follows (Move u)
      (fun data ph => ph = if sha256 data = u.digest then .checked else .corrupt) Ended
      (.hashing i acc) := by
  induction fuel generalizing acc with
  | zero => exact ⟨⟨_, rfl⟩, .inr ⟨i, acc, rfl, by simpa using hf⟩⟩
  | succ fuel ih =>
    rw [Py.readAll]
    refine Proc.follows_bind.mpr (Py.follows_read (fun c => ?_) fun e => ?_)
    · by_cases hc : c = []
      · subst hc
        simp only [if_true, Proc.pure_eq, Proc.follows_done]
        by_cases hd : sha256 acc = u.digest
        · exact ⟨_, .matched hn hd, by rw [if_pos hd]⟩
        · exact ⟨_, .mismatch hn hd, by rw [if_neg hd]⟩
      · have : 0 < c.length := List.length_pos_iff.mpr hc
        refine ⟨_, .readMore hc, ?_⟩
        rw [if_neg hc]
        exact ih (by rw [List.length_append]; omega)
    · exact ⟨_, .abort ⟨_, rfl⟩ (.fs (.read _ _ _ e)), .sys _⟩

theorem sha256File_follows {r h w : Nat} (hw : u.fileSize ≤ w) :
    (sha256File u.partialPath).Follows (Move u)
      (fun d ph => ph = if d = u.digest then .checked else .corrupt) Ended (.receiving r h w) := by
  unfold sha256File
  refine Proc.follows_bind.mpr (Py.follows_openRb (fun i => ?_) fun e => ?_)
  · refine ⟨_, .rehash i hw, Proc.follows_bind.mpr ?_⟩
    exact Proc.follows_mono (readAll_follows (by decide) (by simp)) (fun d ph h => h) fun e ph h => h
  · exact ⟨_, .abort (.inr ⟨hw, rfl⟩) (.fs (.openRb _ e)), .sys _⟩

theorem publish_follows :
    (publish u.path u.partialPath).Follows (Move u) (fun _ ph => ph = .closing) Ended .checked := by
  unfold publish
  refine Proc.follows_bind.mpr (Py.follows_openRb (fun i => ?_) fun e => ?_)
  · refine ⟨_, .reopen i, Proc.follows_bind.mpr (Py.follows_read (fun c => ?_) fun e => ?_)⟩
    · refine ⟨_, .sniff c, Proc.follows_bind.mpr (Proc.follows_tryCatch.mpr ?_)⟩
      refine Proc.follows_bind.mpr (Py.follows_link ⟨_, .link, ?_⟩ fun e => ?_)
      · simp only [Proc.pure_eq, Proc.follows_done, Bool.true_eq_false, if_false]
        refine Proc.follows_bind.mpr (Py.follows_remove ⟨_, .unlink, ?_⟩ fun e => ?_)
        · rw [writeFrame_eq (by decide)]
          exact Py.follows_sendall ⟨_, .confirm _, rfl⟩ fun e => ⟨_, .confirm _, .sys _⟩
        · exact ⟨_, .stuck e, .sys _⟩
      · by_cases he : e = .fileExists
        · subst he
          refine ⟨_, .linkTaken, ?_⟩
          simp only [Proc.pure_eq, Proc.follows_done, if_true]
          refine Proc.follows_bind.mpr (Py.follows_remove ⟨_, .dropLost, ?_⟩ fun e => ?_)
          · refine Proc.follows_mono (sendError_follows (encode_short (by decide)) fun b a hb => .reject a hb)
              (fun _ ph h => h) fun e ph h => ⟨h.1, .inl h.2⟩
          · exact ⟨_, .abort rfl (.fs (.unlink _ e)), .sys _⟩
        · refine ⟨_, .linkFails he, ?_⟩
          split
          · next h => exact absurd (Exn.sys.inj h) he
          · exact .sys e
    · exact ⟨_, .abort ⟨_, _, rfl⟩ (.fs (.read _ _ _ e)), .sys _⟩
  · exact ⟨_, .abort rfl (.fs (.openRb _ e)), .sys _⟩

theorem receiveUpload_follows (hs : u.fileSize ≤ MAX_FILE_SIZE) :
    (receiveUpload u.path u.partialPath u.fileSize u.digest).Follows (Move u)
      (fun _ ph => ph = .closing) Ended .reserved := by
  unfold receiveUpload
  refine Proc.follows_bind.mpr (Proc.follows_mono resumeOffset_follows ?_ fun e ph h => h)
  rintro r ph ⟨rfl, hr⟩
  have h8 : r < 256 ^ 8 := lt_of_le_of_lt (hr.trans hs) (by decide)
  simp only [toBytes_of_lt h8, Proc.ofExcept_ok, Proc.done_bind]
  rw [writeFrame_eq (by rw [toBE_length]; decide)]
  refine Proc.follows_bind.mpr (Py.follows_sendall ⟨_, .offer r, ?_⟩ fun e => ?_)
  · refine Proc.follows_bind.mpr (Py.follows_openAb (fun h => ?_) fun e => ?_)
    · refine ⟨_, .openPartial r h, Proc.follows_bind.mpr ?_⟩
      refine Proc.follows_mono (receiveBody_follows (by omega)) ?_ fun e ph h => h
      rintro _ ph ⟨w, rfl, hw⟩
      refine Proc.follows_bind.mpr (Proc.follows_mono (sha256File_follows hw) ?_ fun e ph h => h)
      rintro d ph rfl
      by_cases hd : d = u.digest
      · simp only [hd, if_true, ne_eq, not_true, if_false]
        exact publish_follows
      · simp only [hd, if_false, ne_eq, not_false_eq_true, if_true]
        refine Proc.follows_bind.mpr (Py.follows_remove ⟨_, .dropCorrupt, ?_⟩ fun e => ?_)
        · refine Proc.follows_mono (sendError_follows (encode_short (by decide)) fun b a hb => .reject a hb)
            (fun _ ph h => h) fun e ph h => ⟨h.1, .inl h.2⟩
        · exact ⟨_, .abort rfl (.fs (.unlink _ e)), .sys _⟩
    · exact ⟨_, .abort rfl (.fs (.openAb _ e)), .sys _⟩
  · exact ⟨_, .abort rfl (.offer r e), .sys _⟩

end Phase

/-- A PUT request that passes the checks on its name and size. -/
structure PutRequest.OfFrame (u : PutRequest) (f : Frame) : Prop where
  type : f.type = T_PUT
  parsed : parsePut f.payload = .ok u
  name : checkFilename u.name = true
  size : u.fileSize ≤ MAX_FILE_SIZE

theorem type_of_uploadOf {r : Request} {u : PutRequest} (h : uploadOf r = some u) :
    r.2.type = T_PUT := by
  unfold uploadOf at h
  split at h
  · assumption
  · cases h

theorem PutRequest.OfFrame.uploadOf {u : PutRequest} {r : Request} (h : u.OfFrame r.2) :
    uploadOf r = some u := by
  simp [Retriever.uploadOf, h.type, h.parsed, Except.toOption]

/-- **The PUT handler is a path of the automaton, from the first check to the release.** -/
theorem handlePut_follows {u : PutRequest} {f : Frame} (h : u.OfFrame f) :
    (handlePut f.payload).Follows (Phase.Move u) (fun _ ph => ph = .finished)
      (fun e ph => (∃ x, e = .sys x) ∧ ph = .finished) .asked := by
  unfold handlePut
  simp only [h.parsed, Proc.ofExcept_ok, Proc.done_bind, h.name, Bool.true_eq_false, if_false,
    if_neg (Nat.not_lt.mpr h.size), Py.pathExists, bind_assoc, pure_bind]
  refine Proc.follows_bind.mpr (Py.follows_stat fun st => ?_)
  cases st with
  | some st =>
    refine ⟨_, .taken st, ?_⟩
    simp only [Option.isSome_some, if_true]
    exact Phase.sendError_follows (encode_short (by decide)) fun b a hb => .turnAway a hb
  | none =>
    refine ⟨_, .free, ?_⟩
    simp only [Option.isSome_none, Bool.false_eq_true, if_false]
    refine Proc.follows_bind.mpr (Py.follows_reserve fun b => ?_)
    cases b with
    | false =>
      refine ⟨_, .inFlight, ?_⟩
      simp only [if_true]
      exact Phase.sendError_follows (encode_short (by decide)) fun b a hb => .tellBusy a hb
    | true =>
      refine ⟨_, .reserve, ?_⟩
      simp only [Bool.true_eq_false, if_false]
      refine Proc.follows_ensure.mpr
        (Proc.follows_mono (Phase.receiveUpload_follows h.size) ?_ ?_)
      · rintro _ ph rfl
        exact Py.follows_discard ⟨_, .release, rfl⟩
      · rintro e ph ⟨he, rfl | ⟨i, acc, rfl, hlen⟩⟩
        · exact Py.follows_discard ⟨_, .release, he, rfl⟩
        · exact Py.follows_discard ⟨_, .giveUp hlen, he, rfl⟩

/-! ## Everything else only looks -/

/-- The request, if any, is a PUT. -/
def IsPut (r : Option Request) : Prop := ∃ n f, r = some (n, f) ∧ f.type = T_PUT

/-- Calls that look, replies, and between requests also reads from the client. The replies to a PUT
are errors, and none of them says CORRUPT. -/
inductive Sys.Quiet (r : Option Request) : Sys → Prop
  | recv (n : Nat) : r = none → Sys.Quiet r (.recv n)
  | send {b : Bytes} : (IsPut r → ∃ reason, reason ≠ E_CORRUPT ∧ IsErrorFrame reason b) →
      Sys.Quiet r (.send b)
  | fs {o : FsOp} : o.Looks → Sys.Quiet r (.fs o)

/-- Exceptions that do not lead to a CORRUPT reply to a PUT. -/
def Exn.Mild (r : Option Request) (e : Exn) : Prop :=
  IsPut r → ∀ reason m, e = .frameError reason m → reason ≠ E_CORRUPT

/-- The program only looks. -/
def Quietly {α : Type} (r : Option Request) (p : Py α) : Prop := p.Uses (Sys.Quiet r) (Exn.Mild r)

namespace Quietly

variable {r : Option Request} {α : Type}

theorem not_isPut_none : ¬ IsPut none := by
  rintro ⟨n, f, h, -⟩
  cases h

theorem mild_of_not {e : Exn} (h : ¬ IsPut r) : Exn.Mild r e := fun hp => absurd hp h

theorem ofExcept_of_not (h : ¬ IsPut r) (x : Except Exn α) : Quietly r (Proc.ofExcept x) :=
  Proc.uses_ofExcept fun _ _ => mild_of_not h

theorem orRaise (x : Except SysErr α) : Quietly r (Py.orRaise x) := by
  cases x with
  | ok a => trivial
  | error e => rintro - reason m ⟨⟩

theorem recv (n : Nat) : Quietly none (Py.recv n) :=
  Proc.uses_bind (Proc.uses_perform (.recv n rfl)) orRaise

theorem sendall {b : Bytes} (h : IsPut r → ∃ reason, reason ≠ E_CORRUPT ∧ IsErrorFrame reason b) :
    Quietly r (Py.sendall b) :=
  Proc.uses_bind (Proc.uses_perform (.send h)) orRaise

theorem sendError (reason : UInt8) (m : Text) (h : IsPut r → reason ≠ E_CORRUPT) :
    Quietly r (sendError reason m) := by
  by_cases hm : (encode m).length < 256 ^ 2
  · rw [sendError_eq hm]
    exact sendall fun hp => ⟨reason, h hp, m, hm, rfl⟩
  · have hp : packError reason m = .error .overflowError := by
      rw [packError, toBytes, if_neg hm]
      rfl
    simp only [Retriever.sendError, hp, Proc.ofExcept_error, Proc.raise_bind]
    rintro - reason m ⟨⟩

theorem writeFrame (h : ¬ IsPut r) (t : UInt8) (p : Bytes) : Quietly r (writeFrame t p) :=
  Proc.uses_bind (ofExcept_of_not h _) fun _ => sendall fun hr => absurd hr h

theorem readExactLoop (n fuel : Nat) (data : Bytes) :
    Quietly none (readExactLoop n fuel data) := by
  induction fuel generalizing data with
  | zero => trivial
  | succ fuel ih =>
    rw [Retriever.readExactLoop]
    split
    · refine Proc.uses_bind (recv _) fun c => ?_
      split
      · exact mild_of_not not_isPut_none
      · exact ih _
    · trivial

theorem readFrame : Quietly none readFrame := by
  refine Proc.uses_bind (Proc.uses_bind (readExactLoop _ _ _) fun _ =>
    ofExcept_of_not not_isPut_none _) ?_
  rintro ⟨t, n⟩
  dsimp only
  split
  · exact mild_of_not not_isPut_none
  · split
    · exact Proc.uses_bind (readExactLoop _ _ _) fun _ => trivial
    · trivial

theorem stat (p : Bytes) : Quietly r (Py.stat p) := Proc.uses_perform (.fs (.stat p))

theorem openRb (p : Bytes) : Quietly r (Py.openRb p) :=
  Proc.uses_bind (Proc.uses_perform (.fs (.openRb p))) orRaise

theorem read (i pos n : Nat) : Quietly r (Py.read i pos n) :=
  Proc.uses_bind (Proc.uses_perform (.fs (.read i pos n))) orRaise

theorem readAll (h : ¬ IsPut r) (i n fuel : Nat) (acc : Bytes) :
    Quietly r (Py.readAll i n fuel acc) := by
  induction fuel generalizing acc with
  | zero => exact mild_of_not h
  | succ fuel ih =>
    rw [Py.readAll]
    refine Proc.uses_bind (read _ _ _) fun c => ?_
    split
    · trivial
    · exact ih _

theorem sendBody (h : ¬ IsPut r) (f fuel pos remaining : Nat) :
    Quietly r (sendBody f fuel pos remaining) := by
  induction fuel generalizing pos remaining with
  | zero => trivial
  | succ fuel ih =>
    rw [Retriever.sendBody]
    split
    · refine Proc.uses_bind (read _ _ _) fun c => ?_
      split
      · trivial
      · exact Proc.uses_bind (sendall fun hr => absurd hr h) fun _ => ih _ _
    · trivial

theorem serveFile (h : ¬ IsPut r) (path : Bytes) (offset : Nat) (token : Bytes) :
    Quietly r (serveFile path offset token) := by
  have hsend : ∀ b, Quietly r (Py.sendall b) := fun b => sendall fun hr => absurd hr h
  unfold Retriever.serveFile Py.getsize
  refine Proc.uses_bind (Proc.uses_bind (stat _) ?_) fun size => ?_
  · intro st
    cases st with
    | none => exact mild_of_not h
    | some st => trivial
  · split
    · exact mild_of_not h
    · refine Proc.uses_bind (Proc.uses_bind (openRb _) fun i =>
        Proc.uses_bind (readAll h _ _ _ _) fun _ => trivial) fun d => ?_
      refine Proc.uses_bind (Proc.uses_bind (ofExcept_of_not h _) fun _ => hsend _) fun _ => ?_
      refine Proc.uses_bind (ofExcept_of_not h _) fun _ => Proc.uses_bind (ofExcept_of_not h _) ?_
      intro _
      refine Proc.uses_bind (hsend _) fun _ => ?_
      exact Proc.uses_bind (openRb _) fun _ => sendBody h _ _ _ _

theorem handleGet (h : ¬ IsPut r) (payload : Bytes) : Quietly r (handleGet payload) := by
  refine Proc.uses_bind (ofExcept_of_not h _) fun req => ?_
  split
  · exact sendError _ _ fun hr => absurd hr h
  · refine Proc.uses_bind (Proc.uses_bind (stat _) fun _ => trivial) fun b => ?_
    split
    · exact sendError _ _ fun hr => absurd hr h
    · exact serveFile h _ _ _

theorem handleList (h : ¬ IsPut r) : Quietly r handleList := by
  refine Proc.uses_bind (Proc.uses_bind (Proc.uses_perform (.fs (.listdir _))) orRaise) fun _ => ?_
  exact Proc.uses_bind (ofExcept_of_not h _) fun _ => writeFrame h _ _

theorem onError {e : Exn} (h : Exn.Mild r e) : Quietly r (onError e) := by
  unfold Retriever.onError
  split
  · next reason m => exact sendError _ _ fun hr => h hr reason m rfl
  · trivial
  · trivial
  · exact sendError _ _ fun _ => by decide

theorem nextFrame : Quietly none nextFrame := by
  refine Proc.uses_tryCatch (Proc.uses_bind readFrame fun _ => trivial) fun e he => ?_
  split
  · trivial
  · exact he

theorem greet : Quietly none greet := by
  refine Proc.uses_bind readFrame fun f => ?_
  split
  · exact mild_of_not not_isPut_none
  · exact writeFrame not_isPut_none _ _

end Quietly

/-- A PUT that does not pass the checks is refused without a look at the directory. -/
theorem handlePut_quiet {f : Frame} (hf : f.type = T_PUT) (h : ¬ ∃ u : PutRequest, u.OfFrame f)
    (r : Option Request) : Quietly r (handlePut f.payload) := by
  unfold handlePut
  cases hp : parsePut f.payload with
  | error e =>
    obtain ⟨m, rfl⟩ := parsePut_error hp
    rintro - reason m' ⟨⟩
    decide
  | ok u =>
    simp only [Proc.ofExcept_ok, Proc.done_bind]
    split
    · exact Quietly.sendError _ _ fun _ => by decide
    · next hn =>
      split
      · exact Quietly.sendError _ _ fun _ => by decide
      · next hs =>
        exact absurd ⟨u, hf, hp, by simpa using hn, Nat.not_lt.mp hs⟩ h

theorem dispatch_quiet {f : Frame} (n : Nat) (h : ¬ ∃ u : PutRequest, u.OfFrame f) :
    Quietly (some (n, f)) (dispatch f) := by
  have hput : f.type ≠ T_PUT → ¬ IsPut (some (n, f)) := by
    rintro hf ⟨n', f', he, hf'⟩
    cases he
    exact hf hf'
  unfold dispatch
  split
  · next ht =>
    exact Proc.uses_bind (Quietly.writeFrame (hput (by rw [ht]; decide)) _ _) fun _ => trivial
  split
  · next ht =>
    exact Proc.uses_bind (Quietly.handleList (hput (by rw [ht]; decide))) fun _ => trivial
  split
  · next ht =>
    exact Proc.uses_bind (Quietly.handleGet (hput (by rw [ht]; decide)) _) fun _ => trivial
  split
  · next ht => exact Proc.uses_bind (handlePut_quiet ht h _) fun _ => trivial
  · next ht => exact Quietly.mild_of_not (hput ht)

/-! ## Whole sessions -/

/-- What a session is doing: an upload in some phase, or something that only looks. `plain b r` is
busy with request `r`, if any, and has been given `b` requests so far. -/
inductive Local where
  | plain (b : Nat) (r : Option Request)
  | put (r : Request) (u : PutRequest) (ph : Phase)

namespace Local

inductive Move : Local → (o : Sys) → o.Ans → Local → Prop
  | stay {b : Nat} {r : Option Request} {o : Sys} (a : o.Ans) : o.Quiet r →
      Move (.plain b r) o a (.plain b r)
  | finish {b : Nat} {r : Option Request} {o : Sys} (a : o.Ans) : o.Quiet r →
      Move (.plain b r) o a (.plain b none)
  | begin {b : Nat} {r : Option Request} {o : Sys} (a : o.Ans) : o.Quiet none →
      (∀ q, r = some q → q.1 = b ∧ ¬ ∃ u : PutRequest, u.OfFrame q.2) →
      Move (.plain b none) o a (.plain (b + 1) r)
  | beginPut {b : Nat} {o : Sys} (a : o.Ans) {f : Frame} {u : PutRequest} : o.Quiet none →
      u.OfFrame f → Move (.plain b none) o a (.put (b, f) u .asked)
  | upload {r : Request} {u : PutRequest} {ph ph' : Phase} {o : Sys} {a : o.Ans} :
      ph.Move u o a ph' → Move (.put r u ph) o a (.put r u ph')
  | uploaded {r : Request} {u : PutRequest} {ph : Phase} {o : Sys} {a : o.Ans} :
      ph.Move u o a .finished → Move (.put r u ph) o a (.plain (r.1 + 1) none)
  | uploadFailed {r : Request} {u : PutRequest} {ph : Phase} {o : Sys} {a : o.Ans} :
      ph.Move u o a .finished → Move (.put r u ph) o a (.plain (r.1 + 1) (some r))

/-- The request a session is busy with. -/
def request : Local → Option Request
  | .put r _ _ => some r
  | .plain _ r => r

/-- A step of a session only looks, or it is a step of an upload. -/
theorem Move.split {l l' : Local} {o : Sys} {a : o.Ans} (hm : l.Move o a l') :
    (o.Quiet l.request ∧ (∃ b q, l = .plain b q) ∧ ((∃ b q, l' = .plain b q) ∨
      ∃ b f u, l = .plain b none ∧ l' = .put (b, f) u .asked ∧ u.OfFrame f)) ∨
    ∃ r u ph ph', l = .put r u ph ∧ ph.Move u o a ph' ∧
      (l' = .put r u ph' ∨ ph' = .finished ∧ ∃ b q, l' = .plain b q) := by
  cases hm with
  | stay a hq => exact .inl ⟨hq, ⟨_, _, rfl⟩, .inl ⟨_, _, rfl⟩⟩
  | finish a hq => exact .inl ⟨hq, ⟨_, _, rfl⟩, .inl ⟨_, _, rfl⟩⟩
  | begin a hq hr => exact .inl ⟨hq, ⟨_, _, rfl⟩, .inl ⟨_, _, rfl⟩⟩
  | beginPut a hq hu => exact .inl ⟨hq, ⟨_, _, rfl⟩, .inr ⟨_, _, _, rfl, rfl, hu⟩⟩
  | upload hm => exact .inr ⟨_, _, _, _, rfl, hm, .inl rfl⟩
  | uploaded hm => exact .inr ⟨_, _, _, _, rfl, hm, .inr ⟨rfl, _, _, rfl⟩⟩
  | uploadFailed hm => exact .inr ⟨_, _, _, _, rfl, hm, .inr ⟨rfl, _, _, rfl⟩⟩

/-- The session is described by the local state. -/
inductive Rel : Session → Local → Prop
  | greeting {p : Py Unit} : Quietly none p → Rel (.greeting p) (.plain 0 none)
  | awaiting {n : Nat} {p : Py (Option Frame)} : Quietly none p →
      Rel (.awaiting n p) (.plain n none)
  | serving {r : Request} {p : Py Bool} : Quietly (some r) p →
      Rel (.serving r p) (.plain (r.1 + 1) (some r))
  | uploading {r : Request} {p : Py Bool} {u : PutRequest} {ph : Phase} : u.OfFrame r.2 →
      p.Follows (Phase.Move u) (fun _ ph => ph = .finished)
        (fun e ph => (∃ x, e = .sys x) ∧ ph = .finished) ph → Rel (.serving r p) (.put r u ph)
  | failing {b : Nat} {r : Option Request} {p : Py Unit} : Quietly r p →
      Rel (.failing r p) (.plain b r)
  | closed (b : Nat) : Rel .closed (.plain b none)

theorem fail_rel (b : Nat) {r : Option Request} {e : Exn} (he : Exn.Mild r e) :
    Rel (Session.fail r e) (.plain b r) ∨ Rel (Session.fail r e) (.plain b none) := by
  have hu := Quietly.onError he
  unfold Session.fail
  cases hp : onError e with
  | done a => exact .inr (.closed b)
  | raise e => exact .inr (.closed b)
  | call o k =>
    rw [hp] at hu
    exact .inl (.failing hu)

theorem settleServing_plain {r : Request} {p : Py Bool} (hp : Quietly (some r) p) :
    Rel (Session.settleServing r p) (.plain (r.1 + 1) (some r)) ∨
      Rel (Session.settleServing r p) (.plain (r.1 + 1) none) := by
  cases p with
  | done b =>
    cases b with
    | false => exact .inr (.closed _)
    | true => exact .inr (.awaiting Quietly.nextFrame)
  | raise e => exact fail_rel _ hp
  | call o k => exact .inl (.serving hp)

theorem settleServing_put {r : Request} {p : Py Bool} {u : PutRequest} {ph : Phase}
    (hu : u.OfFrame r.2)
    (hp : p.Follows (Phase.Move u) (fun _ ph => ph = .finished)
      (fun e ph => (∃ x, e = .sys x) ∧ ph = .finished) ph) :
    Rel (Session.settleServing r p) (.put r u ph) ∨
      ph = .finished ∧ (Rel (Session.settleServing r p) (.plain (r.1 + 1) none) ∨
        Rel (Session.settleServing r p) (.plain (r.1 + 1) (some r))) := by
  cases p with
  | done b =>
    refine .inr ⟨hp, .inl ?_⟩
    cases b with
    | false => exact .closed _
    | true => exact .awaiting Quietly.nextFrame
  | raise e =>
    obtain ⟨⟨x, rfl⟩, hover⟩ := hp
    exact .inr ⟨hover, (fail_rel _ (by rintro - reason m ⟨⟩)).symm⟩
  | call o k => exact .inl (.uploading hu hp)

/-- The first state of a session that has just read a frame. -/
theorem settleServing_dispatch (n : Nat) (f : Frame) :
    (∃ u : PutRequest, u.OfFrame f ∧
      Rel (Session.settleServing (n, f) (dispatch f)) (.put (n, f) u .asked)) ∨
    (¬ ∃ u : PutRequest, u.OfFrame f) ∧
      (Rel (Session.settleServing (n, f) (dispatch f)) (.plain (n + 1) (some (n, f))) ∨
        Rel (Session.settleServing (n, f) (dispatch f)) (.plain (n + 1) none)) := by
  by_cases h : ∃ u : PutRequest, u.OfFrame f
  · obtain ⟨u, hu⟩ := h
    have hd : dispatch f = handlePut f.payload >>= fun _ => pure true := by
      simp only [dispatch, hu.type, if_neg (show T_PUT ≠ T_QUIT by decide),
        if_neg (show T_PUT ≠ T_LIST by decide), if_neg (show T_PUT ≠ T_GET by decide), if_true]
    have hp : (dispatch f).Follows (Phase.Move u) (fun _ ph => ph = .finished)
        (fun e ph => (∃ x, e = .sys x) ∧ ph = .finished) .asked := by
      rw [hd]
      exact Proc.follows_bind.mpr (handlePut_follows hu)
    rcases settleServing_put (r := (n, f)) hu hp with hr | ⟨hover, -⟩
    · exact .inl ⟨u, hu, hr⟩
    · cases hover
  · exact .inr ⟨h, settleServing_plain (dispatch_quiet n h)⟩

theorem settleGreeting_rel {p : Py Unit} (hp : Quietly none p) :
    Rel (Session.settleGreeting p) (.plain 0 none) := by
  cases p with
  | done => exact .awaiting Quietly.nextFrame
  | raise e => exact (fail_rel 0 hp).elim id id
  | call o k => exact .greeting hp

theorem settleFailing_rel {b : Nat} {r : Option Request} {p : Py Unit}
    (hp : Quietly r p) :
    Rel (Session.settleFailing r p) (.plain b r) ∨
      Rel (Session.settleFailing r p) (.plain b none) := by
  cases p with
  | done => exact .inr (.closed b)
  | raise e => exact .inr (.closed b)
  | call o k => exact .inl (.failing hp)

/-- A session that reads a frame starts on the request. -/
theorem settleAwaiting_rel {n : Nat} {p : Py (Option Frame)} (hp : Quietly none p)
    {o : Sys} (a : o.Ans) (ho : o.Quiet none) :
    ∃ ph, Move (.plain n none) o a ph ∧ Rel (Session.settleAwaiting n p) ph := by
  cases p with
  | done x =>
    cases x with
    | none => exact ⟨_, .stay a ho, .closed n⟩
    | some f =>
      rcases settleServing_dispatch n f with ⟨u, hu, h⟩ | ⟨hn, h | h⟩
      · exact ⟨_, .beginPut a ho hu, h⟩
      · exact ⟨_, .begin a ho (by rintro q ⟨⟩; exact ⟨rfl, hn⟩), h⟩
      · exact ⟨_, .begin a ho (by rintro q ⟨⟩), h⟩
  | raise e => exact ⟨_, .stay a ho, (fail_rel n hp).elim id id⟩
  | call o k => exact ⟨_, .stay a ho, .awaiting hp⟩

/-- **A session is a path of the automaton.** -/
theorem tracks : Pool.Tracks Session.next Rel Move := by
  intro l ph o k hrel hnext a
  cases hrel with
  | @greeting p hp =>
    cases p with
    | done | raise => cases hnext
    | call o' k' =>
      cases hnext
      exact ⟨_, .stay a hp.1, settleGreeting_rel (hp.2 a)⟩
  | @awaiting n p hp =>
    cases p with
    | done | raise => cases hnext
    | call o' k' =>
      cases hnext
      exact settleAwaiting_rel (hp.2 a) a hp.1
  | @serving r p hp =>
    cases p with
    | done | raise => cases hnext
    | call o' k' =>
      cases hnext
      rcases settleServing_plain (hp.2 a) with h | h
      · exact ⟨_, .stay a hp.1, h⟩
      · exact ⟨_, .finish a hp.1, h⟩
  | @uploading r p u ph hu hp =>
    cases p with
    | done | raise => cases hnext
    | call o' k' =>
      cases hnext
      obtain ⟨ph', hmove, hk⟩ := hp a
      rcases settleServing_put hu hk with h | ⟨rfl, h | h⟩
      · exact ⟨_, .upload hmove, h⟩
      · exact ⟨_, .uploaded hmove, h⟩
      · exact ⟨_, .uploadFailed hmove, h⟩
  | @failing b r p hp =>
    cases p with
    | done | raise => cases hnext
    | call o' k' =>
      cases hnext
      rcases settleFailing_rel (b := b) (hp.2 a) with h | h
      · exact ⟨_, .stay a hp.1, h⟩
      · exact ⟨_, .finish a hp.1, h⟩
  | closed b => cases hnext

end Local

end Retriever
