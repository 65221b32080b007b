/-
# Retriever.Server.Limits — no file grows past the limit

`_receive_upload` measures its partial, opens it later, and counts the bytes it writes from what it
has measured. The file it opens is the one it has measured as long as nobody links a file to that
path in between. Under this condition every file of the directory stays within `MAX_FILE_SIZE`
(`size_limit`); an upload whose name is the partial path of another upload that is under way breaks
it (`size_limit_broken`).
-/
import Retriever.Server.Drive
import Retriever.Server.Uploads

namespace Retriever

variable {T : Type}

/-- Every file of the directory is within the limit. -/
def SizeLimit (os : Os) : Prop :=
  ∀ n i, os.entry n = some (.file i) → (os.store.data i).length ≤ MAX_FILE_SIZE

/-- The step does not publish a file under the partial path of an upload that is under way. -/
def ProperLink (w w' : World T) : Prop :=
  ∀ e, w'.log = e :: w.log → ∀ p n, e.Links p n → n ∉ w.inFlight

/-! ## What an upload has measured -/

/-- The sizes an upload relies on. -/
def Phase.Counts (os : Os) (u : PutRequest) : Phase → Prop
  | .ready x | .granted x => x ≤ u.fileSize ∧ Sized os u.partialPath x
  | .receiving _ h w => w = (os.store.data h).length
  | .storing _ h w c => w = (os.store.data h).length ∧ w + c.length ≤ u.fileSize
  | _ => True

theorem Phase.Counts.frame {os os' : Os} {u : PutRequest} {ph : Phase} (h : ph.Counts os u)
    (hk : ph.Knows u os) (he : os'.entry u.partialPath = os.entry u.partialPath)
    (hd : ∀ i, os.entry u.partialPath = some (.file i) → os'.store.data i = os.store.data i) :
    ph.Counts os' u := by
  cases ph with
  | ready x => exact ⟨h.1, h.2.congr he hd⟩
  | granted x => exact ⟨h.1, h.2.congr he hd⟩
  | receiving x i w =>
    show w = _
    rw [hd i hk]
    exact h
  | storing x i w c =>
    refine ⟨?_, h.2⟩
    rw [hd i hk]
    exact h.1
  | _ => trivial

/-- A phase that counts on its partial holds the reservation and has not linked it. -/
theorem Phase.counts_trivial {os : Os} {u : PutRequest} {ph : Phase}
    (h : ph.holds = false ∨ ph = .linked) : ph.Counts os u := by
  rcases h with h | rfl
  · cases ph with
    | asked | turned | clear | busy | finished => trivial
    | _ => cases h
  · trivial

/-- **What is counted, one step further.** -/
theorem Phase.Move.counts {w : World T} {os' : Os} {fl : Finset Bytes} {r : Request}
    {u : PutRequest} {ph ph' : Phase} {o : Sys} {a : o.Ans} (hok : (Local.put r u ph).Ok w.os)
    (hcount : ph.Counts w.os u) (hx : w.Answers o a os' fl) (hm : ph.Move u o a ph') :
    ph'.Counts os' u := by
  obtain ⟨hu, -, hk⟩ := hok
  have hp := hu.partial_plain
  cases hm with
  | absent =>
    rw [hx.2.1]
    exact ⟨Nat.zero_le _, sized_of_none (entry_of_stat_none hp hx.1)⟩
  | fits hs =>
    rw [hx.2.1]
    exact ⟨hs, sized_of_stat hp hx.1⟩
  | drop =>
    obtain ⟨-, hos⟩ := Os.run_unlink_ok hp hx.1
    refine ⟨Nat.zero_le _, sized_of_none ?_⟩
    rw [hx.2.1, hos, Os.removeAt_entry, if_pos rfl]
  | offer x =>
    rw [hx.2.1]
    exact hcount
  | openPartial x h =>
    rcases Os.run_openAb_ok hp hx.1 with ⟨hent, hos⟩ | ⟨hent, rfl, hos⟩
    · rw [hx.2.1, hos]
      exact hcount.2.2 h hent
    · rw [hx.2.1, hos]
      show x = _
      rw [Os.createAt_data, if_pos rfl]
      exact hcount.2.1 hent
  | @receive x h w' n c hw hn hc =>
    obtain ⟨⟨c', hc', hle⟩ | ⟨e, he, -⟩, hos, -⟩ := hx
    · cases hc'
      rw [hos]
      refine ⟨hcount, ?_⟩
      omega
    · cases he
  | store x h w' c =>
    obtain ⟨hlt, hos⟩ := Os.run_write_ok hx.1
    rw [hx.2.1, hos]
    show w' + c.length = _
    rw [Os.appendTo_data, if_pos rfl, List.length_append, hcount.1]
  | _ => trivial

/-! ## The other sessions -/

section

variable {watch : Bytes → Prop} {w w' : World T} {phs : T → Local} {t : T}

/-- A step of one upload leaves the partial of another one alone, unless it links a file there. -/
theorem Change.elsewhere (hi : Inv watch w phs) (hw : ∀ p, IsPartialName p → watch p) {r : Request}
    {u : PutRequest} {ph ph' : Phase} {os' : Os} (ht : phs t = .put r u ph)
    (hc : Change u w.os ph ph' os') {t' : T} (hne : t' ≠ t) {r' : Request} {u' : PutRequest}
    {ph₁ : Phase} (ht' : phs t' = .put r' u' ph₁) (hh' : ph₁.holds = true) (hl' : ph₁ ≠ .linked)
    (hlink : ph' = .linked → u'.partialPath ≠ u.path) :
    os'.entry u'.partialPath = w.os.entry u'.partialPath ∧
      ∀ i, w.os.entry u'.partialPath = some (.file i) → os'.store.data i = w.os.store.data i := by
  have hok' := hi.ok t'
  rw [ht'] at hok'
  cases hc with
  | same ph ph' _ => exact ⟨rfl, fun _ _ => rfl⟩
  | create x he =>
    refine ⟨?_, fun i hent => ?_⟩
    · rw [Os.createAt_entry, if_neg (hi.partial_ne hne ht ht' rfl hh')]
    · rw [Os.createAt_data, if_neg (Os.entry_lt_next hent).ne]
  | @append x h n c hlt hent =>
    refine ⟨rfl, fun i hent' => ?_⟩
    rw [Os.appendTo_data, if_neg]
    -- a common file would have two names, neither of them about to go
    rintro rfl
    rcases hi.other_name hw ht rfl (by simp) hent (hw _ hok'.1.isPartialName) hent' with he | hret
    · exact hi.partial_ne hne ht ht' rfl hh' he
    · exact hi.not_retiring ht' hh' hl' hret
  | @unlink ph ph' i hent hh =>
    refine ⟨?_, fun _ _ => rfl⟩
    rw [Os.removeAt_entry, if_neg (hi.partial_ne hne ht ht' hh hh')]
  | @link i hent hs hnone =>
    refine ⟨?_, fun _ _ => by rw [Os.linkAt_data]⟩
    rw [Os.linkAt_entry hent, if_neg (hlink rfl)]

/-- A step of an upload keeps every file within the limit. -/
theorem Change.sizeLimit {os os' : Os} {u : PutRequest} {f : Frame} (hu : u.OfFrame f)
    {ph ph' : Phase} (hc : Change u os ph ph' os') (hcount : ph.Counts os u) (h : SizeLimit os) :
    SizeLimit os' := by
  intro n i hent
  cases hc with
  | same ph ph' _ => exact h n i hent
  | create x he =>
    rw [Os.createAt_data]
    split
    · exact Nat.zero_le _
    · next hi =>
      rw [Os.createAt_entry] at hent
      split at hent
      · cases hent
        exact absurd rfl hi
      · exact h n i hent
  | @append x j k c hlt hj =>
    rw [Os.appendTo_data]
    split
    · rw [List.length_append, ← hcount.1]
      exact hcount.2.trans hu.size
    · exact h n i hent
  | @unlink ph ph' j hj hh =>
    rw [Os.removeAt_entry] at hent
    split at hent
    · cases hent
    · exact h n i hent
  | @link j hj hs hnone =>
    rw [Os.linkAt_data]
    rw [Os.linkAt_entry hj] at hent
    split at hent
    · cases hent
      exact h _ _ hj
    · exact h n i hent

end

/-! ## Whole runs -/

structure LimitInv (w : World T) (phs : T → Local) : Prop where
  base : Inv IsPartialName w phs
  sizes : SizeLimit w.os
  counts : ∀ t r u ph, phs t = .put r u ph → ph.Counts w.os u

section

variable [DecidableEq T] {w w' : World T} {phs : T → Local} {t : T} {s : Session} {o : Sys}
  {a : o.Ans} {l : Local}

theorem LimitInv.step (h : LimitInv w phs) (hproper : ProperLink w w')
    (hrel : Local.Rel s (phs t)) (hx : World.Exec t s w o a w') (hm : (phs t).Move o a l) :
    LimitInv w' (Function.update phs t l) := by
  have hbase := Inv.step (fun _ h => h) w phs t s o a w' l h.base hrel hx hm
  rcases hm.effect hx.1 with ⟨hos, -, -, -, hl'⟩ | ⟨r, u, ph, ph', hl, hmove, hl'⟩
  · -- nothing changes, and a new upload has not measured anything
    refine ⟨hbase, by rw [hos]; exact h.sizes, ?_⟩
    intro t' r' u' ph₁ ht'
    rw [hos]
    by_cases he : t' = t
    · subst he
      rw [Function.update_self] at ht'
      rcases hl' with ⟨b, q, rfl⟩ | ⟨b, f, u, -, rfl, -⟩
      · cases ht'
      · cases ht'
        trivial
    · rw [Function.update_of_ne he] at ht'
      exact h.counts t' r' u' ph₁ ht'
  · have hok := h.base.ok t
    rw [hl] at hok
    have hcount := h.counts t r u ph hl
    have hc := hmove.change hok hx.1
    refine ⟨hbase, hc.sizeLimit hok.1 hcount h.sizes, ?_⟩
    intro t' r' u' ph₁ ht'
    by_cases he : t' = t
    · subst he
      rw [Function.update_self] at ht'
      rcases hl' with rfl | ⟨-, b, q, rfl⟩
      · cases ht'
        exact hmove.counts hok hcount hx.1
      · cases ht'
    · rw [Function.update_of_ne he] at ht'
      by_cases hidle : ph₁.holds = false ∨ ph₁ = .linked
      · exact Phase.counts_trivial hidle
      · have hh' : ph₁.holds = true := by simpa using fun hf => hidle (.inl hf)
        have hok' := h.base.ok t'
        rw [ht'] at hok'
        -- the path is reserved, and nobody links a file there
        have hlink : ph' = .linked → u'.partialPath ≠ u.path := by
          rintro rfl hpath
          have hmem : u'.partialPath ∈ w.inFlight :=
            h.base.leases.mem (Local.held_of_holds ht' hh')
          cases hmove
          exact hproper _ hx.2 u.partialPath u.path ⟨rfl, rfl⟩ (hpath ▸ hmem)
        obtain ⟨hent, hdata⟩ := hc.elsewhere h.base (fun _ h => h) hl he ht' hh'
          (fun hf => hidle (.inr hf)) hlink
        exact (h.counts t' r' u' ph₁ ht').frame hok'.2.2 hent hdata

end

/-- **The size limit holds as long as no file is linked to the partial path of an upload that is
under way.** In every state of every run of any number of sessions in which every link is proper, on
a directory whose files are within the limit and in which no two partial names are names of one
file, every file of the directory, partial or published, is within the limit. -/
theorem size_limit [DecidableEq T] {os : Os} (h0 : SizeLimit os) (hapart : PartialsApart os)
    {s : Server T} (hr : Server.RunBy ProperLink (Server.start T os) s) : SizeLimit s.world.os := by
  have hstart : Pool.Keeps Local.Rel LimitInv (Server.start T os) :=
    ⟨_, Local.shows_start os, Inv.start hapart, h0, by rintro t r u ph ⟨⟩⟩
  obtain ⟨phs, -, hi⟩ := Pool.inv_runBy Local.tracks
    (fun _ _ _ _ _ _ _ _ hi hproper hrel hx hm => hi.step hproper hrel hx hm) hr hstart
  exact hi.sizes

/-- The condition on a step, computed. -/
def properLink (w w' : World T) : Bool :=
  (w'.log.head?.bind Event.linked).all fun x => decide (x.2 ∉ w.inFlight)

theorem properLink_spec {w w' : World T} (h : properLink w w' = true) : ProperLink w w' := by
  intro e he p n hlink
  unfold properLink at h
  rw [he, List.head?_cons, Option.bind_some, Event.links_iff.mp hlink] at h
  exact of_decide_eq_true h

/-- Two uploads at the same time, with links that are proper. -/
theorem size_limit_twoUploads :
    twoUploads.world.os.content (ascii "a") = some [1, 2, 3] ∧ SizeLimit twoUploads.world.os := by
  have hchecked : (Server.start Bool Os.empty).playBy properLink twoInputs (alternately 24) = true := by
    decide +kernel
  refine ⟨twoUploads_done.1, ?_⟩
  refine @size_limit Bool _ Os.empty ?_ partialsApart_empty _ ?_
  · intro n i hent
    simp [Os.entry, Os.empty, Store.lookup] at hent
  · rw [twoUploads]
    exact Pool.RunBy.mono (fun _ _ h => properLink_spec h) (Server.play_runBy hchecked)

/-! ## A file past the limit -/

/-- An upload as large as the limit allows. -/
def largeUpload : PutRequest := ⟨MAX_FILE_SIZE, List.replicate HASH_SIZE 0, ['a']⟩

/-- An upload of one byte under the name of the partial of the large one. -/
def smallUpload : PutRequest := ⟨1, sha256 [0], ".a.0000000000000000.part".toList⟩

theorem smallUpload_path : smallUpload.path = largeUpload.partialPath := by decide

theorem largeUpload_accepted : Accepted largeUpload.name :=
  accepted_of_checkFilename (by decide)

theorem smallUpload_accepted : Accepted smallUpload.name :=
  accepted_of_checkFilename (by decide)

theorem largeUpload_parsed :
    parsePut (putPayload MAX_FILE_SIZE (List.replicate HASH_SIZE 0) (encode ['a'])) =
      .ok largeUpload :=
  parsePut_accepted (by decide) (by simp) largeUpload_accepted (by decide)

theorem smallUpload_parsed :
    parsePut (putPayload 1 (sha256 [0]) (encode smallUpload.name)) = .ok smallUpload :=
  parsePut_accepted (by decide) (sha256_length _) smallUpload_accepted (by decide)

theorem Os.empty_at? {p : Bytes} (h : Plain p) : Os.empty.at? p = none := by
  rw [Os.at?_plain _ h]
  simp [Os.entry, Os.empty, Store.lookup]

theorem largeUpload_partial_plain : Plain largeUpload.partialPath :=
  Plain.partialName largeUpload_accepted.encode_no_slash _

theorem smallUpload_partial_plain : Plain smallUpload.partialPath :=
  Plain.partialName smallUpload_accepted.encode_no_slash _

theorem largeUpload_admitted : largeUpload.Admitted Os.empty where
  name := by decide
  size := Nat.le_refl _
  free := by decide

theorem smallUpload_admitted : smallUpload.Admitted Os.empty where
  name := by decide
  size := by decide
  free := by rw [smallUpload_path, Os.empty_at? largeUpload_partial_plain]

theorem smallUpload_partial_length : smallUpload.partialPath.length = 47 := by
  have h := partialName_length (d := smallUpload.digest) smallUpload_accepted.encode_no_slash
    (sha256_length _)
  rw [PutRequest.partialPath, PutRequest.path, h]
  decide

theorem smallUpload_takes : smallUpload.Takes Os.empty := by
  refine ⟨by decide, ?_⟩
  show decide (smallUpload.partialPath.length ≤ 255) = true
  rw [smallUpload_partial_length]
  rfl

/-- The one byte is published under the path of the other upload's partial. -/
theorem smallUpload_publishes {m : Machine Wire} (hos : m.os = Os.empty)
    (hfl : smallUpload.partialPath ∉ m.inFlight) (hin : m.net.input = [0]) :
    ∃ m', Proc.Yields Net.wire.env
        (handlePut (putPayload 1 (sha256 [0]) (encode smallUpload.name))) m (.ok ()) m' ∧
      m'.inFlight = m.inFlight ∧ m'.os.content largeUpload.partialPath = some [0] := by
  have hkept : smallUpload.kept m.os = [] := by
    rw [PutRequest.kept, hos, Os.content, Os.empty_at? smallUpload_partial_plain]
    rfl
  have hneed : smallUpload.need m.os = 1 := by
    rw [PutRequest.need, hkept]
    rfl
  have hcomplete : smallUpload.complete m.os m.net.input = [0] := by
    rw [PutRequest.complete, hkept, hneed, hin]
    rfl
  obtain ⟨m', hy, hinFlight, -, hcontent, -, -⟩ := handlePut_stores smallUpload_parsed
    (by rw [hos]; exact smallUpload_admitted) hfl
    (by rw [hos, Os.empty_at? smallUpload_partial_plain]; simp) (by rw [hos]; exact smallUpload_takes)
    (by rw [hneed, hin]; rfl) (by rw [hcomplete]; rfl)
  rw [hcomplete, smallUpload_path] at hcontent
  exact ⟨m', hy, hinFlight, hcontent⟩

theorem smallUpload_payload_le :
    (putPayload 1 (sha256 [0]) (encode smallUpload.name)).length ≤ 64 * 1024 := by
  have hname : (encode smallUpload.name).length = 24 := by decide
  simp only [putPayload, List.length_append, toBE_length, sha256_length, hname, HASH_SIZE]
  decide

/-- The large upload goes on at the end of that file. -/
theorem largeUpload_overflows {m : Machine Wire}
    (hc : m.os.content largeUpload.partialPath = some [0])
    (hin : m.net.input = List.replicate MAX_FILE_SIZE 0) :
    ∃ p' m', Proc.Reaches Net.wire.env largeUpload.granted m p' m' ∧ ¬ SizeLimit m'.os := by
  obtain ⟨i, hent, hdata⟩ := (Os.content_eq_some largeUpload_partial_plain).mp hc
  have hat : m.os.at? largeUpload.partialPath = some (.file i) := by
    rw [Os.at?_plain _ largeUpload_partial_plain, hent]
  have hmax : 1 + MAX_FILE_SIZE < OFF_MAX := by decide
  have hopen := yields_openAb (Os.run_openAb_file hat)
  have hbody := receiveBody_yields i MAX_FILE_SIZE MAX_FILE_SIZE 0 m (by omega)
    (by rw [hdata]; exact hmax)
  have hreach := ((((hopen.reaches Net.wire_live).bind fun out =>
    receiveBody out MAX_FILE_SIZE MAX_FILE_SIZE 0 >>= fun _ => settleUpload largeUpload.path
      largeUpload.partialPath largeUpload.digest).trans
    ((hbody.reaches Net.wire_live).bind _))).ensure (Py.discard largeUpload.partialPath)
  refine ⟨_, _, hreach, fun hlimit => ?_⟩
  have htake : (m.net.input.take (MAX_FILE_SIZE - 0)).length = MAX_FILE_SIZE := by
    rw [hin, List.length_take, List.length_replicate]
    omega
  have hgrown : (m.absorb i (MAX_FILE_SIZE - 0)).os.store.data i =
      [0] ++ m.net.input.take (MAX_FILE_SIZE - 0) := by
    rw [Machine.absorb, Os.extend_data (by rw [hdata, htake]; exact hmax), hdata]
  have hent' : (m.absorb i (MAX_FILE_SIZE - 0)).os.entry largeUpload.partialPath =
      some (.file i) := by
    rw [Os.entry, ← Os.slot_entry]
    show (m.os.extend i _).slot ((m.os.extend i _).cwd ++ [largeUpload.partialPath]) = _
    rw [Os.extend_slot, Os.extend_cwd, Os.slot_entry]
    exact hent
  have hle := hlimit _ i hent'
  rw [hgrown, List.length_append, htake] at hle
  exact absurd hle (by decide)

/-- **The limit can be broken.** An upload as large as the limit allows is let in and offered to
start from nothing; before it opens its partial, one byte is published under that path. -/
theorem size_limit_broken :
    ¬ ∀ (os : Os) (s : Server Bool), SizeLimit os → Server.Run (Server.start Bool os) s →
      SizeLimit s.world.os := by
  intro hall
  -- the large upload is answered
  obtain ⟨s₁, hrun₁, hthreads₁, hmatch₁⟩ := Server.drive_request (T := Bool) (t := false)
    (s := Server.start Bool Os.empty)
    (m := ⟨Os.empty, ∅, ⟨frameBytes T_HELLO [] ++ (frameBytes T_PUT
      (putPayload MAX_FILE_SIZE (List.replicate HASH_SIZE 0) (encode ['a'])) ++
        List.replicate MAX_FILE_SIZE 0), []⟩⟩) rfl ⟨rfl, rfl⟩ rfl rfl (by decide)
  obtain ⟨s₂, hrun₂, hthreads₂, hmatch₂⟩ := Server.drive (t := false) (Server.settles_serving _)
    ((handlePut_grants largeUpload_parsed largeUpload_admitted (Finset.notMem_empty _)
      (Os.empty_at? largeUpload_partial_plain)).bind _) (by rw [hthreads₁, Function.update_self]; rfl)
    hmatch₁
  -- the small one is published
  have hidle : s₂.threads true = .accepted := by
    rw [hthreads₂, hthreads₁, Function.update_idem, Function.update_of_ne (by decide)]
    rfl
  obtain ⟨s₃, hrun₃, hthreads₃, hmatch₃⟩ := Server.drive_request (m := ⟨Os.empty,
    insert largeUpload.partialPath ∅, ⟨frameBytes T_HELLO [] ++ (frameBytes T_PUT
      (putPayload 1 (sha256 [0]) (encode smallUpload.name)) ++ [0]), []⟩⟩) hidle hmatch₂ rfl rfl
    smallUpload_payload_le
  have hapart : smallUpload.partialPath ∉ (insert largeUpload.partialPath ∅ : Finset Bytes) := by
    intro hmem
    have hlen := congrArg List.length (show smallUpload.partialPath = largeUpload.partialPath by
      simpa using hmem)
    rw [smallUpload_partial_length] at hlen
    exact absurd hlen (by decide)
  obtain ⟨m', hput, hinFlight, hcontent⟩ := smallUpload_publishes
    (m := ⟨Os.empty, insert largeUpload.partialPath ∅, ⟨[0], [] ++ okFrame⟩⟩) rfl hapart rfl
  obtain ⟨s₄, hrun₄, hthreads₄, hmatch₄⟩ := Server.drive (t := true) (Server.settles_serving _)
    ((hput.reaches Net.wire_live).bind _) (by rw [hthreads₃, Function.update_self]; rfl) hmatch₃
  -- the large one goes on
  have hwaiting : s₄.threads false = Session.settleServing (0, ⟨T_PUT, putPayload MAX_FILE_SIZE
      (List.replicate HASH_SIZE 0) (encode ['a'])⟩) (largeUpload.granted >>= fun _ => pure true) := by
    rw [hthreads₄, hthreads₃, Function.update_idem, Function.update_of_ne (by decide), hthreads₂,
      Function.update_self]
  obtain ⟨p', m'', hreach, hover⟩ := largeUpload_overflows
    (m := ⟨m'.os, m'.inFlight, ⟨List.replicate MAX_FILE_SIZE 0, []⟩⟩) hcontent rfl
  obtain ⟨s₅, hrun₅, -, hmatch₅⟩ := Server.drive (Server.settles_serving _) (hreach.bind _)
    hwaiting hmatch₄
  apply hover
  rw [← hmatch₅.1]
  refine hall Os.empty s₅ ?_ (hrun₁.trans (hrun₂.trans (hrun₃.trans (hrun₄.trans hrun₅))))
  intro n i hent
  simp [Os.entry, Os.empty, Store.lookup] at hent

end Retriever
