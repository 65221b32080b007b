/-
# Retriever.Server.Listing — what LIST shows

Every entry of a directory the server has filled is made of printable ASCII characters, so the
listing can be encoded, its names hold no separator, and both clients read back what `handle_list`
has joined. But the writer puts the whole listing into one frame, and the readers refuse a payload
of more than 64 KiB: LIST works exactly as long as the names, with their separators, are not more
than that (`list_works_iff`).
-/
import Mathlib.Algebra.Order.BigOperators.Group.List
import Retriever.CClient.Main
import Retriever.Client
import Retriever.Server.Drive
import Retriever.Server.Publication

namespace Retriever

open Proc (Yields)

/-! ## Names that can be listed -/

/-- Printable ASCII, and not empty. -/
structure Listable (n : Bytes) : Prop where
  ne_nil : n ≠ []
  printable : ∀ b ∈ n, 32 ≤ b.toNat ∧ b.toNat < 127

namespace Listable

variable {n : Bytes}

theorem no_nul (h : Listable n) : 0 ∉ n := by
  intro h0
  have := (h.printable 0 h0).1
  simp at this

theorem lt_128 (h : Listable n) : ∀ b ∈ n, b.toNat < 128 := fun b hb =>
  Nat.lt_succ_of_lt (h.printable b hb).2

theorem encodePath_eq (h : Listable n) : encodePath n = .ok n := by
  unfold encodePath
  rw [utf8Decode_ascii h.lt_128, if_pos]
  rw [List.all_map, List.all_eq_true]
  intro b _
  rfl

/-- The text of a name. -/
def text (n : Bytes) : Text := n.map fun b => Char.ofNat b.toNat

theorem decodeStrict_eq (h : Listable n) : decodeStrict n = .ok (text n) := by
  unfold decodeStrict text
  rw [utf8Decode_ascii h.lt_128]
  clear h
  induction n with
  | nil => rfl
  | cons b n ih =>
    rw [List.map_cons, List.mapM_cons, ih]
    rfl

theorem encode_text (h : Listable n) : encode (text n) = n := by
  have hchar : ∀ b ∈ n, (Char.ofNat b.toNat).toNat = b.toNat := by
    intro b hb
    have key : ∀ a < 128, (Char.ofNat a).toNat = a := by decide
    exact key _ (h.lt_128 b hb)
  rw [encode_ascii]
  · rw [text, List.map_map]
    refine (List.map_congr_left fun b hb => ?_).trans (List.map_id n)
    show UInt8.ofNat (Char.ofNat b.toNat).toNat = b
    rw [hchar b hb]
    exact UInt8.ofNat_toNat
  · intro c hc
    obtain ⟨b, hb, rfl⟩ := List.mem_map.mp hc
    rw [hchar b hb]
    exact h.lt_128 b hb

end Listable

theorem Accepted.listable {t : Text} (h : Accepted t) : Listable (encode t) where
  ne_nil := h.encode_ne_nil
  printable := by
    intro b hb
    rw [h.encode_eq] at hb
    obtain ⟨c, hc, rfl⟩ := List.mem_map.mp hb
    rw [h.toNat_ofNat hc]
    exact h.printable c hc

theorem hexDigit_printable {n : Nat} (h : n < 16) :
    32 ≤ (hexDigit n).toNat ∧ (hexDigit n).toNat < 127 := by
  have key : ∀ a < 16, 32 ≤ (hexDigit a).toNat ∧ (hexDigit a).toNat < 127 := by decide
  exact key n h

theorem hex_printable (bs : Bytes) : ∀ b ∈ hex bs, 32 ≤ b.toNat ∧ b.toNat < 127 := by
  intro b hb
  obtain ⟨x, -, hx⟩ := List.mem_flatMap.mp hb
  have hlt := x.toNat_lt
  simp only [List.mem_cons, List.not_mem_nil, or_false] at hx
  rcases hx with rfl | rfl
  · exact hexDigit_printable (by omega)
  · exact hexDigit_printable (by omega)

theorem Listable.partialName {n : Bytes} (h : Listable n) (hs : Os.SLASH ∉ n) (d : Bytes) :
    Listable (partialName n d) where
  ne_nil := (Plain.partialName hs d).ne_nil
  printable := by
    intro b hb
    rw [partialName_plain hs, partialBase, ascii_part] at hb
    simp only [List.mem_append, List.mem_singleton] at hb
    rcases hb with (((rfl | hb) | rfl) | hb) | hb
    · decide
    · exact h.printable b hb
    · decide
    · exact hex_printable _ b hb
    · simp only [List.mem_cons, List.not_mem_nil, or_false] at hb
      obtain rfl | rfl | rfl | rfl | rfl := hb <;> decide

/-! ## What the clients make of a payload -/

/-- The loop of the C client, with the name `cur` read so far: the pieces between the zero bytes that
are not empty. -/
theorem C.listNames_from (done cur rest : Bytes) (hcur : 0 ∉ cur) :
    C.listNames (done ++ cur ++ rest) done.length
        (List.range' (done.length + cur.length) (rest.length + 1)) =
      ((cur ++ rest).splitOn 0).filter (· ≠ []) := by
  induction rest generalizing done cur with
  | nil =>
    simp only [List.append_nil, List.length_nil, Nat.zero_add, List.range'_one, C.listNames,
      List.length_append, true_or, if_true]
    rw [List.splitOn_eq_singleton hcur, List.drop_left, Nat.add_sub_cancel_left, List.take_length]
    cases cur with
    | nil => simp
    | cons b cur => simp
  | cons b rest ih =>
    rw [List.length_cons, List.range'_succ, C.listNames]
    have hlt : done.length + cur.length ≠ (done ++ cur ++ b :: rest).length := by simp
    have hat : (done ++ cur ++ b :: rest).getD (done.length + cur.length) 0 = b := by
      rw [← List.length_append]
      simp
    by_cases hb : b = 0
    · -- a name ends here
      subst hb
      have hnext := ih (done ++ cur ++ [0]) [] (by simp)
      simp only [List.append_nil, List.length_append, List.length_cons, List.length_nil,
        Nat.zero_add, Nat.add_zero, List.append_assoc, List.cons_append, List.nil_append] at hnext
      rw [if_pos (.inr hat), List.splitOn_append_cons_self_of_not_mem hcur, List.append_assoc,
        List.drop_left, Nat.add_sub_cancel_left, List.take_left, Nat.add_assoc, hnext]
      cases cur with
      | nil => simp
      | cons c cur => simp
    · have hnext := ih done (cur ++ [b]) (by simp [hcur, Ne.symm hb])
      simp only [List.append_assoc, List.cons_append, List.nil_append, List.length_append,
        List.length_cons, List.length_nil, Nat.zero_add] at hnext
      rw [if_neg (by rw [hat]; exact not_or.mpr ⟨hlt, hb⟩), List.append_assoc, Nat.add_assoc, hnext]

/-- Both clients cut a payload into the same names. -/
theorem C.listNames_eq (payload : Bytes) :
    C.listNames payload 0 (List.range (payload.length + 1)) =
      (payload.splitOn 0).filter (· ≠ []) := by
  rw [List.range_eq_range']
  exact C.listNames_from [] [] payload (by simp)

/-- The names that were joined come back. -/
theorem splitOn_joinNul_of_no_nul {ns : List Bytes} (h : ∀ n ∈ ns, n ≠ [] ∧ 0 ∉ n) :
    ((joinNul ns).splitOn 0).filter (· ≠ []) = ns := by
  cases ns with
  | nil => rfl
  | cons n ns =>
    rw [joinNul, List.splitOn_intercalate 0 (fun n hn => (h n hn).2) (by simp)]
    exact List.filter_eq_self.mpr fun n hn => by simpa using (h n hn).1

theorem splitOn_joinNul {ns : List Bytes} (h : ∀ n ∈ ns, Listable n) :
    ((joinNul ns).splitOn 0).filter (· ≠ []) = ns :=
  splitOn_joinNul_of_no_nul fun n hn => ⟨(h n hn).ne_nil, (h n hn).no_nul⟩

/-- Every name takes its length and one byte more, the last one its length. -/
theorem joinNul_length (ns : List Bytes) :
    (joinNul ns).length = (ns.map fun n => n.length + 1).sum - 1 := by
  unfold joinNul
  induction ns with
  | nil => rfl
  | cons n ns ih =>
    cases ns with
    | nil => simp
    | cons n' ns =>
      rw [List.intercalate_cons_cons]
      simp only [List.length_append, ih, List.map_cons, List.sum_cons, List.length_cons,
        List.length_nil]
      omega

/-! ## The reply -/

namespace Os

variable (os : Os)

theorem mem_entries {n : Bytes} : n ∈ os.entries os.cwd ↔ os.entry n ≠ none := os.mem_entries_at

end Os

theorem mapM_eq_ok {α β : Type} {f : α → Except Exn β} {g : α → β} {xs : List α}
    (h : ∀ x ∈ xs, f x = .ok (g x)) : xs.mapM f = .ok (xs.map g) := by
  induction xs with
  | nil => rfl
  | cons x xs ih =>
    rw [List.mapM_cons, h x (by simp), ih fun x' hx' => h x' (by simp [hx'])]
    rfl

/-- What `handle_list` sends on a directory. -/
def WritesListing (os : Os) (b : Bytes) : Prop :=
  ∀ inFlight net, Yields Net.wire.env handleList ⟨os, inFlight, net⟩ (.ok ())
    ⟨os, inFlight, ⟨net.input, net.output ++ b⟩⟩

/-- The names `do_list` prints when a reply comes. -/
def Lists (b : Bytes) (names : List Text) : Prop :=
  ∀ (m : Machine Wire) (rest : Bytes), m.net.input = b ++ rest →
    Yields Net.wire.env doList m (.ok names)
      (m.wired rest (m.net.output ++ frameBytes T_LIST []))

/-- The names the `do_list` of the C client prints when a reply comes. -/
def C.Lists (b : Bytes) (names : List Bytes) : Prop :=
  ∀ (m : Machine Wire) (rest : Bytes), m.net.input = b ++ rest →
    Yields Net.wire.env C.doList m (.ok (some names))
      (m.wired rest (m.net.output ++ frameBytes T_LIST []))

/-- The names are the entries of the directory, each once. -/
def Os.Enumerates (os : Os) (names : List Bytes) : Prop :=
  names.Nodup ∧ ∀ n, n ∈ names ↔ os.entry n ≠ none

/-- **LIST works on a directory**: there is a reply, and both clients read the entries of the
directory from it. -/
def ListWorks (os : Os) : Prop :=
  ∃ b, WritesListing os b ∧
    (∃ names, Lists b names ∧ os.Enumerates (names.map encode)) ∧
    ∃ names, C.Lists b names ∧ os.Enumerates names

theorem handleList_of_writeFrame {m m' : Machine Wire} {r : Except Exn Unit}
    (h : ∀ n ∈ m.os.entries m.os.cwd, encodePath n = .ok n)
    (hw : Yields Net.wire.env (writeFrame T_OK (joinNul (m.os.entries m.os.cwd))) m r m') :
    Yields Net.wire.env handleList m r m' := by
  have hlist : Yields Net.wire.env (Py.listdir [Os.DOT]) m (.ok (m.os.entries m.os.cwd)) m := by
    refine Py.wp_listdir.mpr ((Net.call_looks (.listdir _)).mpr ?_)
    simp only [Os.run, Os.locate_dot, Os.isDir_cwd, if_true]
    exact ⟨rfl, rfl⟩
  have henc : (m.os.entries m.os.cwd).mapM encodePath = .ok (m.os.entries m.os.cwd) := by
    rw [mapM_eq_ok (g := id) h, List.map_id]
  unfold handleList
  apply hlist.bind
  rw [henc]
  exact (Proc.yields_done _ _).bind hw

theorem writeFrame_overflows {t : UInt8} {p : Bytes} (h : 256 ^ 8 ≤ p.length) (m : Machine Wire) :
    Yields Net.wire.env (writeFrame t p) m (.error .overflowError) m := by
  unfold writeFrame
  simp only [frameHeader, toBytes, if_neg (Nat.not_lt.mpr h)]
  exact Proc.yields_raise _ _

/-- There is a reply unless its length does not fit into the header. -/
theorem writesListing_iff {os : Os} (h : ∀ n ∈ os.entries os.cwd, encodePath n = .ok n) {b : Bytes} :
    WritesListing os b ↔ (joinNul (os.entries os.cwd)).length < 256 ^ 8 ∧
      b = frameBytes T_OK (joinNul (os.entries os.cwd)) := by
  constructor
  · intro hb
    obtain ⟨r, m', hrun⟩ := Proc.exists_runs Net.wire_live handleList ⟨os, ∅, ⟨[], []⟩⟩
    obtain ⟨rfl, rfl⟩ := (hb ∅ ⟨[], []⟩).unique hrun
    by_cases hlt : (joinNul (os.entries os.cwd)).length < 256 ^ 8
    · have hy := handleList_of_writeFrame (m := ⟨os, ∅, ⟨[], []⟩⟩) h (yields_writeFrame hlt _)
      have hnet := congrArg (fun m => m.net.output) (hy.unique hrun).2
      exact ⟨hlt, by simpa [Machine.wired] using hnet⟩
    · have hraise := handleList_of_writeFrame (m := ⟨os, ∅, ⟨[], []⟩⟩) h
        (writeFrame_overflows (Nat.le_of_not_lt hlt) _)
      cases (hraise.unique hrun).1
  · rintro ⟨hlt, rfl⟩ inFlight net
    exact handleList_of_writeFrame (m := ⟨os, inFlight, net⟩) h (yields_writeFrame hlt _)

/-- A payload within the cap is read by the Python client. -/
theorem lists_of_le {ns : List Bytes} (h : ∀ n ∈ ns, Listable n)
    (hle : (joinNul ns).length ≤ 64 * 1024) :
    Lists (frameBytes T_OK (joinNul ns)) (sortNames (ns.map Listable.text)) := by
  intro m rest hin
  have hdecode : ns.mapM decodeStrict = .ok (ns.map Listable.text) :=
    mapM_eq_ok fun n hn => (h n hn).decodeStrict_eq
  have hread := readFrame_yields (m := m) m.net.input (m.net.output ++ frameBytes T_LIST [])
  rw [hin, scanFrame_frameBytes rest rfl hle] at hread
  unfold doList
  apply (yields_writeFrame (by decide) m).bind
  rw [hin]
  apply hread.bind
  rw [if_neg (show T_OK ≠ T_ERROR by decide), splitOn_joinNul h, hdecode]
  exact Proc.yields_done _ _

/-- The C client reads the same names. -/
theorem C.lists_of_le {ns : List Bytes} (h : ∀ n ∈ ns, Listable n)
    (hle : (joinNul ns).length ≤ 64 * 1024) : C.Lists (frameBytes T_OK (joinNul ns)) ns := by
  intro m rest hin
  have hread : Yields Net.wire.env C.readFrame
      (m.wired (frameBytes T_OK (joinNul ns) ++ rest) (m.net.output ++ frameBytes T_LIST []))
      (.ok (some ⟨T_OK, joinNul ns⟩)) (m.wired rest (m.net.output ++ frameBytes T_LIST [])) :=
    C.readFrame_yields (scanFrame_frameBytes rest rfl hle) m
  unfold C.doList
  apply (C.writeFrame_yields _ _ m).bind
  rw [if_neg (by decide), hin]
  apply hread.bind
  show Yields _ (if T_OK = T_ERROR then _ else if T_OK ≠ T_OK then _ else _) _ _ _
  rw [if_neg (by decide), if_neg (by decide), C.listNames_eq, splitOn_joinNul h]
  exact Proc.yields_done _ _

/-- A payload above the cap is not. -/
theorem le_of_lists {p : Bytes} {names : List Text} (hp : p.length < 256 ^ 8)
    (h : Lists (frameBytes T_OK p) names) : p.length ≤ 64 * 1024 := by
  have hread := readFrame_yields (m := Machine.idle) (frameBytes T_OK p) (frameBytes T_LIST [])
  obtain ⟨r, m', hrun⟩ := Proc.exists_runs Net.wire_live doList (Machine.idle.wired (frameBytes T_OK p) [])
  have hok := ((h (Machine.idle.wired (frameBytes T_OK p) []) [] (by simp [Machine.wired])).unique
    hrun).1
  cases hscan : scanFrame (frameBytes T_OK p) with
  | mk x rest =>
    rw [hscan] at hread
    cases x with
    | error e =>
      have hfail : Yields Net.wire.env doList (Machine.idle.wired (frameBytes T_OK p) []) (.error e)
          (Machine.idle.wired rest (frameBytes T_LIST [])) := by
        unfold doList
        exact (yields_writeFrame (by decide) _).bind hread.bind_error
      cases hok.symm.trans (hfail.unique hrun).1
    | ok f =>
      obtain ⟨hs, cap, hcap, hle⟩ := scanFrame_eq_ok.mp hscan
      have hlt := payloadCaps_lt (t := f.type)
      rw [hcap] at hlt
      obtain ⟨ht, hpay, -⟩ := frameBytes_append_inj (r := []) hp (lt_of_le_of_lt hle hlt)
        (by rw [List.append_nil]; exact hs)
      rw [← ht] at hcap
      cases hcap
      rw [hpay]
      exact hle

theorem sortNames_perm (names : List Text) : (sortNames names).Perm names :=
  List.mergeSort_perm _ _

theorem Os.enumerates_of_perm {os : Os} {names : List Bytes} (h : names.Perm (os.entries os.cwd)) :
    os.Enumerates names :=
  ⟨h.nodup_iff.mpr os.entries_nodup, fun _ => h.mem_iff.trans os.mem_entries⟩

/-- Every entry can be listed. -/
def AllListable (os : Os) : Prop := ∀ n, os.entry n ≠ none → Listable n

/-- LIST on a directory whose entries can be listed. -/
theorem listWorks_iff {os : Os} (h : AllListable os) :
    ListWorks os ↔ ((os.entries os.cwd).map fun n => n.length + 1).sum ≤ 64 * 1024 + 1 := by
  have hl : ∀ n ∈ os.entries os.cwd, Listable n := fun n hn => h n (os.mem_entries.mp hn)
  have henc : ∀ n ∈ os.entries os.cwd, encodePath n = .ok n := fun n hn => (hl n hn).encodePath_eq
  have hlen := joinNul_length (os.entries os.cwd)
  constructor
  · rintro ⟨b, hb, ⟨names, hnames, -⟩, -⟩
    obtain ⟨hlt, rfl⟩ := (writesListing_iff henc).mp hb
    have hle := le_of_lists hlt hnames
    omega
  · intro hle
    have hcap : (joinNul (os.entries os.cwd)).length ≤ 64 * 1024 := by omega
    have hsmall : 64 * 1024 < 256 ^ 8 := by decide
    refine ⟨_, (writesListing_iff henc).mpr ⟨lt_of_le_of_lt hcap hsmall, rfl⟩,
      ⟨_, lists_of_le hl hcap, ?_⟩, _, C.lists_of_le hl hcap, os.enumerates_of_perm (.refl _)⟩
    apply os.enumerates_of_perm
    have hback : ((os.entries os.cwd).map Listable.text).map encode = os.entries os.cwd := by
      rw [List.map_map]
      exact (List.map_congr_left fun n hn => (hl n hn).encode_text).trans (List.map_id _)
    exact ((sortNames_perm _).map encode).trans (.of_eq hback)

/-! ## Directories the server gets into -/

/-- A step of an upload adds its partial or its name. -/
theorem Change.allListable {os os' : Os} {u : PutRequest} {f : Frame} (hu : u.OfFrame f)
    {ph ph' : Phase} (hc : Change u os ph ph' os') (h : AllListable os) : AllListable os' := by
  have hpart : Listable u.partialPath :=
    hu.accepted.listable.partialName hu.accepted.encode_no_slash _
  intro n hent
  cases hc with
  | same ph ph' _ => exact h n hent
  | create x he =>
    rw [Os.createAt_entry] at hent
    split at hent
    · next hn =>
      rw [hn]
      exact hpart
    · exact h n hent
  | append hlt hj => exact h n hent
  | unlink hj hh =>
    rw [Os.removeAt_entry] at hent
    split at hent
    · exact absurd rfl hent
    · exact h n hent
  | link hj hs hnone =>
    rw [Os.linkAt_entry hj] at hent
    split at hent
    · next hn =>
      rw [hn]
      exact hu.accepted.listable
    · exact h n hent

theorem Server.Run.allListable {T : Type} [DecidableEq T] {os : Os} (h0 : ∀ n, os.entry n = none)
    {s : Server T} (hr : Server.Run (Server.start T os) s) : AllListable s.world.os := by
  have hstart : Pool.Keeps Local.Rel
      (fun (w : World T) phs => Inv IsPartialName w phs ∧ AllListable w.os) (Server.start T os) := by
    refine ⟨_, Local.shows_start os, Inv.start ?_, fun n hn => absurd (h0 n) hn⟩
    intro k k' i _ _ he
    rw [h0] at he
    cases he
  obtain ⟨phs, -, -, hl⟩ := Pool.inv_run Local.tracks (fun w phs t l o a w' ph' hi hrel hx hm => by
    refine ⟨Inv.step (fun _ h => h) w phs t l o a w' ph' hi.1 hrel hx hm, ?_⟩
    rcases hm.effect hx.1 with ⟨hos, -⟩ | ⟨r, u, ph, ph', hl, hmove, -⟩
    · rw [hos]
      exact hi.2
    · have hok := hi.1.ok t
      rw [hl] at hok
      exact (hmove.change hok hx.1).allListable hok.1 hi.2) hr hstart
  exact hl

/-- **LIST works exactly as long as the listing fits into a frame the clients accept.** In every
state of every run of any number of sessions on a directory that was empty: LIST works if and only
if the names of the entries, each with one byte more, take up at most 64 KiB and one byte. -/
theorem list_works_iff {T : Type} [DecidableEq T] {os : Os} (h0 : ∀ n, os.entry n = none)
    {s : Server T} (hr : Server.Run (Server.start T os) s) : ListWorks s.world.os ↔
      ((s.world.os.entries s.world.os.cwd).map fun n => n.length + 1).sum ≤ 64 * 1024 + 1 :=
  listWorks_iff (Server.Run.allListable h0 hr)

theorem Os.empty_entry (n : Bytes) : Os.empty.entry n = none := by
  simp [Os.entry, Os.empty, Store.lookup]

/-- After two uploads at the same time LIST works, with two names of one letter. -/
theorem list_works_iff_twoUploads :
    twoUploads.world.os.entries twoUploads.world.os.cwd = [ascii "b", ascii "a"] ∧
      ListWorks twoUploads.world.os := by
  have hentries := twoUploads_done.2.2.1
  refine ⟨hentries, (list_works_iff Os.empty_entry twoUploads_run).mpr ?_⟩
  rw [hentries]
  decide

/-! ## A directory LIST does not work on -/

/-- An upload that leaves a partial with a name of 255 bytes behind, a different one for every `k`. -/
@[irreducible] def litter (k : Nat) : PutRequest :=
  ⟨1, toBE 8 k ++ List.replicate 24 0, List.replicate 232 'a'⟩

theorem litter_size (k : Nat) : (litter k).fileSize = 1 := by
  unfold litter
  rfl

theorem litter_digest (k : Nat) : (litter k).digest = toBE 8 k ++ List.replicate 24 0 := by
  unfold litter
  rfl

theorem litter_name (k : Nat) : (litter k).name = List.replicate 232 'a' := by
  unfold litter
  rfl

theorem litter_digest_length (k : Nat) : (litter k).digest.length = HASH_SIZE := by
  simp [litter_digest, HASH_SIZE]

theorem litter_checked (k : Nat) : checkFilename (litter k).name = true := by
  rw [litter_name]
  decide +kernel

theorem litter_accepted (k : Nat) : Accepted (litter k).name :=
  accepted_of_checkFilename (litter_checked k)

theorem litter_path_length (k : Nat) : (litter k).path.length = 232 := by
  rw [PutRequest.path, (litter_accepted k).encode_eq, List.length_map, litter_name]
  exact List.length_replicate

theorem litter_path_plain (k : Nat) : Plain (litter k).path := by
  rcases (litter_accepted k).plain_or_dot with hp | hdot
  · exact hp
  · have hlen := litter_path_length k
    rw [PutRequest.path, hdot] at hlen
    cases hlen

theorem litter_partial_length (k : Nat) : (litter k).partialPath.length = 255 := by
  have hlen := partialName_length (litter_accepted k).encode_no_slash (litter_digest_length k)
  exact hlen.trans (congrArg (· + 23) (litter_path_length k))

theorem litter_partial_plain (k : Nat) : Plain (litter k).partialPath :=
  Plain.partialName (litter_accepted k).encode_no_slash _

theorem litter_partial_inj {j k : Nat} (hj : j < 256 ^ 8) (hk : k < 256 ^ 8)
    (h : (litter j).partialPath = (litter k).partialPath) : j = k := by
  have hd := (partialName_inj (litter_accepted j).encode_no_slash
    (litter_accepted k).encode_no_slash (litter_digest_length j) (litter_digest_length k) h).2
  have hfront : ∀ x, (litter x).digest.take TOKEN_SIZE = toBE 8 x := by
    intro x
    rw [litter_digest]
    exact List.take_left' (toBE_length 8 x)
  rw [hfront, hfront] at hd
  exact toBE_inj hj hk hd

/-- The first `k` clients have left their partials behind. -/
structure Littered (k : Nat) (s : Server Nat) : Prop where
  idle : ∀ t, k ≤ t → s.threads t = .accepted
  inFlight : s.world.inFlight = ∅
  accepts : s.world.os.accepts = Os.empty.accepts
  absent : ∀ j, s.world.os.entry (litter j).path = none
  fresh : ∀ j, k ≤ j → j < 256 ^ 8 → s.world.os.entry (litter j).partialPath = none
  left : ∀ j < k, s.world.os.entry (litter j).partialPath ≠ none

theorem litter_parsed (k : Nat) :
    parsePut (putPayload (litter k).fileSize (litter k).digest (encode (litter k).name)) =
      .ok (litter k) := by
  have hlen : (encode (litter k).name).length = 232 := litter_path_length k
  exact parsePut_accepted (by rw [litter_size]; decide) (litter_digest_length k)
    (litter_accepted k) (by rw [hlen]; decide)

theorem litter_payload_le (k : Nat) :
    (putPayload (litter k).fileSize (litter k).digest (encode (litter k).name)).length ≤ 64 * 1024 := by
  have hname : (encode (litter k).name).length = 232 := litter_path_length k
  simp only [putPayload, List.length_append, toBE_length, litter_digest_length, hname, HASH_SIZE]
  decide

theorem Littered.admitted {k : Nat} {s : Server Nat} (h : Littered k s) :
    (litter k).Admitted s.world.os where
  name := litter_checked k
  size := by
    rw [litter_size]
    decide
  free := by
    rw [Os.at?_plain _ (litter_path_plain k)]
    exact h.absent k

theorem Littered.takes {k : Nat} {s : Server Nat} (h : Littered k s) :
    (litter k).Takes s.world.os := by
  rw [PutRequest.Takes, h.accepts]
  constructor
  · show decide ((litter k).path.length ≤ 255) = true
    rw [litter_path_length]
    rfl
  · show decide ((litter k).partialPath.length ≤ 255) = true
    rw [litter_partial_length]
    rfl

/-- One more client greets, asks for its upload and goes away. -/
theorem Littered.step {k : Nat} (hk : k < 256 ^ 8) {s : Server Nat} (h : Littered k s) :
    ∃ s', Server.Run s s' ∧ Littered (k + 1) s' := by
  have hnone := h.fresh k (Nat.le_refl k) hk
  obtain ⟨s₁, hrun₁, hthreads₁, hmatch₁⟩ := Server.drive_request (t := k)
    (m := ⟨s.world.os, ∅, ⟨frameBytes T_HELLO [] ++ (frameBytes T_PUT
      (putPayload (litter k).fileSize (litter k).digest (encode (litter k).name)) ++ []), []⟩⟩)
    (h.idle k (Nat.le_refl k)) ⟨rfl, h.inFlight⟩ rfl rfl (litter_payload_le k)
  have hat : s.world.os.at? (litter k).partialPath = none := by
    rw [Os.at?_plain _ (litter_partial_plain k), hnone]
  obtain ⟨r, m', hy, hfl, hframe, hup⟩ := handlePut_admitted (litter_parsed k)
    (m := ⟨s.world.os, ∅, ⟨[], [] ++ okFrame⟩⟩) h.admitted (Finset.notMem_empty _)
    (by rw [hat]; simp) h.takes
  have hkept : (litter k).kept s.world.os = [] := by
    rw [PutRequest.kept, Os.content, hat]
    rfl
  have hneed : (litter k).need s.world.os = 1 := by
    rw [PutRequest.need, hkept, litter_size]
    rfl
  unfold PutRequest.Uploads at hup
  rw [hneed, if_pos (show ([] : Bytes).length < 1 by decide)] at hup
  obtain ⟨rfl, hpath, hcontent, -⟩ := hup
  obtain ⟨s₂, hrun₂, hthreads₂, hmatch₂⟩ := Server.drive (t := k) (Server.settles_serving _)
    ((hy.reaches Net.wire_live).bind _) (by rw [hthreads₁, Function.update_self]; rfl) hmatch₁
  -- nothing but the one partial is new
  have hother : ∀ n, n ≠ (litter k).path → n ≠ (litter k).partialPath →
      m'.os.entry n = s.world.os.entry n := by
    intro n hne hne'
    refine hframe.entry fun hp => ?_
    rcases hp with hp | hp
    · exact hne (by simpa using hp)
    · exact hne' (by simpa using hp)
  have hpath' : ∀ j, (litter j).path = (litter k).path := by
    intro j
    rw [PutRequest.path, PutRequest.path, litter_name, litter_name]
  have hdiff : ∀ j < 256 ^ 8, j ≠ k →
      m'.os.entry (litter j).partialPath = s.world.os.entry (litter j).partialPath := by
    intro j hj hne
    refine hother _ (fun he => ?_) fun he => hne (litter_partial_inj hj hk he)
    have hlen := congrArg List.length he
    rw [litter_path_length, litter_partial_length] at hlen
    cases hlen
  refine ⟨s₂, hrun₁.trans hrun₂, ⟨?_, ?_, ?_, ?_, ?_, ?_⟩⟩
  · intro t ht
    rw [hthreads₂, Function.update_of_ne (by omega), hthreads₁, Function.update_of_ne (by omega)]
    exact h.idle t (by omega)
  · rw [hmatch₂.2, hfl]
  · rw [hmatch₂.1, hframe.accepts]
    exact h.accepts
  · intro j
    rw [hmatch₂.1, hpath' j, ← Os.at?_plain _ (litter_path_plain k)]
    exact hpath
  · intro j hj hlt
    rw [hmatch₂.1, hdiff j hlt (by omega)]
    exact h.fresh j (by omega) hlt
  · intro j hj
    rw [hmatch₂.1]
    by_cases he : j = k
    · subst he
      obtain ⟨i, hi, -⟩ := (Os.content_eq_some (litter_partial_plain j)).mp hcontent
      rw [hi]
      simp
    · rw [hdiff j (by omega) he]
      exact h.left j (by omega)

theorem Littered.start : Littered 0 (Server.start Nat Os.empty) where
  idle _ _ := rfl
  inFlight := rfl
  accepts := rfl
  absent _ := Os.empty_entry _
  fresh _ _ _ := Os.empty_entry _
  left j hj := absurd hj (Nat.not_lt_zero j)

theorem exists_littered {k : Nat} (hk : k < 256 ^ 8) :
    ∃ s, Server.Run (Server.start Nat Os.empty) s ∧ Littered k s := by
  induction k with
  | zero => exact ⟨_, .refl, Littered.start⟩
  | succ k ih =>
    obtain ⟨s, hrun, hs⟩ := ih (by omega)
    obtain ⟨s', hrun', hs'⟩ := hs.step (by omega)
    exact ⟨s', hrun.trans hrun', hs'⟩

/-- The partials take up 256 bytes each in the listing. -/
theorem Littered.le_listing {k : Nat} (hk : k < 256 ^ 8) {s : Server Nat} (h : Littered k s) :
    k * 256 ≤ ((s.world.os.entries s.world.os.cwd).map fun n => n.length + 1).sum := by
  have hsub : ((List.range k).map fun j => (litter j).partialPath).Subperm
      (s.world.os.entries s.world.os.cwd) := by
    refine List.subperm_of_subset ?_ ?_
    · refine List.Nodup.map_on (fun i hi j hj he => ?_) List.nodup_range
      have hi' := List.mem_range.mp hi
      have hj' := List.mem_range.mp hj
      exact litter_partial_inj (by omega) (by omega) he
    · intro n hn
      obtain ⟨j, hj, rfl⟩ := List.mem_map.mp hn
      exact s.world.os.mem_entries.mpr (h.left j (List.mem_range.mp hj))
  obtain ⟨l, hperm, hl⟩ := hsub
  have hsum := (hl.map fun n => List.length n + 1).sum_le_sum (fun _ _ => Nat.zero_le _)
  rw [(hperm.map _).sum_eq, List.map_map] at hsum
  refine le_trans (Nat.le_of_eq ?_) hsum
  have hconst : (List.range k).map ((fun n : Bytes => n.length + 1) ∘ fun j => (litter j).partialPath) =
      List.replicate k 256 := by
    rw [List.eq_replicate_iff]
    refine ⟨by simp, fun x hx => ?_⟩
    obtain ⟨j, -, rfl⟩ := List.mem_map.mp hx
    show (litter j).partialPath.length + 1 = 256
    rw [litter_partial_length]
  rw [hconst, List.sum_replicate_nat]

/-- **There are directories LIST does not work on**: 257 clients have gone away in the middle of an
upload. -/
theorem list_works_fails : ¬ ∀ (os : Os) (s : Server Nat), (∀ n, os.entry n = none) →
    Server.Run (Server.start Nat os) s → ListWorks s.world.os := by
  intro hall
  obtain ⟨s, hrun, hs⟩ := exists_littered (show 257 < 256 ^ 8 by decide)
  have hle := (listWorks_iff (Server.Run.allListable Os.empty_entry hrun)).mp
    (hall Os.empty s Os.empty_entry hrun)
  have hsum := hs.le_listing (by decide)
  omega

end Retriever
