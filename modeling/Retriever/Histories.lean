/-
# Retriever.Histories — the C client's partials over any number of downloads

`rtrv_do_get` is run again and again in one directory, for any destinations, against servers whose files
change between the runs, and every run may be cut off at any byte of the reply. What stands in the
directory under a name of the form of a partial is always a front of the version the name belongs to, in a
file of its own, and there is one such name for a destination at most (`Tidy`). One run keeps this
(`Tidy.fetched`), so every history does.
-/
import Retriever.RoundTrip

namespace Retriever

open Os (SLASH DOT)
open Proc (Yields Runs)

/-! ## Names of partials -/

/-- `n` is `.<base>.<16 characters>.part`. -/
def PartOf (base n : Bytes) : Prop := C.isPartialOf ([DOT] ++ base ++ [DOT]) n = true

/-- The form of the name of a partial. -/
def PartialForm (n : Bytes) : Prop :=
  ∃ x y, y.length = 16 ∧ n = [DOT] ++ x ++ [DOT] ++ y ++ ascii ".part"

theorem PartOf.form {base n : Bytes} (h : PartOf base n) : PartialForm n := by
  obtain ⟨heq, hlen⟩ := C.eq_of_isPartialOf h
  exact ⟨base, C.tokenDigits n, hlen, heq⟩

theorem PartOf.inj {base base' n : Bytes} (h : PartOf base n) (h' : PartOf base' n) : base = base' := by
  obtain ⟨heq, hlen⟩ := C.eq_of_isPartialOf h
  obtain ⟨heq', -⟩ := C.eq_of_isPartialOf h'
  have hfront : [DOT] ++ base ++ [DOT] = [DOT] ++ base' ++ [DOT] := by
    have h2 := heq.symm.trans heq'
    exact List.append_cancel_right (List.append_cancel_right h2)
  exact List.append_cancel_left (List.append_cancel_right hfront)

theorem partOf_partialBase (base F : Bytes) : PartOf base (partialBase base (sha256 F)) :=
  C.isPartialOf_partialBase base (sha256_length F)

/-! ## The invariant -/

/-- Under the name of a partial there is a front of the version the name belongs to, in a file that has no
other name, and a destination has one partial at most. -/
structure Tidy (V : Set Bytes) (os : Os) : Prop where
  formed : ∀ base n, PartOf base n → os.entry n ≠ none → ∃ F ∈ V, n = partialBase base (sha256 F) ∧
    ∃ i, os.entry n = some (.file i) ∧ os.store.data i <+: F ∧
      ∀ l, os.store.lookup l = some (.file i) → l = os.cwd ++ [n]
  one : ∀ base n n', PartOf base n → PartOf base n' → os.entry n ≠ none → os.entry n' ≠ none → n = n'

/-- What is found is the partial of the destination there is. -/
def Os.FindsOf (os : Os) (dest : Bytes) (old : Option Loc) : Prop :=
  ∀ l, old = some l ↔ ∃ n, PartOf dest n ∧ os.entry n ≠ none ∧ l = os.cwd ++ [n]

section Step

variable {V : Set Bytes} {os os' : Os} {dest F : Bytes} {old : Option Loc} {ok : Bool}

/-- A directory without `.part` files. -/
theorem tidy_of_parts (h : os.parts = []) : Tidy V os := by
  have hno : ∀ base n, PartOf base n → os.entry n = none := by
    intro base n hn
    by_contra hsome
    have hmem : n ∈ os.parts :=
      List.mem_filter.mpr ⟨os.mem_entries_at.mpr hsome, decide_eq_true (C.suffix_of_isPartialOf hn)⟩
    rw [h] at hmem
    exact List.not_mem_nil hmem
  exact ⟨fun base n hn hsome => absurd (hno base n hn) hsome,
    fun base n n' hn _ hsome => absurd (hno base n hn) hsome⟩

/-- The file of a partial before the run keeps its name and its bytes, unless it is the one that is
written. -/
theorem Os.Fetched.other_file {ld : Loc} {n p : Bytes} {i : Nat}
    (hf : os.Fetched old (os.cwd ++ [p]) ld F ok os')
    (hi : os.entry n = some (.file i)) (hne : n ≠ p)
    (huniq : ∀ l, os.store.lookup l = some (.file i) → l = os.cwd ++ [n]) :
    os'.store.data i = os.store.data i ∧
      ∀ l, os'.store.lookup l = some (.file i) → l = os.cwd ++ [n] := by
  have hlt : i < os.store.next := Os.entry_lt_next hi
  have hlp : os.store.lookup (os.cwd ++ [p]) ≠ some (.file i) := by
    intro hlook
    have := huniq _ hlook
    exact hne (by simpa using this.symm)
  -- the file is neither new nor the one of the partial that is written
  have hown : ¬ os.Own (os.cwd ++ [p]) i := by
    rintro (hge | hlook)
    · omega
    · exact hlp hlook
  refine ⟨hf.data i hlt hlp, fun l hl => ?_⟩
  by_cases hlp' : l = os.cwd ++ [p]
  · exfalso
    rw [hlp'] at hl
    cases ok with
    | true =>
      rw [(hf.done rfl).1] at hl
      cases hl
    | false =>
      rcases (hf.kept rfl).2 with hnone | ⟨j, hj, -, hownj⟩
      · rw [hnone] at hl
        cases hl
      · rw [hj] at hl
        cases hl
        exact hown hownj
  by_cases hld : l = ld
  · exfalso
    rw [hld] at hl
    cases ok with
    | true =>
      obtain ⟨-, j, hj, -, hownj⟩ := hf.done rfl
      rw [Os.lookup_of_slot hj] at hl
      cases hl
      exact hown hownj
    | false =>
      rw [(hf.kept rfl).1] at hl
      cases hl
  by_cases hold : old = some l
  · rw [hf.gone l hold hlp'] at hl
    cases hl
  · rw [hf.others l hlp' hld hold] at hl
    exact huniq l hl

/-- What is under the name of a partial after the run: the partial that was written, or what was there
before. -/
theorem Os.Fetched.part_entry {ld : Loc} {n p : Bytes} (hf : os.Fetched old (os.cwd ++ [p]) ld F ok os')
    (hld : os.cwd ++ [n] ≠ ld) (hn : os'.entry n ≠ none) :
    n = p ∧ ok = false ∨ n ≠ p ∧ old ≠ some (os.cwd ++ [n]) ∧ os'.entry n = os.entry n := by
  have hentry : os'.entry n = os'.store.lookup (os.cwd ++ [n]) := by
    unfold Os.entry
    rw [hf.alike.cwd]
  rw [hentry] at hn ⊢
  by_cases hnp : n = p
  · refine .inl ⟨hnp, ?_⟩
    by_contra hok
    rw [hnp, (hf.done (by simpa using hok)).1] at hn
    exact hn rfl
  · have hlp : os.cwd ++ [n] ≠ os.cwd ++ [p] := by simpa using hnp
    have hold : old ≠ some (os.cwd ++ [n]) := by
      intro hold
      rw [hf.gone _ hold hlp] at hn
      exact hn rfl
    exact .inr ⟨hnp, hold, hf.others _ hlp hld hold⟩

/-- **One run keeps the directory tidy.** -/
theorem Tidy.fetched (h : Tidy V os) (hF : F ∈ V) (hform : ¬ PartialForm dest)
    (hfinds : os.FindsOf dest old)
    (hf : os.Fetched old (os.cwd ++ [partialBase dest (sha256 F)]) (os.cwd ++ [dest]) F ok os') :
    Tidy V os' := by
  have hcwd := hf.alike.cwd
  have hld : ∀ base n, PartOf base n → os.cwd ++ [n] ≠ os.cwd ++ [dest] := by
    intro base n hn heq
    have hnd : n = dest := by simpa using heq
    exact hform (hnd ▸ hn.form)
  constructor
  · intro base n hn hsome
    rcases hf.part_entry (hld base n hn) hsome with ⟨rfl, rfl⟩ | ⟨hne, hold, hsame⟩
    · -- the partial that was written
      obtain rfl : base = dest := hn.inj (partOf_partialBase dest F)
      obtain ⟨hfree, hkept⟩ := hf.kept rfl
      have hentry : os'.entry (partialBase base (sha256 F)) =
          os'.store.lookup (os.cwd ++ [partialBase base (sha256 F)]) := by
        unfold Os.entry
        rw [hcwd]
      rw [hentry] at hsome ⊢
      rcases hkept with hnone | ⟨i, hi, hfront, hown⟩
      · exact absurd hnone hsome
      refine ⟨F, hF, rfl, i, hi, hfront, fun l hl => ?_⟩
      rw [hcwd]
      by_contra hne
      have hl' : os.store.lookup l = some (.file i) := by
        rw [← hl]
        symm
        apply hf.others l hne
        · rintro rfl
          rw [hfree] at hl
          cases hl
        · intro hold
          rw [hf.gone l hold hne] at hl
          cases hl
      rcases hown with hge | hlook
      · exact absurd (Store.lookup_lt_next hl') (by omega)
      · -- the file was in the partial before, so it has no other name
        obtain ⟨G, -, -, j, hj, -, huniq⟩ := h.formed base _ hn (by
          show os.store.lookup _ ≠ none
          rw [hlook]
          simp)
        obtain rfl : i = j := by
          have : os.store.lookup (os.cwd ++ [partialBase base (sha256 F)]) = some (.file j) := hj
          rw [hlook] at this
          cases this
          rfl
        exact hne (huniq l hl')
    · rw [hsame] at hsome ⊢
      obtain ⟨G, hG, hname, i, hi, hfront, huniq⟩ := h.formed base n hn hsome
      obtain ⟨hdata, huniq'⟩ := hf.other_file hi hne huniq
      refine ⟨G, hG, hname, i, hi, by rwa [hdata], fun l hl => ?_⟩
      rw [hcwd]
      exact huniq' l hl
  · intro base n n' hn hn' hsome hsome'
    -- what was there before of the destination was found and is gone
    have hcase : ∀ k, PartOf base k → os'.entry k ≠ none →
        k = partialBase dest (sha256 F) ∧ base = dest ∨ base ≠ dest ∧ os.entry k ≠ none := by
      intro k hk hsome
      rcases hf.part_entry (hld base k hk) hsome with ⟨rfl, -⟩ | ⟨hne, hold, hsame⟩
      · exact .inl ⟨rfl, hk.inj (partOf_partialBase dest F)⟩
      · rw [hsame] at hsome
        refine .inr ⟨?_, hsome⟩
        rintro rfl
        exact hold ((hfinds _).mpr ⟨k, hk, hsome, rfl⟩)
    rcases hcase n hn hsome with ⟨rfl, hbase⟩ | ⟨hbase, hs⟩
    · rcases hcase n' hn' hsome' with ⟨rfl, -⟩ | ⟨hbase', -⟩
      · rfl
      · exact absurd hbase hbase'
    · rcases hcase n' hn' hsome' with ⟨-, hbase'⟩ | ⟨-, hs'⟩
      · exact absurd hbase' hbase
      · exact h.one base n n' hn hn' hs hs'

/-- **One run leaves the partials of other destinations alone.** -/
theorem Tidy.others (h : Tidy V os) (hform : ¬ PartialForm dest) (hfinds : os.FindsOf dest old)
    (hf : os.Fetched old (os.cwd ++ [partialBase dest (sha256 F)]) (os.cwd ++ [dest]) F ok os')
    {base n : Bytes} (hn : PartOf base n) (hne : base ≠ dest) :
    os'.entry n = os.entry n ∧
      ∀ i, os.entry n = some (.file i) → os'.store.data i = os.store.data i := by
  have hnp : n ≠ partialBase dest (sha256 F) := by
    rintro rfl
    exact hne (hn.inj (partOf_partialBase dest F))
  have hsame : os'.entry n = os.entry n := by
    unfold Os.entry
    rw [hf.alike.cwd]
    apply hf.others
    · simpa using hnp
    · intro heq
      have hnd : n = dest := by simpa using heq
      exact hform (hnd ▸ hn.form)
    · intro heq
      obtain ⟨n', hn', -, hl⟩ := (hfinds _).mp heq
      have hnn : n = n' := by simpa using hl
      exact hne (hn.inj (hnn ▸ hn'))
  refine ⟨hsame, fun i hi => ?_⟩
  obtain ⟨G, -, -, j, hj, -, huniq⟩ := h.formed base n hn (by rw [hi]; simp)
  rw [hi] at hj
  cases hj
  exact (hf.other_file hi hnp huniq).1

end Step

/-! ## What a run finds -/

section Find

variable {V : Set Bytes} {os : Os} {dest : Bytes}

/-- What a run offers, and that it can go on from there with any version. -/
structure C.Offers (V : Set Bytes) (os : Os) (dest : Bytes) (existing : C.Found) : Prop where
  finds : os.FindsOf dest (existing.path?.bind os.locate)
  found : ∀ q, existing.path? = some q → ∃ i, os.at? q = some (.file i)
  token : existing.offer.2.length = TOKEN_SIZE
  resumes : ∀ F ∈ V, ∃ g, g.length = startOffset existing.offer.1.toNat existing.offer.2 (sha256 F) ∧
    os.Resumes (existing.path?.bind os.locate) (partialAt os.cwd dest (sha256 F)) g F ∧
    ∀ l, existing.path?.bind os.locate = some l → l ≠ partialAt os.cwd dest (sha256 F) → g = []

theorem mem_partialsOf (hslash : SLASH ∉ dest) {n : Bytes} :
    n ∈ C.partialsOf os dest ↔ PartOf dest n ∧ os.entry n ≠ none := by
  rw [C.partialsOf_eq (os.destDir_of_no_slash hslash), List.mem_filter, Path.tail_eq_self hslash,
    Os.mem_entries_at, and_comm]
  rfl

theorem C.offers (h : Tidy V os)
    (hdist : ∀ F ∈ V, ∀ G ∈ V, (sha256 F).take TOKEN_SIZE = (sha256 G).take TOKEN_SIZE → F = G)
    (hslash : SLASH ∉ dest) {dir : Bytes}
    (hsplit : C.splitPath dest C.DIR_MAX (C.MAX_NAME + 1) = some (dir, dest)) :
    ∃ existing, (C.findPartial dest).eval os.ask = .ok existing ∧ C.Offers V os dest existing := by
  have hdir := os.destDir_of_no_slash hslash
  have htail : Path.tail dest = dest := Path.tail_eq_self hslash
  have hat : ∀ F, partialAt os.cwd dest (sha256 F) = os.cwd ++ [partialBase dest (sha256 F)] := by
    intro F
    rw [partialAt, htail]
  by_cases hex : ∃ n, n ∈ C.partialsOf os dest
  · obtain ⟨n, hn⟩ := hex
    obtain ⟨hpart, hsome⟩ := (mem_partialsOf hslash).mp hn
    obtain ⟨G, hG, hname, f, hf, hfront, -⟩ := h.formed dest n hpart hsome
    have hof : C.partialsOf os dest = [partialBase (Path.tail dest) (sha256 G)] := by
      rw [htail, ← hname, C.partialsOf_eq hdir, htail]
      exact filter_eq_singleton os.entries_nodup (os.mem_entries_at.mpr hsome) hpart
        fun n' hn' hpart' => h.one dest n' n hpart' hpart (os.mem_entries_at.mp hn') hsome
    have hslot : os.slot (partialAt os.cwd dest (sha256 G)) = some (.file f) := by
      rw [hat, ← hname, Os.slot_eq_entry, hf]
    obtain ⟨q, hfind, hq⟩ := C.findPartial_leftover hdir (sha256_length G)
      (C.partialName_eq (sha256_length G) hsplit) hof hslot rfl
    have hnat : (UInt64.ofNat (os.store.data f).length).toNat = (os.store.data f).length := by
      rw [UInt64.toNat_ofNat']
      have := os.small f
      have : OFF_MAX = 2 ^ 63 := rfl
      omega
    have hold : (C.Found.found q (UInt64.ofNat (os.store.data f).length)
        ((sha256 G).take TOKEN_SIZE)).path?.bind os.locate = some (partialAt os.cwd dest (sha256 G)) := hq
    refine ⟨_, hfind, ?_, ?_, ?_, ?_⟩
    · intro l
      rw [hold, Option.some.injEq, hat, ← hname]
      constructor
      · rintro rfl
        exact ⟨n, hpart, hsome, rfl⟩
      · rintro ⟨n', hpart', hsome', rfl⟩
        rw [h.one dest n' n hpart' hpart hsome' hsome]
    · rintro q' ⟨⟩
      exact ⟨f, Os.at?_eq_some.mpr ⟨_, hq, hslot⟩⟩
    · show ((sha256 G).take TOKEN_SIZE).length = _
      rw [List.length_take, sha256_length]
      rfl
    · intro F hF
      rw [hold]
      show ∃ g : Bytes, g.length = startOffset (UInt64.ofNat (os.store.data f).length).toNat
        ((sha256 G).take TOKEN_SIZE) (sha256 F) ∧ _
      rw [hnat]
      refine resumes_leftover hslot rfl hfront (hdist G hG F hF) fun hne => ?_
      -- the destination has no other partial
      rw [hat, Os.slot_eq_entry]
      by_contra hsome'
      apply hne
      rw [hat, hat, ← hname, h.one dest _ n (partOf_partialBase dest F) hpart hsome' hsome]
  · have hnone : C.partialsOf os dest = [] := List.eq_nil_iff_forall_not_mem.mpr fun n hn => hex ⟨n, hn⟩
    obtain ⟨existing, hfind, hpath, hoffer⟩ := @C.findPartial_many os dest fun n => by rw [hnone]; simp
    refine ⟨existing, hfind, ?_⟩
    have hold : existing.path?.bind os.locate = none := by
      rw [hpath]
      rfl
    constructor
    · intro l
      rw [hold]
      apply iff_of_false (by simp)
      rintro ⟨n, hn, hsome, -⟩
      exact hex ⟨n, (mem_partialsOf hslash).mpr ⟨hn, hsome⟩⟩
    · intro q hq
      rw [hpath] at hq
      cases hq
    · rw [hoffer]
      exact List.length_replicate
    · intro F hF
      rw [hoffer, hold]
      refine ⟨[], rfl, ⟨List.nil_prefix, .inr ⟨rfl, ?_⟩⟩, fun _ _ _ => rfl⟩
      show os.slot _ = none
      rw [hat, Os.slot_eq_entry]
      by_contra hsome
      exact hex ⟨_, (mem_partialsOf hslash).mpr ⟨partOf_partialBase dest F, hsome⟩⟩

end Find

/-! ## One run -/

/-- A run of `rtrv_do_get`: what is asked for, where it goes, the server's directory at the time, and
after how many bytes of the reply the connection is lost. -/
structure Visit where
  remoteName : Bytes
  dest : Bytes
  server : Os
  cut : Nat

namespace Visit

/-- The version of the file that is served. -/
def Version (v : Visit) (F : Bytes) : Prop :=
  checkFilename (decodeReplace v.remoteName) = true ∧
    v.server.content (encode (decodeReplace v.remoteName)) = some F

/-- The server's reply, as far as it comes through. -/
def peer (v : Visit) (sent : Bytes) : Bytes := (serverReply v.server sent).take v.cut

/-- The destination is a name in the directory and not of the form of a partial, and the version is one of
`V`. -/
structure Allowed (V : Set Bytes) (v : Visit) : Prop where
  ne_nil : v.dest ≠ []
  no_slash : SLASH ∉ v.dest
  not_partial : ¬ PartialForm v.dest
  version : ∀ F, v.Version F → F ∈ V

/-- The run from the directory `os` returns `ok` and leaves the directory `os'`. -/
def Makes (v : Visit) (os : Os) (ok : Bool) (os' : Os) : Prop :=
  ∃ m', Runs (Net.served v.peer).env (C.doGet v.remoteName v.dest) ⟨os, ∅, ⟨[], 0⟩⟩ (.ok ok) m' ∧
    m'.os = os'

/-- What a run does: nothing, or what a download of the version does. -/
def Does (v : Visit) (os : Os) (ok : Bool) (os' : Os) : Prop :=
  ok = false ∧ os' = os ∨ ∃ F old, v.Version F ∧ os.FindsOf v.dest old ∧
    os.locate v.dest = some (os.cwd ++ [v.dest]) ∧
    os.Fetched old (os.cwd ++ [partialBase v.dest (sha256 F)]) (os.cwd ++ [v.dest]) F ok os'

end Visit

section Run

variable {V : Set Bytes} {os : Os} {v : Visit}

/-- A download whose partial has no name gives up. -/
theorem C.receiveGetReply_unnamed {m : Machine Wire} {dest F : Bytes} {start k : Nat} {existing : C.Found}
    (hname : C.partialName dest (sha256 F) = none) (hle : start ≤ F.length) (hsmall : F.length < OFF_MAX)
    (hin : m.net.input = (getReply F start).take k) :
    C.GivesUp m (C.receiveGetReply dest existing) := by
  generalize hmd : getMeta F start = metadata
  have hmax : OFF_MAX < 2 ^ 64 := by decide
  have hfields := @C.getMeta_fields F start (by omega) (by omega)
  have hfront : (getHeader F start ++ metadata).length = HEADER_SIZE + GET_META := by
    rw [List.length_append, getHeader_length, ← hmd, getMeta_length]
  rw [hmd] at hfields
  rw [getReply_eq, hmd] at hin
  by_cases hk : k < HEADER_SIZE + GET_META
  · apply @C.receiveGetReply_short m dest F start
    · rw [hin, hmd, List.take_append_of_le_length (by omega)]
      exact List.take_prefix _ _
    · rw [hin]
      exact (List.length_take_le _ _).trans_lt hk
  · refine ⟨(F.drop start).take (k - (HEADER_SIZE + GET_META)), ?_⟩
    apply C.receiveGetReply_served hmd.symm
    · rw [hin, List.take_append, hfront, List.take_of_length_le (by omega)]
    · unfold C.receiveDownload
      simp only
      rw [hfields.2.2, hname]
      exact Proc.yields_done _ _

/-- The destination is there, or the name is too long: nothing is sent. -/
theorem C.doGet_stops {serve : Bytes → Bytes} {remoteName dest : Bytes} {existing : C.Found}
    (hfind : (C.findPartial dest).eval os.ask = .ok existing)
    (h : os.at? dest ≠ none ∨ C.MAX_NAME < remoteName.length) :
    (C.doGet remoteName dest).wp (Net.served serve).env (fun ok m => ok = false ∧ m.os = os)
      (fun _ _ => False) ⟨os, ∅, ⟨[], 0⟩⟩ := by
  have hlook : Yields (Net.served serve).env (C.findPartial dest) ⟨os, ∅, ⟨[], 0⟩⟩ (.ok existing)
      ⟨os, ∅, ⟨[], 0⟩⟩ := hfind ▸ Net.yields_eval (C.findPartial_uses dest)
  unfold C.doGet C.fileExists
  refine Proc.wp_bind.mpr (Proc.wp_bind.mpr (Proc.wp_perform.mpr ((Net.call_looks (.stat _)).mpr ?_)))
  show Proc.wp _ (if (os.statAt dest).isSome = true then _ else _) _ _ _
  split
  · exact ⟨rfl, rfl⟩
  next hnone =>
  rcases h with hthere | hlong
  · exfalso
    exact hnone (Os.statAt_isSome.mpr hthere)
  · refine Proc.wp_bind.mpr (hlook.wp ?_ fun e => e.elim)
    intro x hx
    rw [if_pos hlong]
    exact ⟨rfl, rfl⟩

theorem Visit.does_of_givesUp {m : Machine Wire} {p : CProg Bool} (hos : m.os = os)
    (h : C.GivesUp m p) : p.wp Net.wire.env (fun ok m' => v.Does os ok m'.os) (fun _ _ => False) m := by
  obtain ⟨rest, hy⟩ := h
  refine hy.wp (fun ok hok => ?_) fun e => e.elim
  cases hok
  exact .inl ⟨rfl, hos⟩

theorem Visit.Version.small {F : Bytes} (h : v.Version F) : F.length < OFF_MAX := by
  obtain ⟨i, -, rfl⟩ := Os.content_at h.2
  exact v.server.small i

/-- A download that can name its partial. -/
theorem Visit.does_served (hv : v.Allowed V) {F dir sent : Bytes} {existing : C.Found} (hF : v.Version F)
    (hfree : os.at? v.dest = none)
    (hsplit : C.splitPath v.dest C.DIR_MAX (C.MAX_NAME + 1) = some (dir, v.dest))
    (hoffers : C.Offers V os v.dest existing) :
    (C.receiveGetReply v.dest existing).wp Net.wire.env (fun ok m => v.Does os ok m.os)
      (fun _ _ => False) ⟨os, ∅, ⟨(getReply F (startOffset existing.offer.1.toNat existing.offer.2
        (sha256 F))).take v.cut, sent⟩⟩ := by
  have hdir := os.destDir_of_no_slash hv.no_slash
  have htail : Path.tail v.dest = v.dest := Path.tail_eq_self hv.no_slash
  have hname := C.partialName_eq (sha256_length F) hsplit
  have hdest := Os.locate_destAt hv.ne_nil hdir hfree
  have hslot := Os.at?_eq_none.mp hfree _ hdest
  obtain ⟨g, hlen, hres, hsame⟩ := hoffers.resumes F (hv.version F hF)
  rw [← hlen]
  obtain ⟨ok, os', rest, hy, hends, -⟩ := @C.receiveGetReply_yields
    ⟨os, ∅, ⟨(getReply F g.length).take v.cut, sent⟩⟩ v.dest F existing _ g
    (partialAt os.cwd v.dest (sha256 F)) (destAt os.cwd v.dest) v.cut hoffers.found hres hname
    (C.locate_partialAt hdir (sha256_length F) hname) hdest hslot (destAt_ne _ _ _) hF.small rfl
  refine hy.wp (fun a ha => ?_) fun e => e.elim
  cases ha
  rcases hends with ⟨hok, hos⟩ | htrans
  · exact .inl ⟨hok, hos⟩
  · have hfetched := htrans.fetched (Os.old_of_found hoffers.found) hslot (destAt_ne _ _ _) hsame hF.small
    rw [partialAt, destAt, htail] at hfetched
    rw [destAt, htail] at hdest
    exact .inr ⟨F, _, hF, hoffers.finds, hdest, hfetched⟩

/-- A run against a server that is cut off does what a download does. -/
theorem Visit.does_wp (h : Tidy V os)
    (hdist : ∀ F ∈ V, ∀ G ∈ V, (sha256 F).take TOKEN_SIZE = (sha256 G).take TOKEN_SIZE → F = G)
    (hv : v.Allowed V) :
    (C.doGet v.remoteName v.dest).wp (Net.served v.peer).env (fun ok m => v.Does os ok m.os)
      (fun _ _ => False) ⟨os, ∅, ⟨[], 0⟩⟩ := by
  have htail : Path.tail v.dest = v.dest := Path.tail_eq_self hv.no_slash
  -- what is found, and what comes of it with a version
  obtain ⟨existing, hfind, htoken, hserved⟩ : ∃ existing,
      (C.findPartial v.dest).eval os.ask = .ok existing ∧ existing.offer.2.length = TOKEN_SIZE ∧
      ∀ F sent, v.Version F → os.at? v.dest = none → existing.offer.1.toNat ≤ F.length →
        (C.receiveGetReply v.dest existing).wp Net.wire.env (fun ok m => v.Does os ok m.os)
          (fun _ _ => False) ⟨os, ∅, ⟨(getReply F (startOffset existing.offer.1.toNat existing.offer.2
            (sha256 F))).take v.cut, sent⟩⟩ := by
    cases hsplit : C.splitPath v.dest C.DIR_MAX (C.MAX_NAME + 1) with
    | none =>
      -- the destination is too long for a partial
      refine ⟨.failed, ?_, List.length_replicate, fun F sent hF hfree hle => ?_⟩
      · unfold C.findPartial
        rw [hsplit]
        rfl
      · have hsmall := hF.small
        apply @Visit.does_of_givesUp os v ⟨os, ∅, _⟩ _ rfl
        refine C.receiveGetReply_unnamed ?_ ?_ hsmall rfl
        · unfold C.partialName
          rw [hsplit]
        · exact Nat.zero_le _
    | some db =>
      obtain ⟨dir, base⟩ := db
      obtain ⟨rfl, -⟩ := Os.locateDir_splitPath os hsplit
      rw [htail] at hsplit
      obtain ⟨existing, hfind, hoffers⟩ := C.offers h hdist hv.no_slash hsplit
      refine ⟨existing, hfind, hoffers.token, fun F sent hF hfree hle => ?_⟩
      exact Visit.does_served hv hF hfree hsplit hoffers
  by_cases hstop : os.at? v.dest ≠ none ∨ C.MAX_NAME < v.remoteName.length
  · refine Proc.wp_mono (C.doGet_stops hfind hstop) ?_ fun _ _ hf => hf
    exact fun ok m hm => .inl hm
  rw [not_or, not_not, Nat.not_lt] at hstop
  obtain ⟨hfree, hlen⟩ := hstop
  have hmax : C.MAX_NAME = 255 := rfl
  have hanswer := @serverReply_getBytes v.server existing.offer.1.toNat existing.offer.2 v.remoteName
    (UInt64.toNat_lt _) htoken (by omega)
  refine Proc.wp_mono (C.doGet_served (Q := fun ok m => v.Does os ok m.os) hfree hfind hlen ?_)
    (fun _ _ hd => hd) fun _ _ hf => hf
  rcases hanswer with ⟨hcheck, hc, hle, hreply⟩ | ⟨-, herr⟩
  · have hpeer : v.peer (getBytes existing.offer.1.toNat existing.offer.2 v.remoteName) = _ :=
      congrArg (List.take v.cut) hreply
    rw [hpeer]
    exact hserved _ _ ⟨hcheck, hc⟩ hfree hle
  · exact Visit.does_of_givesUp rfl (C.receiveGetReply_refused herr (List.take_prefix _ _))

theorem Visit.Makes.does (h : Tidy V os)
    (hdist : ∀ F ∈ V, ∀ G ∈ V, (sha256 F).take TOKEN_SIZE = (sha256 G).take TOKEN_SIZE → F = G)
    (hv : v.Allowed V) {ok : Bool} {os' : Os} (hmakes : v.Makes os ok os') : v.Does os ok os' := by
  obtain ⟨m', hrun, rfl⟩ := hmakes
  rcases Proc.wp_runs (Visit.does_wp h hdist hv) hrun with ⟨ok', hok, hdoes⟩ | ⟨e, -, hfalse⟩
  · cases hok
    exact hdoes
  · exact hfalse.elim

theorem Tidy.does (h : Tidy V os) (hv : v.Allowed V) {ok : Bool} {os' : Os} (hdoes : v.Does os ok os') :
    Tidy V os' := by
  rcases hdoes with ⟨-, rfl⟩ | ⟨F, old, hF, hfinds, -, hfetched⟩
  · exact h
  · exact h.fetched (hv.version F hF) hv.not_partial hfinds hfetched

end Run

/-! ## Histories -/

/-- One run is made. -/
def Visited (V : Set Bytes) (os os' : Os) : Prop := ∃ v ok, Visit.Allowed V v ∧ v.Makes os ok os'

/-- Any number of runs, one after the other. -/
def History (V : Set Bytes) : Os → Os → Prop := Relation.ReflTransGen (Visited V)

section History

variable {V : Set Bytes} {os₀ os : Os}

theorem History.tidy
    (hdist : ∀ F ∈ V, ∀ G ∈ V, (sha256 F).take TOKEN_SIZE = (sha256 G).take TOKEN_SIZE → F = G)
    (h₀ : os₀.parts = []) (h : History V os₀ os) : Tidy V os := by
  induction h with
  | refl => exact tidy_of_parts h₀
  | tail _ hstep ih =>
    obtain ⟨v, ok, hv, hmakes⟩ := hstep
    exact ih.does hv (hmakes.does ih hdist hv)

/-- The partial of a destination for a digest, where it lies. -/
theorem content_partialName {dest d p : Bytes} (hslash : SLASH ∉ dest) (hd : d.length = HASH_SIZE)
    (hp : C.partialName dest d = some p) (os : Os) :
    os.content p = os.bytesOf (os.entry (partialBase dest d)) := by
  unfold Os.content Os.at?
  rw [C.locate_partialAt (os.destDir_of_no_slash hslash) hd hp, Option.bind_some, partialAt,
    Path.tail_eq_self hslash, Os.slot_eq_entry]

/-- What stands under the name of a partial is a front of a version with the digest of the name. -/
theorem Tidy.front (h : Tidy V os) {dest d p c : Bytes} (hslash : SLASH ∉ dest)
    (hd : d.length = HASH_SIZE) (hp : C.partialName dest d = some p) (hc : os.content p = some c) :
    ∃ F ∈ V, (sha256 F).take TOKEN_SIZE = d.take TOKEN_SIZE ∧ c <+: F := by
  rw [content_partialName hslash hd hp] at hc
  have hsome : os.entry (partialBase dest d) ≠ none := by
    intro hnone
    rw [hnone] at hc
    cases hc
  obtain ⟨F, hF, hname, i, hi, hfront, -⟩ :=
    h.formed dest _ (C.isPartialOf_partialBase dest hd) hsome
  rw [hi] at hc
  cases hc
  have htoken := (partialBase_inj (by rw [hd]; decide) (by rw [sha256_length]; decide) hname).2
  exact ⟨F, hF, htoken.symm, hfront⟩

/-- A run on another destination leaves the partial as it is. -/
theorem Visit.Does.other {v : Visit} {ok : Bool} {os' : Os} (h : Tidy V os) (hv : v.Allowed V)
    (hdoes : v.Does os ok os') {dest d p : Bytes} (hslash : SLASH ∉ dest) (hne : dest ≠ v.dest)
    (hd : d.length = HASH_SIZE) (hp : C.partialName dest d = some p) : os'.content p = os.content p := by
  rcases hdoes with ⟨-, rfl⟩ | ⟨F, old, -, hfinds, -, hfetched⟩
  · rfl
  · obtain ⟨hentry, hdata⟩ :=
      h.others hv.not_partial hfinds hfetched (C.isPartialOf_partialBase dest hd) hne
    rw [content_partialName hslash hd hp, content_partialName hslash hd hp, hentry]
    cases hs : os.entry (partialBase dest d) with
    | none => rfl
    | some sl =>
      cases sl with
      | subdir => rfl
      | file i =>
        show some _ = some _
        rw [hdata i hs]

/-- A run that succeeds has brought the version that was served. -/
theorem Visit.Does.brings {v : Visit} {os' : Os} (hv : v.Allowed V) (hdoes : v.Does os true os') :
    ∃ F, v.Version F ∧ os'.content v.dest = some F := by
  have htail : Path.tail v.dest = v.dest := Path.tail_eq_self hv.no_slash
  rcases hdoes with ⟨hok, -⟩ | ⟨F, old, hF, -, hdest, hfetched⟩
  · cases hok
  · have hat : destAt os.cwd v.dest = os.cwd ++ [v.dest] := by rw [destAt, htail]
    rw [← hat] at hdest hfetched
    exact ⟨F, hF, hfetched.content hdest⟩

/-- **The C client's partials over any history of downloads** in a directory that had none: in every state
there is one partial for a destination at most, and each is a front of the version it is named after; and a
run from there, which always returns, leaves the partials of other destinations alone, and brings the
version that is served when it succeeds. -/
theorem histories_tidy
    (hdist : ∀ F ∈ V, ∀ G ∈ V, (sha256 F).take TOKEN_SIZE = (sha256 G).take TOKEN_SIZE → F = G)
    (h₀ : os₀.parts = []) (h : History V os₀ os) :
    (∀ dest, SLASH ∉ dest → (C.partialsOf os dest).length ≤ 1) ∧
    (∀ dest d p c, SLASH ∉ dest → d.length = HASH_SIZE → C.partialName dest d = some p →
      os.content p = some c → ∃ F ∈ V, (sha256 F).take TOKEN_SIZE = d.take TOKEN_SIZE ∧ c <+: F) ∧
    ∀ v : Visit, v.Allowed V → (∃ ok os', v.Makes os ok os') ∧ ∀ ok os', v.Makes os ok os' →
      (∀ dest d p, SLASH ∉ dest → dest ≠ v.dest → d.length = HASH_SIZE →
        C.partialName dest d = some p → os'.content p = os.content p) ∧
      (ok = true → ∃ F, v.Version F ∧ os'.content v.dest = some F) := by
  have htidy := History.tidy hdist h₀ h
  refine ⟨?_, fun dest d p c hslash hd hp hc => htidy.front hslash hd hp hc, fun v hv => ⟨?_, ?_⟩⟩
  · intro dest hslash
    have hnodup : (C.partialsOf os dest).Nodup := by
      rw [C.partialsOf_eq (os.destDir_of_no_slash hslash)]
      exact os.entries_nodup.filter _
    have hmem : ∀ n ∈ C.partialsOf os dest, PartOf dest n ∧ os.entry n ≠ none :=
      fun n hn => (mem_partialsOf hslash).mp hn
    rcases hps : C.partialsOf os dest with _ | ⟨n, _ | ⟨n', rest⟩⟩
    · exact Nat.zero_le _
    · exact le_rfl
    · rw [hps] at hnodup hmem
      obtain ⟨hn, hsome⟩ := hmem n (by simp)
      obtain ⟨hn', hsome'⟩ := hmem n' (by simp)
      have heq := htidy.one dest n n' hn hn' hsome hsome'
      rw [heq] at hnodup
      simp at hnodup
  · obtain ⟨r, m', hrun⟩ := Proc.exists_runs (Net.served_live v.peer) (C.doGet v.remoteName v.dest)
      ⟨os, ∅, ⟨[], 0⟩⟩
    cases r with
    | ok ok => exact ⟨ok, m'.os, m', hrun, rfl⟩
    | error e => exact e.elim
  · intro ok os' hmakes
    have hdoes := hmakes.does htidy hdist hv
    refine ⟨fun dest d p hslash hne hd hp => hdoes.other htidy hv hslash hne hd hp, ?_⟩
    rintro rfl
    exact hdoes.brings hv

end History

/-- A download of one byte to `b`, cut off after the metadata. -/
def cutVisit : Visit := ⟨ascii "a", ascii "b", lone (ascii "a") [9], HEADER_SIZE + GET_META⟩

theorem cutVisit_allowed : cutVisit.Allowed {[9]} where
  ne_nil := by decide
  no_slash := by decide
  not_partial := by
    rintro ⟨x, y, hy, heq⟩
    have := congrArg List.length heq
    simp only [List.length_append, hy, show cutVisit.dest.length = 1 from rfl] at this
    omega
  version := by
    rintro F ⟨-, hc⟩
    have hcontent : cutVisit.server.content (encode (decodeReplace cutVisit.remoteName)) = some [9] := by
      decide +kernel
    rw [hcontent] at hc
    cases hc
    rfl

/-- The state after it, in a directory that was empty. -/
theorem histories_tidy_cutVisit : ∃ ok os, cutVisit.Makes Os.empty ok os ∧ History {[9]} Os.empty os ∧
    (C.partialsOf os (ascii "b")).length ≤ 1 ∧
    (ok = true → ∃ F, cutVisit.Version F ∧ os.content (ascii "b") = some F) := by
  have hdist : ∀ F ∈ ({[9]} : Set Bytes), ∀ G ∈ ({[9]} : Set Bytes),
      (sha256 F).take TOKEN_SIZE = (sha256 G).take TOKEN_SIZE → F = G := by
    rintro F rfl G rfl _
    rfl
  have hrun := (histories_tidy hdist (show Os.empty.parts = [] by decide) .refl).2.2 cutVisit
    cutVisit_allowed
  obtain ⟨ok, os, hmakes⟩ := hrun.1
  have hhist : History {[9]} Os.empty os := .single ⟨cutVisit, ok, cutVisit_allowed, hmakes⟩
  exact ⟨ok, os, hmakes, hhist, (histories_tidy hdist (by decide) hhist).1 _ (by decide),
    (hrun.2 ok os hmakes).2⟩

end Retriever
