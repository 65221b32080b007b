/-
# Retriever.Delivered — a download that is answered in full

A client looks for a leftover partial next to the destination, and offers the server its length and the
token in its name. When the offer lies within the file and what the client has is a front of it, the
reply is the rest of the file, and with it the file is in place.
-/
import Retriever.Exchange
import Retriever.Leftovers
import Retriever.Server.Listing

namespace Retriever

open Os (SLASH DOT)
open Proc (Yields Runs)

/-! ## The place of a download -/

/-- The destination is free, its directory is there, and the filesystem takes the names a download of
`F` creates. The working directory does not lie below a directory next to the destination that is
named like a partial. -/
structure Site (os : Os) (dest F : Bytes) (L : Loc) : Prop where
  ne_nil : dest ≠ []
  dir : os.destDir dest = some L
  absent : os.at? dest = none
  accepts_dest : os.accepts (Path.tail dest) = true
  accepts_partial : os.accepts (partialBase (Path.tail dest) (sha256 F)) = true
  apart : ∀ n, ascii ".part" <:+ n → ¬ L ++ [n] <+: os.cwd

/-- Where the partial of a digest lies. -/
def partialAt (L : Loc) (dest digest : Bytes) : Loc := L ++ [partialBase (Path.tail dest) digest]

/-- Where the destination lies. -/
def destAt (L : Loc) (dest : Bytes) : Loc := L ++ [Path.tail dest]

theorem Os.creatable_concat (os : Os) (l : Loc) (n : Bytes) : os.creatable (l ++ [n]) = os.accepts n := by
  unfold Os.creatable
  rw [List.getLast?_concat]

theorem suffix_partialBase (base digest : Bytes) : ascii ".part" <:+ partialBase base digest :=
  List.suffix_append _ _

theorem partialAt_inj {L : Loc} {dest d d' : Bytes} (hd : d.length = HASH_SIZE)
    (hd' : d'.length = HASH_SIZE) (h : partialAt L dest d = partialAt L dest d') :
    d.take TOKEN_SIZE = d'.take TOKEN_SIZE := by
  have hbase : partialBase (Path.tail dest) d = partialBase (Path.tail dest) d' := by
    simpa [partialAt] using h
  exact (partialBase_inj (by rw [hd]; decide) (by rw [hd']; decide) hbase).2

theorem destAt_ne (L : Loc) (dest d : Bytes) : destAt L dest ≠ partialAt L dest d := by
  intro h
  have : Path.tail dest = partialBase (Path.tail dest) d := by simpa [destAt, partialAt] using h
  exact partialBase_ne _ _ this.symm

theorem Os.locate_destAt {os : Os} {dest : Bytes} {L : Loc} (hne : dest ≠ [])
    (hL : os.destDir dest = some L) (hfree : os.at? dest = none) :
    os.locate dest = some (destAt L dest) := by
  have hplain := Os.plain_of_absent hne hL hfree
  rw [Os.locate_dest hplain.ne_nil, hL, Option.map_some, Os.enter_plain hplain]
  rfl

theorem Os.locate_partialAt {os : Os} {dest : Bytes} {L : Loc} (hL : os.destDir dest = some L)
    (digest : Bytes) : os.locate (partialName dest digest) = some (partialAt L dest digest) := by
  rw [locate_partialName, hL]
  rfl

theorem C.locate_partialAt {os : Os} {dest digest p : Bytes} {L : Loc} (hL : os.destDir dest = some L)
    (hd : digest.length = HASH_SIZE) (hp : C.partialName dest digest = some p) :
    os.locate p = some (partialAt L dest digest) := by
  rw [C.locate_partialName hd hp, hL]
  rfl

namespace Site

variable {os : Os} {dest F : Bytes} {L : Loc}

theorem locate_dest (h : Site os dest F L) : os.locate dest = some (destAt L dest) :=
  Os.locate_destAt h.ne_nil h.dir h.absent

theorem free (h : Site os dest F L) : os.slot (destAt L dest) = none :=
  Os.at?_eq_none.mp h.absent _ h.locate_dest

theorem creatable_dest (h : Site os dest F L) : os.creatable (destAt L dest) = true := by
  rw [destAt, Os.creatable_concat, h.accepts_dest]

theorem creatable_partial (h : Site os dest F L) :
    os.creatable (partialAt L dest (sha256 F)) = true := by
  rw [partialAt, Os.creatable_concat, h.accepts_partial]

/-- Names that end in `.part` are listed as they are bound. -/
theorem slot_eq (h : Site os dest F L) {n : Bytes} (hn : ascii ".part" <:+ n) :
    os.slot (L ++ [n]) = os.store.lookup (L ++ [n]) := Os.slot_of_apart os (h.apart n hn)

end Site

/-! ## What the client has of the file -/

section Resume

variable {os : Os} {dest F G g : Bytes} {L : Loc} {f : Nat}

/-- The partial of `G` that was found serves for `F` when the tokens are the same, and goes when they
are not. -/
theorem resumes_leftover (hslot : os.slot (partialAt L dest (sha256 G)) = some (.file f))
    (hdata : os.store.data f = g) (hg : g <+: G)
    (hdist : (sha256 G).take TOKEN_SIZE = (sha256 F).take TOKEN_SIZE → G = F)
    (honly : partialAt L dest (sha256 F) ≠ partialAt L dest (sha256 G) →
      os.slot (partialAt L dest (sha256 F)) = none) :
    ∃ g', g'.length = startOffset g.length ((sha256 G).take TOKEN_SIZE) (sha256 F) ∧
      os.Resumes (some (partialAt L dest (sha256 G))) (partialAt L dest (sha256 F)) g' F ∧
      ∀ l, some (partialAt L dest (sha256 G)) = some l → l ≠ partialAt L dest (sha256 F) → g' = [] := by
  have hold : os.Old (some (partialAt L dest (sha256 G))) := by
    rintro l ⟨⟩
    exact ⟨f, hslot⟩
  unfold startOffset
  by_cases htoken : (sha256 G).take TOKEN_SIZE = (sha256 F).take TOKEN_SIZE
  · obtain rfl := hdist htoken
    by_cases hnil : g = []
    · refine ⟨[], ?_, ⟨List.nil_prefix, .inr ⟨rfl, ?_⟩⟩, fun _ _ _ => rfl⟩
      · rw [hnil, if_neg (by simp)]
        rfl
      · rw [Os.cleared_slot hold, if_pos rfl]
    · refine ⟨g, ?_, ⟨hg, .inl ⟨f, hslot, hdata, hnil⟩⟩, ?_⟩
      · rw [if_pos ⟨by simpa using hnil, htoken⟩]
      · rintro l ⟨⟩ hne
        exact absurd rfl hne
  · have hne : partialAt L dest (sha256 F) ≠ partialAt L dest (sha256 G) := by
      intro h
      exact htoken (partialAt_inj (sha256_length G) (sha256_length F) h.symm)
    refine ⟨[], ?_, ⟨List.nil_prefix, .inr ⟨rfl, ?_⟩⟩, fun _ _ _ => rfl⟩
    · rw [if_neg (fun h => htoken h.2)]
      rfl
    · rw [Os.cleared_slot hold, honly hne, ite_self]

end Resume

/-! ## After the download -/

section After

variable {os os' : Os} {old : Option Loc} {dest F : Bytes} {L lp : Loc}

/-- What the directory lists after a download that succeeded. -/
theorem Os.Fetched.entries (h : os.Fetched old lp (destAt L dest) F true os') {n : Bytes}
    (hn : n ∈ os'.entries L) :
    n = Path.tail dest ∨ n ∈ os.entries L ∧ L ++ [n] ≠ lp ∧ old ≠ some (L ++ [n]) := by
  rw [Os.mem_entries_at] at hn
  by_cases hd : L ++ [n] = destAt L dest
  · left
    simpa [destAt] using hd
  · have hlp : L ++ [n] ≠ lp := by
      intro he
      rw [he, (h.done rfl).1] at hn
      exact hn rfl
    have hold : old ≠ some (L ++ [n]) := fun he => hn (h.gone _ he hlp)
    rw [h.others _ hlp hd hold] at hn
    exact .inr ⟨os.mem_entries_at.mpr hn, hlp, hold⟩

theorem Os.Fetched.content (h : os.Fetched old lp (destAt L dest) F true os')
    (hd : os.locate dest = some (destAt L dest)) : os'.content dest = some F := by
  obtain ⟨-, i, hslot, hdata, -⟩ := h.done rfl
  have hat : os'.at? dest = some (.file i) :=
    Os.at?_eq_some.mpr ⟨_, by rw [h.alike.locate, hd], hslot⟩
  unfold Os.content
  rw [hat]
  show some (os'.store.data i) = some F
  rw [hdata]

end After

/-- What a program that asks evaluates to. -/
theorem Os.eval_eq {os : Os} {ε α : Type} {X : ε → Prop} {p : Proc Sys Sys.Ans ε α}
    (hp : p.Uses Sys.Asks X) {r : Except ε α}
    (h : Yields Net.wire.env p ⟨os, ∅, ⟨[], []⟩⟩ r ⟨os, ∅, ⟨[], []⟩⟩) : p.eval os.ask = r := by
  have heval := (Proc.wp_eval Net.asks_answer hp).mp h
  show p.eval (Machine.os (⟨os, ∅, ⟨[], []⟩⟩ : Machine Wire)).ask = r
  cases hr : p.eval (Machine.os (⟨os, ∅, ⟨[], []⟩⟩ : Machine Wire)).ask with
  | ok a =>
    rw [hr] at heval
    exact heval.1.symm
  | error e =>
    rw [hr] at heval
    exact heval.1.symm

/-! ## A download that is answered in full -/

section Deliver

variable {S os : Os} {fl : Finset Bytes} {dest F g token : Bytes} {L : Loc} {t : Text} {offset : Nat}

/-- The server has the file. -/
structure HasFile (S : Os) (t : Text) (F : Bytes) : Prop where
  name : checkFilename t = true
  content : S.content (encode t) = some F

theorem HasFile.small (h : HasFile S t F) : F.length < OFF_MAX := by
  obtain ⟨i, -, rfl⟩ := Os.content_at h.content
  exact S.small i

/-- Python reads the reply to its offer: the rest of the file, when the offer lies within it. -/
theorem doGet_file {output existing : Option Bytes} (hserves : HasFile S t F) (hfree : os.at? dest = none)
    (hdest : getDest (encode t) output = dest) (hfind : (findPartial dest).eval os.ask = .ok existing)
    (hoffer : (offerOf existing).eval os.ask = .ok (offset, token)) (htoken : token.length = TOKEN_SIZE)
    (hle : offset ≤ F.length) {Q : Machine Wire → Prop} {E : Exn → Machine Wire → Prop}
    (h : (receiveGetReply dest existing).wp Net.wire.env (fun _ => Q) E
      ⟨os, fl, ⟨getReply F (startOffset offset token (sha256 F)), getBytes offset token (encode t)⟩⟩) :
    (doGet (encode t) output).wp (Net.served (serverReply S)).env
      (fun _ m => Q (m.view (serverReply S))) (fun e m => E e (m.view (serverReply S)))
      ⟨os, fl, ⟨[], 0⟩⟩ := by
  have hacc := accepted_of_checkFilename hserves.name
  have hmax : OFF_MAX < 256 ^ 8 := by decide
  have hsmall := hserves.small
  have hreply := @serverReply_file S offset token t F (by omega) htoken hserves.name hserves.content
  rw [if_pos hle] at hreply
  apply doGet_served hdest hfree hfind hoffer hacc.listable.encodePath_eq hacc.encode_length (by omega)
    htoken
  rw [hreply]
  exact h

/-- The server refuses an offer that is longer than the file. -/
theorem doGet_refused {output existing : Option Bytes} (hserves : HasFile S t F)
    (hfree : os.at? dest = none) (hdest : getDest (encode t) output = dest)
    (hfind : (findPartial dest).eval os.ask = .ok existing)
    (hoffer : (offerOf existing).eval os.ask = .ok (offset, token)) (ho : offset < OFF_MAX)
    (htoken : token.length = TOKEN_SIZE) (hlt : F.length < offset) :
    (doGet (encode t) output).wp (Net.served (serverReply S)).env (fun _ _ => False) (fun _ _ => True)
      ⟨os, fl, ⟨[], 0⟩⟩ := by
  have hacc := accepted_of_checkFilename hserves.name
  have hmax : OFF_MAX < 256 ^ 8 := by decide
  have hreply := @serverReply_file S offset token t F (ho.trans hmax) htoken hserves.name hserves.content
  rw [if_neg (by omega)] at hreply
  obtain ⟨reason, herr⟩ := hreply
  obtain ⟨e, m', hy, -⟩ := @receiveGetReply_refused ⟨os, fl, ⟨serverReply S (getBytes offset token
    (encode t)), getBytes offset token (encode t)⟩⟩ dest existing reason herr
  exact doGet_served (Q := fun _ => False) (E := fun _ _ => True) hdest hfree hfind hoffer
    hacc.listable.encodePath_eq hacc.encode_length (ho.trans hmax) htoken
    (hy.wp (fun _ ha => by cases ha) fun _ _ => trivial)

/-- **Python is served.** When the offer lies within the file, the download succeeds. -/
theorem doGet_delivers {output existing : Option Bytes} (hserves : HasFile S t F)
    (hsite : Site os dest F L) (hdest : getDest (encode t) output = dest)
    (hfind : (findPartial dest).eval os.ask = .ok existing)
    (hoffer : (offerOf existing).eval os.ask = .ok (offset, token))
    (hfound : ∀ q, existing = some q → ∃ i, os.at? q = some (.file i))
    (htoken : token.length = TOKEN_SIZE) (hle : offset ≤ F.length)
    (hstart : g.length = startOffset offset token (sha256 F))
    (hres : os.Resumes (existing.bind os.locate) (partialAt L dest (sha256 F)) g F)
    (hsame : ∀ l, existing.bind os.locate = some l → l ≠ partialAt L dest (sha256 F) → g = []) :
    (doGet (encode t) output).wp (Net.served (serverReply S)).env
      (fun _ m => os.Fetched (existing.bind os.locate) (partialAt L dest (sha256 F)) (destAt L dest) F
        true m.os ∧ m.view (serverReply S) = ⟨m.os, fl, ⟨[], getBytes offset token (encode t)⟩⟩)
      (fun _ _ => False) ⟨os, fl, ⟨[], 0⟩⟩ := by
  have hsmall := hserves.small
  obtain ⟨os', hy, htrans⟩ := @receiveGetReply_yields ⟨os, fl, ⟨getReply F g.length,
    getBytes offset token (encode t)⟩⟩ dest F existing g (partialAt L dest (sha256 F))
    (destAt L dest) hfound hres (Os.locate_partialAt hsite.dir _) hsite.locate_dest hsite.free
    (destAt_ne _ _ _) hsmall hsite.creatable_partial hsite.creatable_dest rfl
  have hfetched := htrans.fetched (Os.old_of_found hfound) hsite.free (destAt_ne _ _ _) hsame hsmall
  have hrun := doGet_file (Q := fun m => m = ⟨os', fl, ⟨[], getBytes offset token (encode t)⟩⟩)
    (E := fun _ _ => False) hserves hsite.absent hdest hfind hoffer htoken hle
    (by rw [← hstart]; exact hy.wp (fun _ _ => rfl) fun e he => by cases he)
  refine Proc.wp_mono hrun ?_ fun _ _ h => h
  intro _ m hm
  have hos : m.os = os' := congrArg Machine.os hm
  rw [hm, hos]
  exact ⟨hfetched, rfl⟩

/-- The C client reads the reply to its offer: the rest of the file, when the offer lies within it. -/
theorem C.doGet_file {existing : C.Found} (hserves : HasFile S t F) (hfree : os.at? dest = none)
    (hfind : (C.findPartial dest).eval os.ask = .ok existing)
    (hoffset : existing.offer.1.toNat = offset) (htok : existing.offer.2 = token)
    (htoken : token.length = TOKEN_SIZE) (hle : offset ≤ F.length) {Q : Bool → Machine Wire → Prop}
    (h : (C.receiveGetReply dest existing).wp Net.wire.env Q (fun _ _ => False)
      ⟨os, fl, ⟨getReply F (startOffset offset token (sha256 F)), getBytes offset token (encode t)⟩⟩) :
    (C.doGet (encode t) dest).wp (Net.served (serverReply S)).env
      (fun ok m => Q ok (m.view (serverReply S))) (fun _ _ => False) ⟨os, fl, ⟨[], 0⟩⟩ := by
  have hacc := accepted_of_checkFilename hserves.name
  have hmax : OFF_MAX < 256 ^ 8 := by decide
  have hsmall := hserves.small
  have hreply := @serverReply_file S offset token t F (by omega) htoken hserves.name hserves.content
  rw [if_pos hle] at hreply
  apply C.doGet_served hfree hfind hacc.encode_length
  rw [hoffset, htok, hreply]
  exact h

theorem C.doGet_refused {existing : C.Found} (hserves : HasFile S t F) (hfree : os.at? dest = none)
    (hfind : (C.findPartial dest).eval os.ask = .ok existing)
    (hoffset : existing.offer.1.toNat = offset) (htok : existing.offer.2 = token)
    (htoken : token.length = TOKEN_SIZE) (hlt : F.length < offset) :
    (C.doGet (encode t) dest).wp (Net.served (serverReply S)).env (fun ok _ => ok = false)
      (fun _ _ => False) ⟨os, fl, ⟨[], 0⟩⟩ := by
  have hacc := accepted_of_checkFilename hserves.name
  have ho : offset < 256 ^ 8 := by
    rw [← hoffset]
    exact existing.offer.1.toNat_lt.trans_eq (by decide)
  have hreply := @serverReply_file S offset token t F ho htoken hserves.name hserves.content
  rw [if_neg (by omega)] at hreply
  obtain ⟨reason, herr⟩ := hreply
  obtain ⟨rest, hy⟩ := @C.receiveGetReply_refused ⟨os, fl, ⟨serverReply S (getBytes offset token
    (encode t)), getBytes offset token (encode t)⟩⟩ dest existing reason _ herr (List.prefix_refl _)
  apply C.doGet_served (Q := fun ok _ => ok = false) hfree hfind hacc.encode_length
  rw [hoffset, htok]
  exact hy.wp (fun a ha => by cases ha; rfl) fun e => e.elim

/-- The same for the C client. -/
theorem C.doGet_delivers {p : Bytes} {existing : C.Found} (hserves : HasFile S t F)
    (hsite : Site os dest F L) (hname : C.partialName dest (sha256 F) = some p)
    (hfind : (C.findPartial dest).eval os.ask = .ok existing)
    (hoffset : existing.offer.1.toNat = offset) (htok : existing.offer.2 = token)
    (hfound : ∀ q, existing.path? = some q → ∃ i, os.at? q = some (.file i))
    (htoken : token.length = TOKEN_SIZE) (hle : offset ≤ F.length)
    (hstart : g.length = startOffset offset token (sha256 F))
    (hres : os.Resumes (existing.path?.bind os.locate) (partialAt L dest (sha256 F)) g F)
    (hsame : ∀ l, existing.path?.bind os.locate = some l → l ≠ partialAt L dest (sha256 F) → g = []) :
    (C.doGet (encode t) dest).wp (Net.served (serverReply S)).env
      (fun ok m => ok = true ∧ os.Fetched (existing.path?.bind os.locate)
        (partialAt L dest (sha256 F)) (destAt L dest) F true m.os ∧
        m.net.sent = getBytes offset token (encode t))
      (fun _ _ => False) ⟨os, fl, ⟨[], 0⟩⟩ := by
  have hsmall := hserves.small
  obtain ⟨ok, os', rest, hy, hends, hok⟩ := @C.receiveGetReply_yields ⟨os, fl, ⟨getReply F g.length,
    getBytes offset token (encode t)⟩⟩ dest F existing p g
    (partialAt L dest (sha256 F)) (destAt L dest) (getReply F g.length).length hfound hres hname
    (C.locate_partialAt hsite.dir (sha256_length F) hname) hsite.locate_dest hsite.free
    (destAt_ne _ _ _) hsmall (List.take_length).symm
  obtain rfl := hok le_rfl hsite.creatable_partial hsite.creatable_dest
  have hfetched : os.Fetched (existing.path?.bind os.locate) (partialAt L dest (sha256 F))
      (destAt L dest) F true os' := by
    rcases hends with ⟨h, -⟩ | htrans
    · cases h
    · exact htrans.fetched (Os.old_of_found hfound) hsite.free (destAt_ne _ _ _) hsame hsmall
  have hrun := C.doGet_file
    (Q := fun ok m => ok = true ∧ m = ⟨os', fl, ⟨rest, getBytes offset token (encode t)⟩⟩)
    hserves hsite.absent hfind hoffset htok htoken hle
    (by rw [← hstart]; exact hy.wp (fun a ha => ⟨by cases ha; rfl, rfl⟩) fun e => e.elim)
  refine Proc.wp_mono hrun ?_ fun _ _ h => h
  rintro ok m ⟨rfl, hm⟩
  have hos : m.os = os' := congrArg Machine.os hm
  have hsent : m.net.sent = getBytes offset token (encode t) := congrArg (fun m => m.net.output) hm
  rw [hos, hsent]
  exact ⟨rfl, hfetched, rfl⟩

end Deliver

/-! ## What is offered -/

section Offer

variable {os : Os} {dest d g : Bytes} {L : Loc} {f : Nat}

theorem statAt_partialAt {q : Bytes} (hq : os.locate q = some (partialAt L dest d))
    (hslot : os.slot (partialAt L dest d) = some (.file f)) (hdata : os.store.data f = g) :
    os.statAt q = some (.regular g.length) := by
  rw [Os.statAt_file (Os.at?_eq_some.mpr ⟨_, hq, hslot⟩), hdata]

/-- Python finds the one partial it takes for one of the destination. -/
theorem findPartial_leftover (hmagic : Glob.hasMagic (Path.split dest).1 = false)
    (hof : os.partialsOf dest = [partialBase (Path.tail dest) d]) :
    (findPartial dest).eval os.ask = .ok (some (partialName dest d)) :=
  Os.eval_eq (X := fun _ => True) (findPartial_uses dest)
    (findPartial_yields hmagic hof)

/-- It offers its length and the token of its digest. -/
theorem offerOf_leftover (hL : os.destDir dest = some L) (hd : d.length = HASH_SIZE)
    (hslot : os.slot (partialAt L dest d) = some (.file f)) (hdata : os.store.data f = g) :
    (offerOf (some (partialName dest d))).eval os.ask = .ok (g.length, d.take TOKEN_SIZE) := by
  have hstat := statAt_partialAt (Os.locate_partialAt hL d) hslot hdata
  have htoken : partialToken (partialName dest d) = some (d.take TOKEN_SIZE) :=
    partialToken_join dest (Path.tail_no_slash dest) hd
  apply Os.eval_eq (X := fun _ => True) (offerOf_uses (fun _ => trivial) _)
  apply Yields.bind (a := g.length) ((Py.wpm_getsize hstat).mpr ⟨rfl, rfl⟩)
  rw [htoken]
  exact Proc.yields_done _ _

/-- Whether the C client can name a partial depends on the destination only. -/
theorem C.partialName_congr {p d' : Bytes} (h : C.partialName dest d = some p) :
    ∃ p', C.partialName dest d' = some p' := by
  have hlen : ∀ d : Bytes, (C.sha256Hex d TOKEN_SIZE).length = 16 := fun d => rfl
  unfold C.partialName at h ⊢
  split at h
  · cases h
  · next dir base hsplit =>
    simp only at h ⊢
    have hsize : ∀ d : Bytes, (if SLASH ∉ dest then
        [DOT] ++ base ++ [DOT] ++ C.sha256Hex d TOKEN_SIZE ++ ascii ".part"
        else dir ++ [SLASH] ++ ([DOT] ++ base ++ [DOT] ++ C.sha256Hex d TOKEN_SIZE ++
          ascii ".part")).length = (if SLASH ∉ dest then 0 else dir.length + 1) + base.length + 18 +
          (ascii ".part").length := by
      intro d
      split
      · simp only [List.length_append, List.length_cons, List.length_nil, hlen]
        omega
      · simp only [List.length_append, List.length_cons, List.length_nil, hlen]
        omega
    rw [hsize] at h ⊢
    by_cases hfit : (if SLASH ∉ dest then 0 else dir.length + 1) + base.length + 18 +
        (ascii ".part").length ≥ C.PATH_MAX
    · rw [if_pos hfit] at h
      cases h
    · exact ⟨_, if_neg hfit⟩

theorem C.splitPath_of_partialName {p : Bytes} (h : C.partialName dest d = some p) :
    ∃ dir, C.splitPath dest C.DIR_MAX (C.MAX_NAME + 1) = some (dir, Path.tail dest) := by
  unfold C.partialName at h
  split at h
  · cases h
  · next dir base hsplit =>
    obtain ⟨rfl, -⟩ := Os.locateDir_splitPath Os.empty hsplit
    exact ⟨dir, hsplit⟩

/-- The C client finds the one partial it takes for one of the destination, with its length and the
token of its digest. -/
theorem C.findPartial_leftover {p : Bytes} (hL : os.destDir dest = some L) (hd : d.length = HASH_SIZE)
    (hname : C.partialName dest d = some p)
    (hof : C.partialsOf os dest = [partialBase (Path.tail dest) d])
    (hslot : os.slot (partialAt L dest d) = some (.file f)) (hdata : os.store.data f = g) :
    ∃ q, (C.findPartial dest).eval os.ask =
        .ok (.found q (UInt64.ofNat g.length) (d.take TOKEN_SIZE)) ∧
      os.locate q = some (partialAt L dest d) := by
  obtain ⟨dir, hsplit⟩ := C.splitPath_of_partialName hname
  have hplain : Plain (partialBase (Path.tail dest) d) := partialBase_plain (Path.tail_no_slash dest)
  have hq : os.locate (C.entryPath dir dest (partialBase (Path.tail dest) d)) =
      some (partialAt L dest d) := by
    rw [C.locate_entryPath os hsplit hplain, hL]
    rfl
  refine ⟨_, ?_, hq⟩
  exact Os.eval_eq (C.findPartial_uses dest)
    (C.findPartial_yields hsplit hof (statAt_partialAt hq hslot hdata) (C.scanToken_partialBase hd))

theorem findPartial_many (hmagic : Glob.hasMagic (Path.split dest).1 = false)
    (h : ∀ n, os.partialsOf dest ≠ [n]) : (findPartial dest).eval os.ask = .ok none :=
  Os.eval_eq (X := fun _ => True) (findPartial_uses dest)
    (findPartial_yields_none hmagic h)

theorem C.findPartial_many (h : ∀ n, C.partialsOf os dest ≠ [n]) :
    ∃ found, (C.findPartial dest).eval os.ask = .ok found ∧ found.path? = none ∧
      found.offer = (0, List.replicate TOKEN_SIZE 0) := by
  rcases @C.findPartial_yields_absent _ Net.wire ⟨os, ∅, ⟨[], []⟩⟩ dest h with hy | hy
  · exact ⟨_, Os.eval_eq (C.findPartial_uses dest) hy, rfl, rfl⟩
  · exact ⟨_, Os.eval_eq (C.findPartial_uses dest) hy, rfl, rfl⟩

end Offer

/-! ## The partial of an interrupted download -/

section Left

variable {os : Os} {dest F G g : Bytes} {L : Loc} {f : Nat}

/-- The partial that an interrupted download of `G` has left. -/
structure Leftover (os : Os) (L : Loc) (dest G g : Bytes) (f : Nat) : Prop where
  slot : os.slot (partialAt L dest (sha256 G)) = some (.file f)
  data : os.store.data f = g
  front : g <+: G

theorem Leftover.mem (h : Leftover os L dest G g f) :
    partialBase (Path.tail dest) (sha256 G) ∈ os.entries L := by
  rw [Os.mem_entries_at]
  have := Os.lookup_of_slot h.slot
  unfold partialAt at this
  rw [this]
  simp

theorem Leftover.length_lt (h : Leftover os L dest G g f) : g.length < OFF_MAX := by
  rw [← h.data]
  exact os.small f

/-- The place of another partial is free when the client sees one only. -/
theorem Leftover.free {P : Bytes → Bool} (hsite : Site os dest F L)
    (hPF : P (partialBase (Path.tail dest) (sha256 F)) = true)
    (hof : (os.entries L).filter P = [partialBase (Path.tail dest) (sha256 G)])
    (hne : partialAt L dest (sha256 F) ≠ partialAt L dest (sha256 G)) :
    os.slot (partialAt L dest (sha256 F)) = none := by
  unfold partialAt at hne ⊢
  rw [hsite.slot_eq (suffix_partialBase _ _)]
  by_contra hsome
  have hmem := List.mem_filter.mpr ⟨os.mem_entries_at.mpr hsome, hPF⟩
  rw [hof, List.mem_singleton] at hmem
  exact hne (by rw [hmem])

theorem partialsOf_eq (hL : os.destDir dest = some L) : os.partialsOf dest =
    (os.entries L).filter fun n => Glob.fnmatch n (partialsPattern dest) := by
  unfold Os.partialsOf
  rw [hL]
  rfl

theorem C.partialsOf_eq (hL : os.destDir dest = some L) : C.partialsOf os dest =
    (os.entries L).filter (C.isPartialOf ([DOT] ++ Path.tail dest ++ [DOT])) := by
  unfold C.partialsOf
  rw [hL]
  rfl

end Left

/-- The client's directory: a download of `G` to `a` was cut off after `g`. -/
def interrupted (G g : Bytes) : Os := lone (partialBase (ascii "a") (sha256 G)) g

theorem interrupted_site {G g F : Bytes} (h : (interrupted G g).destDir (ascii "a") = some [] ∧
    (interrupted G g).at? (ascii "a") = none) : Site (interrupted G g) (ascii "a") F [] where
  ne_nil := by decide
  dir := h.1
  absent := h.2
  accepts_dest := by
    show (Os.extend _ _ _).accepts _ = true
    rw [Os.extend_accepts]
    show decide ((Path.tail (ascii "a")).length ≤ 255) = true
    decide
  accepts_partial := by
    show (Os.extend _ _ _).accepts _ = true
    rw [Os.extend_accepts]
    show decide ((partialBase (Path.tail (ascii "a")) (sha256 F)).length ≤ 255) = true
    rw [partialBase_length _ (sha256_length F)]
    decide
  apart := by
    intro n _ h
    have hcwd : (interrupted G g).cwd = [] := Os.extend_cwd _ _ _
    rw [hcwd] at h
    simp at h

theorem lone_hasFile : HasFile (lone (ascii "a") [9]) ['a'] [9] := ⟨by decide, by decide +kernel⟩

end Retriever
