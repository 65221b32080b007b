/-
# Retriever.RoundTrip — an upload and the download of it

Either client uploads, the server publishes, either client downloads. On both ways the receiver may hold
the front of the body already, from a transfer that was cut off; exactly the rest crosses the wire, and no
partial is left on either side (`round_trip`).
-/
import Retriever.Delivered
import Retriever.Stored
import Retriever.Tokens

namespace Retriever

open Os (SLASH DOT)

/-! ## The two sides -/

/-- The names in the working directory that end in `.part`. -/
def Os.parts (os : Os) : List Bytes :=
  (os.entries os.cwd).filter fun n => decide (ascii ".part" <:+ n)

/-- The server before an upload: it does not have the name, its filesystem takes the names it creates, and
of the body it holds the first `k` bytes in the partial, or nothing. -/
structure Expects (S : Os) (t : Text) (body : Bytes) (k : Nat) : Prop where
  name : checkFilename t = true
  size : body.length ≤ MAX_FILE_SIZE
  absent : S.at? (encode t) = none
  takes : (uploadRequest t body).Takes S
  held : S.at? (partialName (encode t) (sha256 body)) = none ∧ k = 0 ∨
    S.content (partialName (encode t) (sha256 body)) = some (body.take k) ∧ k ≤ body.length

/-- The downloader before a download: the destination is a plain name and absent, the filesystem takes the
names the client creates and none of more than 255 bytes, and no name ends in `.part` but that of the
partial, when it holds the first `k` bytes of the body. -/
structure Awaits (os : Os) (dest body : Bytes) (k : Nat) : Prop where
  plain : Plain dest
  absent : os.at? dest = none
  accepts_dest : os.accepts dest = true
  accepts_partial : os.accepts (partialName dest (sha256 body)) = true
  name_max : ∀ n, os.accepts n = true → n.length ≤ 255
  held : os.parts = [] ∧ k = 0 ∨
    os.parts = [partialName dest (sha256 body)] ∧
      os.content (partialName dest (sha256 body)) = some (body.take k) ∧ k ≤ body.length

/-- A GET of a client against a peer: it comes to an end, and every end is as `P` says. Python is told the
destination or takes it from the name. -/
def Impl.Get (impl : Impl) (serve : Bytes → Bytes) (os : Os) (name dest : Bytes)
    (P : Bool → Machine Peer → Prop) : Prop :=
  match impl with
  | .python => ∀ output, getDest name output = dest →
      Proc.Ensures (Net.served serve).env (doGet name output) ⟨os, ∅, ⟨[], 0⟩⟩ fun r => P r.isOk
  | .c => Proc.Ensures (Net.served serve).env (C.doGet name dest) ⟨os, ∅, ⟨[], 0⟩⟩
      fun r => P (C.succeeded r)

/-! ## The downloader's disk -/

theorem Os.destDir_of_no_slash (os : Os) {dest : Bytes} (h : SLASH ∉ dest) :
    os.destDir dest = some os.cwd := by
  have hhead : Path.head dest = [] := by
    unfold Path.head
    rw [Path.tail_eq_self h, Nat.sub_self, List.take_zero]
  unfold Os.destDir
  rw [hhead]
  unfold Os.dirPath
  rw [if_pos rfl, Os.locateDir, Os.locate_dot, Option.filter_some, if_pos]
  unfold Os.isDir Os.slot
  rw [if_pos (List.prefix_refl _), decide_eq_true rfl]

namespace Awaits

variable {os : Os} {dest body : Bytes} {k : Nat}

theorem destDir (h : Awaits os dest body k) : os.destDir dest = some os.cwd :=
  os.destDir_of_no_slash h.plain.no_slash

theorem site (h : Awaits os dest body k) : Site os dest body os.cwd where
  ne_nil := h.plain.ne_nil
  dir := h.destDir
  absent := h.absent
  accepts_dest := by rw [Path.tail_eq_self h.plain.no_slash, h.accepts_dest]
  accepts_partial := by
    rw [Path.tail_eq_self h.plain.no_slash, ← partialName_plain h.plain.no_slash, h.accepts_partial]
  apart n _ hn := by
    have := hn.length_le
    rw [List.length_append, List.length_singleton] at this
    omega

theorem tail (h : Awaits os dest body k) : Path.tail dest = dest := Path.tail_eq_self h.plain.no_slash

/-- A kind of names that end in `.part`, with the partial among them, picks what is held. -/
theorem filter_parts (h : Awaits os dest body k) {P : Bytes → Bool}
    (hP : ∀ n, P n = true → ascii ".part" <:+ n) (hself : P (partialBase dest (sha256 body)) = true) :
    (os.entries os.cwd).filter P = os.parts := by
  have hfilter : (os.entries os.cwd).filter P = os.parts.filter P := by
    unfold Os.parts
    rw [List.filter_filter]
    refine List.filter_congr fun n _ => ?_
    by_cases hn : P n = true
    · rw [hn, decide_eq_true (hP n hn)]
      rfl
    · rw [Bool.not_eq_true] at hn
      rw [hn]
      rfl
  rw [hfilter]
  rcases h.held with ⟨hnone, -⟩ | ⟨hone, -, -⟩
  · rw [hnone]
    rfl
  · rw [hone, partialName_plain h.plain.no_slash, List.filter_singleton, hself]
    rfl

theorem partialsOf (h : Awaits os dest body k) : os.partialsOf dest = os.parts := by
  rw [partialsOf_eq h.destDir]
  apply h.filter_parts
  · exact fun n hn => suffix_of_fnmatch hn
  · unfold partialsPattern
    rw [h.tail]
    exact fnmatch_partialBase dest (sha256 body)

theorem cPartialsOf (h : Awaits os dest body k) : C.partialsOf os dest = os.parts := by
  rw [C.partialsOf_eq h.destDir]
  apply h.filter_parts
  · exact fun n hn => C.suffix_of_isPartialOf hn
  · rw [h.tail]
    exact C.isPartialOf_partialBase dest (sha256_length body)

/-- The partial that is held. -/
theorem leftover (h : Awaits os dest body k)
    (hc : os.content (partialName dest (sha256 body)) = some (body.take k)) :
    ∃ f, Leftover os os.cwd dest body (body.take k) f := by
  obtain ⟨f, hat, hdata⟩ := Os.content_at hc
  obtain ⟨l, hl, hslot⟩ := Os.at?_eq_some.mp hat
  rw [Os.locate_partialAt h.destDir] at hl
  cases hl
  exact ⟨f, hslot, hdata, List.take_prefix k body⟩

theorem parts_at (h : Awaits os dest body k) (hone : os.parts = [partialName dest (sha256 body)]) :
    ∀ n ∈ os.parts, some (partialAt os.cwd dest (sha256 body)) = some (os.cwd ++ [n]) := by
  intro n hn
  rw [hone, List.mem_singleton] at hn
  rw [hn, partialName_plain h.plain.no_slash, partialAt, h.tail]

/-- Where nothing is held the place of the partial is free. -/
theorem slot_none (h : Awaits os dest body k) (hnone : os.parts = []) :
    os.slot (partialAt os.cwd dest (sha256 body)) = none := by
  unfold partialAt
  rw [h.site.slot_eq (suffix_partialBase _ _)]
  by_contra hsome
  have hmem : partialBase (Path.tail dest) (sha256 body) ∈ os.parts :=
    List.mem_filter.mpr ⟨os.mem_entries_at.mpr hsome, decide_eq_true (suffix_partialBase _ _)⟩
  rw [hnone] at hmem
  exact List.not_mem_nil hmem

end Awaits

/-! ## The download -/

/-- The download has brought the body, no other name ends in `.part`, the server has sent exactly what the
client lacked, and its directory is as it was. -/
def Delivered (S : Os) (dest body : Bytes) (k : Nat) (m : Machine Peer) : Prop :=
  m.os.content dest = some body ∧ (∀ n ∈ m.os.parts, n = dest) ∧
    serverReply S m.net.sent = getHeader body k ++ getMeta body k ++ body.drop k ∧
    (serverRun S m.net.sent).os = S

section Download

variable {S os : Os} {t : Text} {dest body token : Bytes} {k offset : Nat}

/-- A GET leaves the server's directory as it is. -/
theorem serverRun_getBytes (ho : offset < 256 ^ 8) (htoken : token.length = TOKEN_SIZE) {name : Bytes}
    (hn : name.length ≤ 255) : (serverRun S (getBytes offset token name)).os = S := by
  have hcap : (getPayload offset token name).length ≤ 64 * 1024 := by
    rw [getPayload_length htoken]
    have : GET_PREFIX = 18 := rfl
    omega
  obtain ⟨reply, hy, -⟩ := serveRequest_get S hcap (parseGet_getPayload ho htoken (by omega))
  unfold getBytes
  rw [serverRun_of_yields hy]

/-- The server goes on where the partial of the same file ends. -/
theorem startOffset_token (k : Nat) (digest : Bytes) :
    startOffset k (digest.take TOKEN_SIZE) digest = k := by
  unfold startOffset
  by_cases hk : k = 0
  · rw [if_neg fun h => h.1 hk, hk]
  · rw [if_pos ⟨hk, rfl⟩]

/-- What a download that succeeded has brought. -/
theorem Awaits.delivered (h : Awaits os dest body k) (hfile : HasFile S t body) (hle : offset ≤ body.length)
    (htoken : token.length = TOKEN_SIZE) (hstart : startOffset offset token (sha256 body) = k)
    {old : Option Loc} {m : Machine Peer} (hold : ∀ n ∈ os.parts, old = some (os.cwd ++ [n]))
    (hfetched : os.Fetched old (partialAt os.cwd dest (sha256 body)) (destAt os.cwd dest) body true m.os)
    (hsent : m.net.sent = getBytes offset token (encode t)) : Delivered S dest body k m := by
  have hmax : OFF_MAX < 256 ^ 8 := by decide
  have hsmall := hfile.small
  have hreply := @serverReply_file S offset token t body (by omega) htoken hfile.name hfile.content
  rw [if_pos hle, hstart] at hreply
  refine ⟨hfetched.content h.site.locate_dest, ?_, ?_, ?_⟩
  · intro n hn
    obtain ⟨hn, hpart⟩ := List.mem_filter.mp hn
    rw [hfetched.alike.cwd] at hn
    rcases hfetched.entries hn with hd | ⟨hmem, -, hne⟩
    · rw [hd, h.tail]
    · exact absurd (hold n (List.mem_filter.mpr ⟨hmem, hpart⟩)) hne
  · rw [hsent, hreply, getReply_eq]
  · rw [hsent]
    exact serverRun_getBytes (by omega) htoken (accepted_of_checkFilename hfile.name).encode_length

/-- Python's download. -/
theorem doGet_awaits {output : Option Bytes} (hfile : HasFile S t body) (h : Awaits os dest body k)
    (hdest : getDest (encode t) output = dest) :
    (doGet (encode t) output).wp (Net.served (serverReply S)).env (fun _ m => Delivered S dest body k m)
      (fun _ _ => False) ⟨os, ∅, ⟨[], 0⟩⟩ := by
  have hmagic : Glob.hasMagic (Path.split dest).1 = false := by
    rw [Path.split_plain h.plain.no_slash]
    rfl
  rcases h.held with ⟨hnone, rfl⟩ | ⟨hone, hc, hle⟩
  · -- nothing is offered
    have hfind : (findPartial dest).eval os.ask = .ok none :=
      findPartial_many hmagic fun n => by rw [h.partialsOf, hnone]; simp
    have htoken : noToken.length = TOKEN_SIZE := List.length_replicate
    have hrun := @doGet_delivers S os ∅ dest body [] noToken os.cwd t 0 output none hfile h.site hdest
      hfind rfl (fun _ hq => by cases hq) htoken (Nat.zero_le _) rfl
      ⟨List.nil_prefix, .inr ⟨rfl, h.slot_none hnone⟩⟩ fun _ _ _ => rfl
    refine Proc.wp_mono hrun ?_ fun _ _ hf => hf
    rintro _ m ⟨hfetched, hview⟩
    refine h.delivered hfile (Nat.zero_le _) htoken rfl ?_ hfetched
      (congrArg (fun m => m.net.output) hview)
    rw [hnone]
    exact fun n hn => absurd hn List.not_mem_nil
  · obtain ⟨f, hleft⟩ := h.leftover hc
    have hloc := Os.locate_partialAt h.destDir (sha256 body)
    have htoken : ((sha256 body).take TOKEN_SIZE).length = TOKEN_SIZE := by
      rw [List.length_take, sha256_length]
      rfl
    have hlen : (body.take k).length = k := List.length_take_of_le hle
    obtain ⟨g, hg, hres, hsame⟩ := resumes_leftover hleft.slot hleft.data hleft.front (fun _ => rfl)
      fun hne => absurd rfl hne
    have hof : os.partialsOf dest = [partialBase (Path.tail dest) (sha256 body)] := by
      rw [h.partialsOf, hone, partialName_plain h.plain.no_slash, h.tail]
    have hrun := @doGet_delivers S os ∅ dest body g ((sha256 body).take TOKEN_SIZE) os.cwd t
      (body.take k).length output (some (partialName dest (sha256 body))) hfile h.site hdest
      (findPartial_leftover hmagic hof)
      (offerOf_leftover h.destDir (sha256_length body) hleft.slot hleft.data)
      (by
        rintro q ⟨⟩
        exact ⟨f, Os.at?_eq_some.mpr ⟨_, hloc, hleft.slot⟩⟩)
      htoken (by rw [hlen]; exact hle) hg (by rw [Option.bind_some, hloc]; exact hres)
      (by rw [Option.bind_some, hloc]; exact hsame)
    rw [Option.bind_some, hloc] at hrun
    refine Proc.wp_mono hrun ?_ fun _ _ hf => hf
    rintro _ m ⟨hfetched, hview⟩
    refine h.delivered hfile (by rw [hlen]; exact hle) htoken ?_ (h.parts_at hone) hfetched
      (congrArg (fun m => m.net.output) hview)
    rw [startOffset_token, hlen]

/-- `rtrv_partial_name` has room for a name the filesystem takes. -/
theorem Awaits.cPartialName (h : Awaits os dest body k) :
    ∃ p, C.partialName dest (sha256 body) = some p := by
  have hsplit : C.splitPath dest C.DIR_MAX (C.MAX_NAME + 1) = some ([DOT], dest) := by
    have hlen := h.name_max dest h.accepts_dest
    have hmax : C.MAX_NAME = 255 := rfl
    unfold C.splitPath
    simp only
    rw [h.tail, if_neg (by omega), if_pos h.plain.no_slash, if_neg (by decide)]
  exact ⟨_, C.partialName_eq (sha256_length body) hsplit⟩

/-- The C client's download. -/
theorem C.doGet_awaits (hfile : HasFile S t body) (h : Awaits os dest body k) :
    (C.doGet (encode t) dest).wp (Net.served (serverReply S)).env
      (fun ok m => ok = true ∧ Delivered S dest body k m) (fun _ _ => False) ⟨os, ∅, ⟨[], 0⟩⟩ := by
  obtain ⟨p, hname⟩ := h.cPartialName
  rcases h.held with ⟨hnone, rfl⟩ | ⟨hone, hc, hle⟩
  · obtain ⟨existing, hfind, hpath, hoffer⟩ :=
      @C.findPartial_many os dest fun n => by rw [h.cPartialsOf, hnone]; simp
    have htoken : noToken.length = TOKEN_SIZE := List.length_replicate
    have hold : existing.path?.bind os.locate = none := by
      rw [hpath]
      rfl
    have hrun := @C.doGet_delivers S os ∅ dest body [] noToken os.cwd t 0 p existing hfile h.site hname
      hfind (by rw [hoffer]; rfl) (by rw [hoffer]; rfl) (fun _ hq => by rw [hpath] at hq; cases hq)
      htoken (Nat.zero_le _) rfl
      ⟨List.nil_prefix, .inr ⟨rfl, by rw [hold]; exact h.slot_none hnone⟩⟩ fun _ _ _ => rfl
    refine Proc.wp_mono hrun ?_ fun _ _ hf => hf
    rintro ok m ⟨hok, hfetched, hsent⟩
    refine ⟨hok, h.delivered hfile (Nat.zero_le _) htoken rfl ?_ hfetched hsent⟩
    rw [hnone]
    exact fun n hn => absurd hn List.not_mem_nil
  · obtain ⟨f, hleft⟩ := h.leftover hc
    have htoken : ((sha256 body).take TOKEN_SIZE).length = TOKEN_SIZE := by
      rw [List.length_take, sha256_length]
      rfl
    have hlen : (body.take k).length = k := List.length_take_of_le hle
    obtain ⟨g, hg, hres, hsame⟩ := resumes_leftover hleft.slot hleft.data hleft.front (fun _ => rfl)
      fun hne => absurd rfl hne
    have hof : C.partialsOf os dest = [partialBase (Path.tail dest) (sha256 body)] := by
      rw [h.cPartialsOf, hone, partialName_plain h.plain.no_slash, h.tail]
    obtain ⟨q, hfind, hq⟩ := C.findPartial_leftover h.destDir (sha256_length body) hname hof hleft.slot
      hleft.data
    have hnat : (UInt64.ofNat (body.take k).length).toNat = (body.take k).length := by
      rw [UInt64.toNat_ofNat']
      have := hleft.length_lt
      have : OFF_MAX = 2 ^ 63 := rfl
      omega
    have hpath : (C.Found.found q (UInt64.ofNat (body.take k).length)
        ((sha256 body).take TOKEN_SIZE)).path?.bind os.locate =
          some (partialAt os.cwd dest (sha256 body)) := hq
    have hrun := @C.doGet_delivers S os ∅ dest body g ((sha256 body).take TOKEN_SIZE) os.cwd t
      (body.take k).length p (.found q (UInt64.ofNat (body.take k).length)
        ((sha256 body).take TOKEN_SIZE)) hfile h.site hname hfind hnat rfl
      (by
        rintro q' ⟨⟩
        exact ⟨f, Os.at?_eq_some.mpr ⟨_, hq, hleft.slot⟩⟩)
      htoken (by rw [hlen]; exact hle) hg (by rw [hpath]; exact hres) (by rw [hpath]; exact hsame)
    rw [hpath] at hrun
    refine Proc.wp_mono hrun ?_ fun _ _ hf => hf
    rintro ok m ⟨hok, hfetched, hsent⟩
    refine ⟨hok, h.delivered hfile (by rw [hlen]; exact hle) htoken ?_ (h.parts_at hone) hfetched hsent⟩
    rw [startOffset_token, hlen]

/-- **Either client's download.** -/
theorem get_awaits (hfile : HasFile S t body) (h : Awaits os dest body k) (impl : Impl) :
    impl.Get (serverReply S) os (encode t) dest fun ok m => ok = true ∧ Delivered S dest body k m := by
  cases impl with
  | python =>
    intro output hdest
    apply Proc.ensures_of_wp (Net.served_live _)
    exact Proc.wp_mono (doGet_awaits hfile h hdest) (fun _ _ hd => ⟨rfl, hd⟩) fun _ _ hf => hf.elim
  | c =>
    apply Proc.ensures_of_wp (Net.served_live _)
    exact Proc.wp_mono (C.doGet_awaits hfile h) (fun _ _ hd => hd) fun _ _ hf => hf.elim

end Download

/-! ## Both ways -/

/-- An upload and then a download of what it has published: both succeed, the destination holds the body,
each way exactly what the receiver lacked is sent, and no partial is left. -/
def RoundTrip (S : Os) (t : Text) (body : Bytes) (held : Nat) (up : Impl) (osUp : Os) (path : Bytes)
    (down : Impl) (os : Os) (dest : Bytes) (kept : Nat) : Prop :=
  up.Put (serverReply S) osUp path (encode t) fun ok m₁ =>
    ok = true ∧ m₁.net.sent = putBytes body (encode t) ++ body.drop held ∧
    (serverRun S m₁.net.sent).os.content (encode t) = some body ∧
    (serverRun S m₁.net.sent).os.at? (partialName (encode t) (sha256 body)) = none ∧
    down.Get (serverReply (serverRun S m₁.net.sent).os) os (encode t) dest fun ok m₂ =>
      ok = true ∧ Delivered (serverRun S m₁.net.sent).os dest body kept m₂

section Both

variable {S osUp os : Os} {t : Text} {body path dest : Bytes} {held kept : Nat}

theorem Expects.heldOf (h : Expects S t body held) : heldOf S t body = body.take held := by
  have hheld : Retriever.heldOf S t body =
      keptOf body.length (S.content (partialName (encode t) (sha256 body))) := rfl
  rw [hheld]
  rcases h.held with ⟨hnone, rfl⟩ | ⟨hc, hle⟩
  · rw [Os.content, hnone]
    rfl
  · rw [hc]
    exact if_pos (List.length_take_le' held body)

theorem Expects.not_dir (h : Expects S t body held) :
    S.at? (uploadRequest t body).partialPath ≠ some .subdir := by
  intro hdir
  rcases h.held with ⟨hnone, -⟩ | ⟨hc, -⟩
  · rw [show (uploadRequest t body).partialPath = partialName (encode t) (sha256 body) from rfl,
      hnone] at hdir
    cases hdir
  · obtain ⟨i, hat, -⟩ := Os.content_at hc
    rw [show (uploadRequest t body).partialPath = partialName (encode t) (sha256 body) from rfl,
      hat] at hdir
    cases hdir

/-- **The round trip**, for every name and body, either uploader and either downloader. -/
theorem round_trip (hserver : Expects S t body held) (hbody : osUp.content path = some body)
    (hclient : Awaits os dest body kept) (up down : Impl) :
    RoundTrip S t body held up osUp path down os dest kept := by
  obtain ⟨verdict, hput⟩ := put_settles ⟨hserver.name, hserver.size, hserver.absent⟩ hserver.not_dir
    hserver.takes hbody up
  have hheld := hserver.heldOf
  have hle : held ≤ body.length := by
    rcases hserver.held with ⟨-, rfl⟩ | ⟨-, hle⟩
    · exact Nat.zero_le _
    · exact hle
  have hlen : (body.take held).length = held := List.length_take_of_le hle
  apply hput.mono
  rintro ok m₁ ⟨hok, -, hsent, -, hsettled⟩
  rw [hheld, hlen] at hsent
  rcases hsettled with ⟨hverdict, hcontent, hgone⟩ | ⟨-, hhash, -, -⟩
  · rw [hheld, hlen, List.take_append_drop] at hcontent
    exact ⟨hok.mpr hverdict, hsent, hcontent, hgone, get_awaits ⟨hserver.name, hcontent⟩ hclient down⟩
  · rw [hheld, hlen, List.take_append_drop] at hhash
    exact absurd rfl hhash

end Both

/-- One byte of two is held on either side. -/
theorem round_trip_resumed :
    RoundTrip (lone (partialBase (ascii "a") (sha256 [1, 2])) [1]) ['a'] [1, 2] 1
      .python (lone (ascii "f") [1, 2]) (ascii "f")
      .c (lone (partialBase (ascii "b") (sha256 [1, 2])) [1]) (ascii "b") 1 := by
  have hlooks : (lone (partialBase (ascii "a") (sha256 [1, 2])) [1]).at? (encode ['a']) = none ∧
      (lone (partialBase (ascii "a") (sha256 [1, 2])) [1]).content
        (partialName (encode ['a']) (sha256 [1, 2])) = some [1] ∧
      (lone (ascii "f") [1, 2]).content (ascii "f") = some [1, 2] ∧
      (lone (partialBase (ascii "b") (sha256 [1, 2])) [1]).at? (ascii "b") = none ∧
      (lone (partialBase (ascii "b") (sha256 [1, 2])) [1]).parts =
        [partialName (ascii "b") (sha256 [1, 2])] ∧
      (lone (partialBase (ascii "b") (sha256 [1, 2])) [1]).content
        (partialName (ascii "b") (sha256 [1, 2])) = some [1] ∧
      (partialName (ascii "b") (sha256 [1, 2])).length ≤ 255 ∧
      (partialName (encode ['a']) (sha256 [1, 2])).length ≤ 255 := by decide +kernel
  obtain ⟨hfree, hheld, hbody, habsent, hparts, hkept, hshort, hshort'⟩ := hlooks
  have hserver : Expects (lone (partialBase (ascii "a") (sha256 [1, 2])) [1]) ['a'] [1, 2] 1 :=
    ⟨by decide, by decide, hfree, ⟨by decide, decide_eq_true hshort'⟩, .inr ⟨hheld, by decide⟩⟩
  have hclient : Awaits (lone (partialBase (ascii "b") (sha256 [1, 2])) [1]) (ascii "b") [1, 2] 1 :=
    ⟨⟨by decide, by decide, by decide, by decide⟩, habsent, by decide, decide_eq_true hshort,
      fun n hn => of_decide_eq_true hn, .inr ⟨hparts, hkept, by decide⟩⟩
  exact round_trip hserver hbody hclient .python .c

end Retriever
