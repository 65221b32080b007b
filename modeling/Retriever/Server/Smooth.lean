/-
# Retriever.Server.Smooth — when every call succeeds

The lone session of `Net.wire`, as long as no filesystem call fails. A PUT then ends as `PutEnds`
says without any condition on the directory: where the conditions of `handlePut_admitted` are not
met, some call fails before it matters (`takeBody_fails`, `settleUpload_fails`).
-/
import Retriever.Server.Put

namespace Retriever

open Proc (Yields)

/-- The filesystem call did not do what it was asked to. That nothing is found is an answer. -/
def FsOp.Fails : (o : FsOp) → o.Ans → Prop
  | .stat _, _ => False
  | .openRb _, a => ∃ e, a = .error e
  | .openAb _, a => ∃ e, a = .error e
  | .openWb _, a => ∃ e, a = .error e
  | .read _ _ _, a => ∃ e, a = .error e
  | .write _ _, a => ∃ e, a = .error e
  | .unlink _, a => ∃ e, a = .error e
  | .remove _, a => ∃ e, a = .error e
  | .link _ _, a => ∃ e, a = .error e
  | .rename _ _, a => ∃ e, a = .error e
  | .listdir _, a => ∃ e, a = .error e

/-- The call succeeded; that nothing more comes from the client is not a failure. -/
def Sys.Succeeds : (o : Sys) → o.Ans → Prop
  | .fs o, a => ¬ o.Fails a
  | _, _ => True

/-- A client whose bytes are fixed, and a filesystem that does what it is asked to. -/
def Net.smooth : Proc.Env Sys Sys.Ans (Machine Wire) := Net.wire.env.restrict Sys.Succeeds

section

variable {α : Type} {m : Machine Wire} {Q : α → Machine Wire → Prop}
  {E : Exn → Machine Wire → Prop}

/-- What follows a call that fails does not happen. -/
theorem wp_smooth_fails {o : FsOp} {k : o.Ans → Py α} (h : o.Fails (m.os.run o).1) :
    (Proc.call (.fs o) k : Py α).wp Net.smooth Q E m := by
  refine ⟨trivial, ?_⟩
  rintro a m' ⟨⟨rfl, -⟩, hok⟩
  exact absurd h hok

theorem Proc.Yields.smooth {p : Py α} {r : Except Exn α} {m' : Machine Wire}
    (h : Yields Net.wire.env p m r m') (hQ : ∀ a, r = .ok a → Q a m')
    (hE : ∀ e, r = .error e → E e m') : p.wp Net.smooth Q E m :=
  Proc.wp_restrict (h.wp hQ hE)

/-- One step of a program after another, in the smooth environment. -/
theorem Proc.Yields.smooth_bind {β : Type} {p : Py β} {f : β → Py α} {b : β} {m' : Machine Wire}
    (h : Yields Net.wire.env p m (.ok b) m') (hf : (f b).wp Net.smooth Q E m') :
    (p >>= f).wp Net.smooth Q E m := by
  refine Proc.wp_bind.mpr (h.smooth ?_ ?_)
  · intro a ha
    cases ha
    exact hf
  · intro e he
    cases he

end

/-! ## Uploads that get stuck -/

section

variable {m : Machine Wire} {p name digest : Bytes} {lp ln : Loc} {fileSize i : Nat}
  {Q : Unit → Machine Wire → Prop} {E : Exn → Machine Wire → Prop}

/-- The rest of `takeBody`, when the partial cannot be opened. -/
theorem takeBody_unopened {offset : Nat} (hoff : offset < 256 ^ 8)
    (hopen : (m.os.run (.openAb p)).1 = .error .osError) :
    (Proc.ofExcept (toBytes 8 offset) >>= fun offset8 =>
      writeFrame T_OK offset8 >>= fun _ =>
        Py.openAb p >>= fun out =>
          receiveBody out fileSize (fileSize - offset) offset : Py Unit).wp Net.smooth Q E m := by
  rw [toBytes_of_lt hoff, Proc.ofExcept_ok, Proc.done_bind]
  apply (yields_writeFrame (by simp) m).smooth_bind
  exact wp_smooth_fails ⟨_, hopen⟩

/-- A directory in the place of the partial: it cannot be removed, nor opened. -/
theorem takeBody_fails_subdir (hat : m.os.at? p = some .subdir) :
    (takeBody p fileSize).wp Net.smooth Q E m := by
  have hst := Os.statAt_dir hat
  have hexists : Yields Net.wire.env (Py.pathExists p) m (.ok true) m :=
    Py.wpm_pathExists.mpr ⟨by rw [hst]; rfl, rfl⟩
  have hsize : Yields Net.wire.env (Py.getsize p) m (.ok m.os.dirSize) m :=
    (Py.wpm_getsize hst).mpr ⟨rfl, rfl⟩
  have hheld := hexists.bind (f := fun b => if b = true then Py.getsize p else pure 0)
    (by simpa using hsize)
  unfold takeBody
  rw [resumeOffset_eq, bind_assoc]
  apply hheld.smooth_bind
  by_cases hbig : m.os.dirSize > fileSize
  · rw [if_pos hbig]
    refine wp_smooth_fails ⟨.osError, ?_⟩
    rw [Os.run_unlink_dir hat]
  · rw [if_neg hbig]
    refine takeBody_unopened ?_ ?_
    · exact lt_trans m.os.dirSmall (by decide)
    · rw [Os.run_openAb_dir hat]

/-- The filesystem does not take the name of the partial. -/
theorem takeBody_fails_new (hl : m.os.locate p = some lp)
    (hold : ∀ c, m.os.content p = some c → fileSize < c.length)
    (hc : m.os.creatable lp = false) : (takeBody p fileSize).wp Net.smooth Q E m := by
  have hno : ∀ os : Os, os.locate p = some lp → os.slot lp = none → os.creatable lp = false →
      (os.run (.openAb p)).1 = .error .osError := by
    intro os hl hs hc
    simp [Os.run, Os.openNew, hl, hs, hc]
  unfold takeBody
  rcases resumeOffset_yields p fileSize m with ⟨hat, -⟩ | ⟨hat, -⟩ | ⟨i, hat, hle, -⟩ |
    ⟨i, l, hl', hs, -, hy⟩ | ⟨hat, hy⟩
  · exact takeBody_fails_subdir hat
  · exact takeBody_fails_subdir hat
  · have hlt := hold (m.os.store.data i) (by rw [Os.content, hat, Os.bytesOf])
    omega
  · obtain rfl : lp = l := Option.some.inj (hl.symm.trans hl')
    refine hy.smooth_bind (takeBody_unopened (by decide) (hno _ ?_ ?_ hc))
    · rw [Os.locate_removeAt hs, hl]
    · rw [Os.removeAt_slot (Os.not_prefix_of_slot (by rw [hs]; simp)), if_pos rfl]
  · exact hy.smooth_bind (takeBody_unopened (by decide)
      (hno _ hl (Os.at?_eq_none.mp hat lp hl) hc))

/-- The filesystem does not take the name. -/
theorem settleUpload_fails (hl : m.os.locate p = some lp) (hs : m.os.slot lp = some (.file i))
    (hn : m.os.locate name = some ln) (hfree : m.os.slot ln = none)
    (hc : m.os.creatable ln = false) (hd : sha256 (m.os.store.data i) = digest) :
    (settleUpload name p digest).wp Net.smooth Q E m := by
  have hat := Os.at?_eq_some.mpr ⟨lp, hl, hs⟩
  have hopen : Yields Net.wire.env (Py.openRb p) m (.ok i) m := by
    apply Py.wpm_openRb.mpr
    simp only [Os.run, hat]
    exact ⟨rfl, rfl⟩
  have hread : Yields Net.wire.env (Py.read i 0 8) m (.ok _) m := Py.wpm_read.mpr ⟨rfl, rfl⟩
  unfold settleUpload
  apply (yields_sha256File hat).smooth_bind
  rw [if_neg (not_ne_iff.mpr hd)]
  unfold publish
  refine hopen.smooth_bind (hread.smooth_bind ?_)
  refine wp_smooth_fails ⟨.osError, ?_⟩
  simp [Os.run, hl, hn, hs, hfree, hc]

end

/-! ## The handler -/

/-- An upload that is let in ends as `Uploads` says. -/
theorem receiveUpload_smooth {m : Machine Wire} {req : PutRequest} (hn : Plain req.path)
    (hp : Plain req.partialPath) (hne : req.path ≠ req.partialPath)
    (hsize : req.fileSize ≤ MAX_FILE_SIZE) (hfree : m.os.at? req.path = none) :
    (receiveUpload req.path req.partialPath req.fileSize req.digest).wp Net.smooth
      (fun _ m' => m'.inFlight = m.inFlight ∧ Os.Confined (req.Paths m.os) m.os m'.os ∧
        req.Uploads m (.ok ()) m')
      (fun e m' => m'.inFlight = m.inFlight ∧ Os.Confined (req.Paths m.os) m.os m'.os ∧
        req.Uploads m (.error e) m') m := by
  have hlp := Os.locate_plain m.os hp
  by_cases hfile : m.os.at? req.partialPath = some .subdir
  · rw [receiveUpload_eq_takeBody]
    exact Proc.wp_bind.mpr (takeBody_fails_subdir hfile)
  · by_cases hap : (∀ c, m.os.content req.partialPath = some c → req.fileSize < c.length) →
        m.os.accepts req.partialPath = true
    · by_cases han : req.need m.os ≤ m.net.input.length →
          sha256 (req.complete m.os m.net.input) = req.digest → m.os.accepts req.path = true
      · obtain ⟨r, m', hy, hin, hframe, hup⟩ :=
          receiveUpload_yields hn hp hne hsize hfree hfile hap han
        refine hy.smooth ?_ ?_
        · rintro a rfl
          exact ⟨hin, hframe, hup⟩
        · rintro e rfl
          exact ⟨hin, hframe, hup⟩
      · -- the verified partial cannot be given its name
        simp only [Classical.not_imp, Bool.not_eq_true] at han
        obtain ⟨hlong, hd, hac⟩ := han
        obtain ⟨i, os, hfill, hbody⟩ := takeBody_fills hn hp hne hsize hfree hfile hap
        rw [if_pos hlong] at hbody
        rw [receiveUpload_eq_takeBody]
        refine hbody.smooth_bind (settleUpload_fails (hfill.at_partial hp) hfill.slot
          ((hfill.locate _).trans (Os.locate_plain m.os hn)) hfill.free ?_ ?_)
        · show os.creatable _ = false
          simp only [Os.creatable, List.getLast?_append_cons, List.getLast?_singleton,
            hfill.frame.accepts]
          exact hac
        · rw [← hd, ← hfill.data]
          rfl
    · simp only [Classical.not_imp, Bool.not_eq_true] at hap
      rw [receiveUpload_eq_takeBody]
      refine Proc.wp_bind.mpr (takeBody_fails_new hlp hap.1 ?_)
      simpa [Os.creatable] using hap.2

/-- **How a PUT ends when its calls succeed**, whatever the directory. -/
theorem handlePut_smooth {payload : Bytes} {m : Machine Wire}
    (hlone : ∀ req, parsePut payload = .ok req → req.partialPath ∉ m.inFlight) :
    (handlePut payload).wp Net.smooth (fun _ m' => PutEnds payload m (.ok ()) m')
      (fun e m' => PutEnds payload m (.error e) m') m := by
  by_cases hadm : ∃ req, parsePut payload = .ok req ∧ req.Admitted m.os
  · obtain ⟨req, hparse, hadm⟩ := hadm
    have hthere : ¬ (m.os.at? req.path).isSome = true := by simp [hadm.free]
    have hends : ∀ r m', m'.inFlight = m.inFlight → Os.Confined (req.Paths m.os) m.os m'.os →
        req.Uploads m r m' → PutEnds payload m r m' := by
      intro r m' hin hframe hup
      simp only [PutEnds, hparse, hadm.name, Bool.true_eq_false, if_false,
        if_neg (Nat.not_lt.mpr hadm.size), if_neg hthere]
      exact ⟨hin, hframe, hup⟩
    unfold handlePut
    simp only [hparse, Proc.ofExcept_ok, Proc.done_bind, hadm.name, Bool.true_eq_false, if_false,
      if_neg (Nat.not_lt.mpr hadm.size)]
    apply (yields_pathExists req.path m).smooth_bind
    rw [if_neg hthere]
    apply (yields_reserve (hlone req hparse)).smooth_bind
    rw [if_neg (by decide)]
    -- the reservation is given back
    have hback : ∀ m' : Machine Wire, m'.inFlight = insert req.partialPath m.inFlight →
        m'.inFlight.erase req.partialPath = m.inFlight := by
      intro m' hin
      rw [hin]
      exact Finset.erase_insert (hlone req hparse)
    refine Proc.wp_ensure.mpr (Proc.wp_mono (receiveUpload_smooth
      (m := { m with inFlight := insert req.partialPath m.inFlight }) hadm.plain
      (Plain.partialName hadm.plain.no_slash _) (PutRequest.path_ne_partial hadm.plain.no_slash)
      hadm.size hadm.free) ?_ ?_)
    · rintro a m' ⟨hin, hframe, hup⟩
      apply (Py.yields_discard _ m').smooth (fun _ _ => hends _ _ (hback m' hin) hframe hup)
      rintro e ⟨⟩
    · rintro e m' ⟨hin, hframe, hup⟩
      apply (Py.yields_discard _ m').smooth (fun _ _ => hends _ _ (hback m' hin) hframe hup)
      rintro e ⟨⟩
  · -- the request is refused
    obtain ⟨r, m', hy, hends⟩ := handlePut_yields hlone
      (fun req hp h => absurd ⟨req, hp, h⟩ hadm) (fun req hp h => absurd ⟨req, hp, h⟩ hadm)
    refine hy.smooth ?_ ?_
    · rintro a rfl
      exact hends
    · rintro e rfl
      exact hends

end Retriever
