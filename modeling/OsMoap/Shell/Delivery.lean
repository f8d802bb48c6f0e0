import Mathlib.Data.List.TakeWhile
import OsMoap.Shell.Isolation

/-!
# What a Substitution Delivers

`expbackq` of `guest/busybox/upstream/shell/ash.c` reads the file of a substitution back and takes
the status from `osd_bq_status`.  In a shell with `fork` the bytes would come through a pipe and the
status from `exitreset` and `exitshell` of the subshell.
-/

namespace OsMoap.Shell

open OsMoap.Lib OsMoap.Pack

/-! ## Descriptions stay what they are -/

/-- Every description is still of its file, opened as it was. -/
def Remain (io io' : Io) : Prop :=
  ∀ (d : ℕ) (desc : Description), io.descs[d]? = some desc →
    ∃ desc' : Description, io'.descs[d]? = some desc' ∧ desc'.ino = desc.ino ∧
      desc'.access = desc.access

namespace Remain

theorem of_descs {io io' : Io} (h : io'.descs = io.descs) : Remain io io' := by
  intro d desc hd
  exact ⟨desc, by rw [h, hd], rfl, rfl⟩

theorem trans {io io' io'' : Io} (h : Remain io io') (h' : Remain io' io'') : Remain io io'' := by
  intro d desc hd
  obtain ⟨desc', hd', hino, haccess⟩ := h d desc hd
  obtain ⟨desc'', hd'', hino', haccess'⟩ := h' d desc' hd'
  exact ⟨desc'', hd'', hino'.trans hino, haccess'.trans haccess⟩

/-- Offset and record of a description change. -/
theorem set {io io' : Io} {e : ℕ} {desc new : Description} (he : io.descs[e]? = some desc)
    (h : io'.descs = io.descs.set e new) (hino : new.ino = desc.ino)
    (haccess : new.access = desc.access) : Remain io io' := by
  intro d desc' hd
  by_cases hed : e = d
  · subst hed
    obtain rfl := Option.some.inj (he.symm.trans hd)
    have hlt : e < io.descs.length := (List.getElem?_eq_some_iff.mp he).1
    exact ⟨new, by rw [h, List.getElem?_set_self hlt], hino, haccess⟩
  · exact ⟨desc', by rw [h, List.getElem?_set_ne hed, hd], rfl, rfl⟩

theorem write (io : Io) (fd : ℕ) (bs : Bytes) : Remain io (io.write fd bs) := by
  rw [Io.write]
  split
  · exact of_descs rfl
  · rename_i e desc hdesc
    split
    · exact set (description_eq_some hdesc).2 rfl rfl rfl
    · exact of_descs rfl

theorem read (io : Io) (fd n : ℕ) : Remain io (io.read fd n).2 := by
  rw [Io.read]
  split
  · exact of_descs rfl
  · rename_i e desc hdesc
    split_ifs
    · exact set (description_eq_some hdesc).2 rfl rfl rfl
    · exact of_descs rfl

theorem rewind (io : Io) (fd : ℕ) : Remain io (io.rewind fd) := by
  rw [Io.rewind]
  split
  · exact of_descs rfl
  · rename_i e desc hdesc
    exact set (description_eq_some hdesc).2 rfl rfl rfl

theorem fflushAll (io : Io) : Remain io io.fflushAll := (write io 1 io.stdout).trans (of_descs rfl)

theorem dupfd (io : Io) (fd min : ℕ) : Remain io (io.dupfd fd min).2 := by
  rw [Io.dupfd]
  split
  · exact of_descs rfl
  · exact of_descs rfl

theorem dup2 (io : Io) (old new : ℕ) : Remain io (io.dup2 old new).2 := by
  rw [Io.dup2]
  split
  · exact of_descs rfl
  · exact of_descs rfl

theorem openFile {io io' : Io} {path : Text} {access : Access} {fd : ℕ}
    (h : io.openFile path access = some (fd, io')) : Remain io io' := by
  have hinstall : ∀ (io₁ : Io) (ino : ℕ), io₁.descs = io.descs →
      Remain io (io₁.install ino access).2 := by
    intro io₁ ino hdescs d desc hd
    refine ⟨desc, install_descs.mpr (Or.inl ?_), rfl, rfl⟩
    rw [hdescs, hd]
  rw [Io.openFile] at h
  split at h
  · cases h
    exact hinstall _ _ rfl
  · split_ifs at h
    cases h
    exact hinstall _ _ rfl

theorem run (io : Io) (op : Op) : Remain io (io.run op) := by
  cases op with
  | getc =>
    obtain ⟨stdin, heq | heq⟩ := Io.getc_eq io
    · rw [Io.run, heq]
      exact of_descs rfl
    · rw [Io.run, heq]
      exact (read io 0 Io.bufsiz).trans (of_descs rfl)
  | put bs => exact of_descs rfl
  | flush => exact fflushAll io
  | read fd n => exact read io fd n
  | write fd bs => exact write io fd bs
  | create path bs =>
    rw [Io.run]
    split
    · exact of_descs rfl
    · rename_i fd io' hopen
      exact (openFile hopen).trans ((write io' fd bs).trans (of_descs rfl))
  | unlink path => exact of_descs rfl

theorem runAll (io : Io) (ops : List Op) : Remain io (io.runAll ops) := by
  induction ops generalizing io with
  | nil => exact of_descs rfl
  | cons op ops ih => exact (run io op).trans (ih (io.run op))

theorem of_call {ops : Op → Bool} {opens : Text → Access → Bool} {io io' : Io}
    (h : Call ops opens io io') : Remain io io' := by
  cases h with
  | op _ => exact run io _
  | fflushAll => exact fflushAll io
  | purge => exact of_descs rfl
  | dupfd fd min => exact dupfd io fd min
  | dup2 old new => exact dup2 io old new
  | close fd => exact of_descs rfl
  | source hopen => exact openFile hopen
  | redir _ hopen => exact openFile hopen
  | stage hopen => exact openFile hopen
  | unlink n => exact of_descs rfl

theorem of_captureCall {depth : ℕ} {io io' : Io} (h : CaptureCall depth io io') : Remain io io' := by
  cases h with
  | fflushAll => exact fflushAll io
  | dupfd fd min => exact dupfd io fd min
  | dup2 old new => exact dup2 io old new
  | close fd => exact of_descs rfl
  | openFile hopen => exact openFile hopen
  | rewind fd => exact rewind io fd
  | read fd n => exact read io fd n
  | unlink => exact of_descs rfl

end Remain

/-- No evaluation changes what a description is of. -/
theorem evaltree_remain (tested : Bool) (n : Node) {s t : Ash} {r : Except Exn UInt8}
    (hdepth : 0 < s.depth) (h : setjmp (evaltree tested n) s = (.ok r, t)) : Remain s.io t.io := by
  have hframe : EvalFrame (fun _ => true) (fun _ _ => true) (Guards 0 (Remain s.io)) :=
    evalFrame_guards (fun _ _ hcall hio => hio.trans (Remain.of_call hcall))
      fun _ _ _ _ hcall hio => hio.trans (Remain.of_captureCall hcall)
  have hkeeps := keeps_setjmp (evaltree_keeps hframe tested n n.within_true)
  exact ((hkeeps s).of_ok h).2 hdepth (Remain.of_descs rfl)

/-! ## Reading back -/

/-- A piece of the file is read, and the rest comes after it. -/
theorem read_piece {io : Io} {fd d : ℕ} {desc : Description}
    (hdesc : io.description fd = some (d, desc)) (hreads : desc.access.reads = true) (n : ℕ) :
    ∃ bs io', io.read fd n = (some bs, io') ∧ bs = ((io.contents desc.ino).drop desc.offset).take n ∧
      io'.description fd = some (d, { desc with offset := desc.offset + bs.length }) ∧
      io'.data = io.data := by
  obtain ⟨hfd, hd⟩ := description_eq_some hdesc
  have hlt : d < io.descs.length := (List.getElem?_eq_some_iff.mp hd).1
  have hread : io.read fd n = (some (((io.contents desc.ino).drop desc.offset).take n),
      { io with descs := io.descs.set d { desc with
          offset := desc.offset + (((io.contents desc.ino).drop desc.offset).take n).length } }) := by
    simp only [Io.read, hdesc, hreads, if_true]
  refine ⟨_, _, hread, rfl, ?_, rfl⟩
  simp only [Io.description, hfd, Option.bind_some, List.getElem?_set_self hlt, Option.map_some]

/-- **The loop** reads what is left of the file, in pieces. -/
theorem readLoop_all {fd d fuel : ℕ} {desc : Description} {s : Ash}
    (hdesc : s.io.description fd = some (d, desc)) (hreads : desc.access.reads = true)
    (hfuel : (s.io.contents desc.ino).length - desc.offset < fuel) (dest : Bytes) :
    ∃ io, readLoop fd fuel dest s =
      (.ok (dest ++ memtodest ((s.io.contents desc.ino).drop desc.offset)), { s with io := io }) := by
  -- every piece but the last has a byte at least, so the fuel lasts
  induction fuel generalizing dest s desc with
  | zero => omega
  | succ fuel ih =>
    obtain ⟨piece, io, hread, hpiece, hdesc', hdata⟩ := read_piece hdesc hreads 128
    have hsplit : piece ++ (s.io.contents desc.ino).drop (desc.offset + piece.length) =
        (s.io.contents desc.ino).drop desc.offset := by
      rw [← List.drop_drop, hpiece]
      exact List.prefix_iff_eq_append.mp (List.take_prefix 128 _)
    cases piece with
    | nil =>
      have hend : (s.io.contents desc.ino).drop desc.offset = [] :=
        (List.take_eq_nil_iff.mp hpiece.symm).resolve_left (by decide)
      rw [hend, readLoop_end (by rw [hread]; rfl)]
      exact ⟨_, congrArg (fun bs => (Except.ok bs, _)) (List.append_nil dest).symm⟩
    | cons b bs =>
      have hcontents : ∀ ino, io.contents ino = s.io.contents ino :=
        fun ino => by rw [Io.contents, hdata, Io.contents]
      have hshorter : (io.contents desc.ino).length - (desc.offset + (b :: bs).length) < fuel := by
        have hlength := congrArg List.length hsplit
        rw [List.length_append, List.length_drop, List.length_drop, List.length_cons] at hlength
        rw [hcontents, List.length_cons]
        omega
      obtain ⟨io', hloop⟩ := @ih _ { s with io := io } hdesc' hreads hshorter
        (dest ++ memtodest (b :: bs))
      refine ⟨io', ?_⟩
      rw [readLoop_more hread, hloop, ← hsplit]
      simp only [hcontents, memtodest, List.filter_append, List.append_assoc]

/-! ## The status of a subshell -/

def endsByExit : Except Exn UInt8 → Bool
  | .error .exexit => true
  | _ => false

/-- `exitreset` and `exitshell`: what a subshell exits with that has ended in `t`. -/
def subshellStatus (t : Ash) (r : Except Exn UInt8) : UInt8 :=
  if 0 ≤ t.savestatus ∧ (endsByExit r = true ∨ t.evalskip = .skipfuncdef) then
    UInt8.ofNat t.savestatus.toNat
  else t.exitstatus

/-- After `exit`, always; after a return, the status that is in force; after another exception, 2. -/
def StatusCarried (t : Ash) : Except Exn UInt8 → Prop
  | .error .exexit => True
  | .ok a => subshellStatus t (.ok a) = t.exitstatus
  | .error e => subshellStatus t (.error e) = 2

theorem statusCarried_iff (t : Ash) (r : Except Exn UInt8) :
    bqStatusOf t r = subshellStatus t r ↔ StatusCarried t r := by
  rcases r with e | a
  · cases e with
    | exexit =>
      simp only [bqStatusOf, subshellStatus, endsByExit, true_or, and_true, StatusCarried]
    | exint => exact eq_comm
    | exerror => exact eq_comm
    | exend => exact eq_comm
  · exact eq_comm

/-! ## Delivery -/

/-- What was written through the description of the capture, up to the end of the command. -/
def wroteTo (s t : Ash) : Bytes := (t.io.fflushAll.descs[s.io.descs.length]?).elim [] Description.wrote

/-- The bytes and the status that a subshell would give. -/
def Delivers (n : Node) (s : Ash) : Prop :=
  ∃ r t, setjmp (evaltree false n) (nestedState s) = (.ok r, t) ∧
    ∃ bs s', expbackq (evaltree false n) s = (.ok bs, s') ∧ bs = eatNewlines (wroteTo s t) ∧
      s'.backExitstatus = subshellStatus t r

/-- The descriptor of the helper still leads to the capture, and the file holds what was written
through it. -/
structure Intact (s t : Ash) : Prop where
  fd : t.io.fds.get (captureFd s) = some s.io.descs.length
  file : ∀ desc, t.io.fflushAll.descs[s.io.descs.length]? = some desc →
    t.io.fflushAll.contents desc.ino = desc.wrote

theorem captureFd_ne {s : Ash} (h : Capturable s) : captureFd s ≠ 1 ∧ captureFd s ≠ parkedFd s := by
  obtain ⟨d, hd⟩ := Option.ne_none_iff_exists'.mp h.1
  have hfree := ((s.io.fflushAll.dupfd 1 10).2.fds).get_lowest 0
  have heq : (s.io.fflushAll.dupfd 1 10).2.fds.lowest 0 = captureFd s := rfl
  rw [heq, dupfd_stdout hd, Table.get_set] at hfree
  split_ifs at hfree with hparked
  refine ⟨?_, hparked⟩
  intro hone
  rw [hone, hd] at hfree
  cases hfree

theorem openFile_descs {io io' : Io} {path : Text} {access : Access} {fd : ℕ}
    (h : io.openFile path access = some (fd, io')) :
    ∃ ino, io'.descs = io.descs ++ [⟨ino, 0, access, []⟩] := by
  rw [Io.openFile] at h
  split at h
  · cases h
    exact ⟨_, rfl⟩
  · split_ifs at h
    cases h
    exact ⟨_, rfl⟩

theorem fflushAll_descs_length (io : Io) : io.fflushAll.descs.length = io.descs.length := by
  rw [Io.fflushAll, Io.write]
  split
  · rfl
  · split
    · exact List.length_set ..
    · rfl

/-- The capture is a description of its own, for reading and writing. -/
theorem nestedState_capture {s : Ash} (h : Capturable s) :
    ∃ desc, (nestedState s).io.descs[s.io.descs.length]? = some desc ∧ desc.access = rdwrTrunc := by
  obtain ⟨d, io, hd, hopen⟩ := (capturable_iff s).mp h
  have hstate : (nestedState s).io.descs = io.descs := by
    rw [nestedState, beginCapture_of_open hd hopen]
    show (io.dup2 (captureFd s) 1).2.descs = io.descs
    rw [Io.dup2]
    split
    · rfl
    · rfl
  obtain ⟨ino, hdescs⟩ := openFile_descs hopen
  rw [dupfd_stdout hd] at hdescs
  refine ⟨⟨ino, 0, rdwrTrunc, []⟩, ?_, rfl⟩
  rw [hstate, hdescs, ← fflushAll_descs_length]
  exact List.getElem?_concat_length

theorem osdEvalbackcmdInproc_of_setjmp {n : Sh UInt8} {s t : Ash} {r : Except Exn UInt8}
    (h : Capturable s) (hn : setjmp n (nestedState s) = (.ok r, t)) :
    osdEvalbackcmdInproc n s = (.ok (captureFd s), afterNested s (bqStatusOf t r) t) := by
  have hwp : (osdEvalbackcmdInproc n).wp
      (fun fd s' => fd = captureFd s ∧ s' = afterNested s (bqStatusOf t r) t)
      (fun _ _ => False) s := by
    rw [wp_osdEvalbackcmdInproc h, Program.wp]
    rw [setjmp] at hn
    split at hn
    · rename_i heq
      rw [heq]
      cases hn
      exact ⟨rfl, rfl⟩
    · rename_i heq
      rw [heq]
      cases hn
      exact ⟨rfl, rfl⟩
    · cases hn
  obtain ⟨fd, s', hrun, rfl, rfl⟩ := Program.wp_returns.mpr hwp
  exact hrun

/-- What the helper does with descriptors leaves the file, and the file is read from its start. -/
theorem afterNested_description {s t : Ash} {d : ℕ} {desc : Description} (h : Capturable s)
    (hfd : t.io.fds.get (captureFd s) = some d) (hd : t.io.fflushAll.descs[d]? = some desc)
    (status : UInt8) :
    (afterNested s status t).io.description (captureFd s) = some (d, { desc with offset := 0 }) ∧
      (afterNested s status t).io.data = t.io.fflushAll.data := by
  obtain ⟨hone, hparked⟩ := captureFd_ne h
  have hget := afterNested_get hone hparked status t
  have hlt : d < t.io.fflushAll.descs.length := (List.getElem?_eq_some_iff.mp hd).1
  have hback : ((t.io.fflushAll.dup2 (parkedFd s) 1).2.close (parkedFd s)).descs =
      t.io.fflushAll.descs ∧
      ((t.io.fflushAll.dup2 (parkedFd s) 1).2.close (parkedFd s)).data = t.io.fflushAll.data := by
    rw [Io.dup2]
    split
    · exact ⟨rfl, rfl⟩
    · exact ⟨rfl, rfl⟩
  have hdesc : ((t.io.fflushAll.dup2 (parkedFd s) 1).2.close (parkedFd s)).description
      (captureFd s) = some (d, desc) := by
    rw [afterNested, Io.unlink, Io.rewind_fds, hfd] at hget
    rw [Io.description, hget, hback.1, Option.bind_some, hd]
    rfl
  have hrewind : (afterNested s status t).io.descs =
      t.io.fflushAll.descs.set d { desc with offset := 0 } ∧
      (afterNested s status t).io.data = t.io.fflushAll.data := by
    rw [afterNested, Io.unlink, Io.rewind, hdesc, ← hback.1, ← hback.2]
    exact ⟨rfl, rfl⟩
  refine ⟨?_, hrewind.2⟩
  rw [Io.description, hget, hfd, Option.bind_some, hrewind.1, List.getElem?_set_self hlt]
  rfl

/-- **Reading back**: the bytes without the zeros, and the status of the helper. -/
theorem expbackq_of_setjmp {n : Node} {s t : Ash} {r : Except Exn UInt8} (h : Capturable s)
    (hn : setjmp (evaltree false n) (nestedState s) = (.ok r, t)) (hintact : Intact s t) :
    ∃ s', expbackq (evaltree false n) s = (.ok (eatNewlines (memtodest (wroteTo s t))), s') ∧
      s'.backExitstatus = bqStatusOf t r := by
  have hdepth : 0 < (nestedState s).depth := by
    rw [nestedState_depth h]
    exact Nat.succ_pos _
  -- the description of the capture has come through the evaluation and the last flush
  obtain ⟨desc₀, hd₀, haccess₀⟩ := nestedState_capture h
  obtain ⟨desc, hd, -, haccess⟩ :=
    ((evaltree_remain false n hdepth hn).trans (Remain.fflushAll t.io)) _ _ hd₀
  have hwrote : wroteTo s t = desc.wrote := by rw [wroteTo, hd]; rfl
  have hreads : desc.access.reads = true := by rw [haccess, haccess₀]; rfl
  obtain ⟨hdesc, hdata⟩ := afterNested_description h hintact.fd hd (bqStatusOf t r)
  have hcontents : (afterNested s (bqStatusOf t r) t).io.contents desc.ino = desc.wrote := by
    rw [Io.contents, hdata]
    exact hintact.file desc hd
  have hremaining : (afterNested s (bqStatusOf t r) t).io.remaining (captureFd s) =
      desc.wrote.length := by
    rw [Io.remaining, hdesc]
    show ((afterNested s (bqStatusOf t r) t).io.contents desc.ino).length - 0 = _
    rw [hcontents, Nat.sub_zero]
  have hfuel : ((afterNested s (bqStatusOf t r) t).io.contents desc.ino).length - 0 <
      desc.wrote.length + 1 := by
    rw [hcontents]
    omega
  obtain ⟨io, hloop⟩ := readLoop_all hdesc hreads hfuel []
  have hbytes : memtodest (((afterNested s (bqStatusOf t r) t).io.contents desc.ino).drop 0) =
      memtodest desc.wrote := by rw [hcontents, List.drop_zero]
  rw [expbackq, Program.bind_ok (osdEvalbackcmdInproc_of_setjmp h hn), Program.read_bind, hremaining,
    Program.bind_ok hloop, hwrote, ← hbytes]
  exact ⟨_, rfl, rfl⟩

theorem mem_eatNewlines {b : UInt8} {bs : Bytes} (hne : b ≠ 10) :
    b ∈ eatNewlines bs ↔ b ∈ bs := by
  have hsplit := @List.takeWhile_append_dropWhile _ (· == 10) bs.reverse
  rw [eatNewlines, List.mem_reverse, ← @List.mem_reverse _ b bs, ← hsplit, List.mem_append, hsplit]
  constructor
  · exact Or.inr
  · rintro (hmem | hmem)
    · have hten := List.mem_takeWhile_imp hmem
      exact absurd (beq_iff_eq.mp hten) hne
    · exact hmem

/-- Zeros are dropped, and nothing else is. -/
theorem eatNewlines_memtodest_iff (bs : Bytes) :
    eatNewlines (memtodest bs) = eatNewlines bs ↔ 0 ∉ bs := by
  constructor
  · intro h hmem
    rw [← mem_eatNewlines (by decide), ← h, mem_eatNewlines (by decide), memtodest,
      List.mem_filter] at hmem
    exact absurd hmem.2 (by decide)
  · intro h
    have hall : memtodest bs = bs := by
      apply List.filter_eq_self.mpr
      intro b hb
      rw [bne_iff_ne]
      rintro rfl
      exact h hb
    rw [hall]

/-- **Delivery**, exactly: if the command has left the capture alone, the substitution gives the
bytes and the status of a subshell if and only if the capture begins, the command ends, it has
written no zero, and its status is carried. -/
theorem delivers_iff (n : Node) (s : Ash)
    (hintact : ∀ r t, setjmp (evaltree false n) (nestedState s) = (.ok r, t) → Intact s t) :
    Delivers n s ↔ Capturable s ∧ ∃ r t, setjmp (evaltree false n) (nestedState s) = (.ok r, t) ∧
      0 ∉ wroteTo s t ∧ StatusCarried t r := by
  constructor
  · rintro ⟨r, t, hn, bs, s', hrun, hbytes, hstatus⟩
    have hs : Capturable s := by
      by_contra hs
      obtain ⟨s₁, heq, -⟩ := (beginCapture_calls s).2 hs
      rw [expbackq, osdEvalbackcmdInproc, Program.bind_error (Program.bind_error heq _)] at hrun
      cases hrun
    obtain ⟨s₂, hrun', hstatus'⟩ := expbackq_of_setjmp hs hn (hintact r t hn)
    rw [hrun'] at hrun
    cases hrun
    refine ⟨hs, r, t, hn, (eatNewlines_memtodest_iff _).mp hbytes, (statusCarried_iff t r).mp ?_⟩
    rw [← hstatus', hstatus]
  · rintro ⟨hs, r, t, hn, hzero, hcarried⟩
    obtain ⟨s', hrun, hstatus⟩ := expbackq_of_setjmp hs hn (hintact r t hn)
    refine ⟨r, t, hn, _, s', hrun, (eatNewlines_memtodest_iff _).mpr hzero, ?_⟩
    rw [hstatus, (statusCarried_iff t r).mpr hcarried]

/-- A command without words. -/
def plainCommand (c : Command) : Node :=
  .ncmd (.mk .nil false) (.mk .nil false) (.mk .nil false) [] [] c

/-- `echo hi; exit 3`. -/
def echoExit : Node :=
  .nsemi (plainCommand (.builtin false (.plain [.put [104, 105, 10]] 0)))
    (plainCommand (.builtin true (.exitcmd (some 3))))

theorem delivers_echoExit : Delivers echoExit (Ash.start (Io.start [] [])) := by
  have hend : (setjmp (evaltree false echoExit) (nestedState (Ash.start (Io.start [] [])))).1 =
      .ok (.error .exexit) := by
    decide +kernel
  have hfd : (setjmp (evaltree false echoExit)
      (nestedState (Ash.start (Io.start [] [])))).2.io.fds.get 3 = some 2 := by
    decide +kernel
  have hdesc : (setjmp (evaltree false echoExit)
      (nestedState (Ash.start (Io.start [] [])))).2.io.fflushAll.descs[2]? =
        some ⟨2, 3, rdwrTrunc, [104, 105, 10]⟩ := by
    decide +kernel
  have hcontents : (setjmp (evaltree false echoExit)
      (nestedState (Ash.start (Io.start [] [])))).2.io.fflushAll.contents 2 = [104, 105, 10] := by
    decide +kernel
  rcases hn : setjmp (evaltree false echoExit) (nestedState (Ash.start (Io.start [] []))) with ⟨r, t⟩
  rw [hn] at hend hfd hdesc hcontents
  cases hend
  apply (delivers_iff _ _ _).mpr
  · refine ⟨⟨by decide, Or.inr rfl⟩, .error .exexit, t, hn, ?_, trivial⟩
    rw [wroteTo]
    show 0 ∉ (t.io.fflushAll.descs[2]?).elim [] Description.wrote
    rw [hdesc]
    decide
  · intro r' t' hn'
    rw [hn] at hn'
    cases hn'
    refine ⟨hfd, fun desc hd => ?_⟩
    obtain rfl := Option.some.inj (hdesc.symm.trans hd)
    exact hcontents

/-- `set -e; false`. -/
def errexitFalse : Node :=
  .nsemi (plainCommand (.builtin true (.setErrexit true))) (plainCommand (.external [] 1))

/-- A subshell would exit with 1, the status of `false`, and the substitution has 2. -/
theorem not_delivers_errexitFalse :
    ¬ Delivers errexitFalse (Ash.start (Io.start [] [])) ∧
      (expbackq (evaltree false errexitFalse) (Ash.start (Io.start [] []))).2.backExitstatus = 2 := by
  have hstatus : (expbackq (evaltree false errexitFalse)
      (Ash.start (Io.start [] []))).2.backExitstatus = 2 := by
    decide +kernel
  have hend : (setjmp (evaltree false errexitFalse)
      (nestedState (Ash.start (Io.start [] [])))).2.savestatus = -1 ∧
      (setjmp (evaltree false errexitFalse)
        (nestedState (Ash.start (Io.start [] [])))).2.exitstatus = 1 := by
    decide +kernel
  refine ⟨?_, hstatus⟩
  rintro ⟨r, t, hn, bs, s', hrun, -, hcarried⟩
  rw [hn] at hend
  rw [hrun] at hstatus
  rw [subshellStatus, hend.1, hend.2, if_neg fun h => absurd h.1 (by decide)] at hcarried
  exact absurd (hstatus.symm.trans hcarried) (by decide)

end OsMoap.Shell
