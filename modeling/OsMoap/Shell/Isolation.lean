import OsMoap.Shell.Frames
import OsMoap.Shell.Quiet

/-!
# What a Substitution Leaves Behind

`osd_evalbackcmd_inproc` runs the command of a substitution in the shell itself.  It puts back the
registers it has saved and whatever descriptor 1 was; the stacks of redirections, local variables
and input files, the positional parameters and descriptors 0 and 2 are put back by nobody, if the
command does not do so before it ends.
-/

namespace OsMoap.Shell

open OsMoap.Lib OsMoap.Pack

/-! ## The capture -/

/-- `stdout` is open and its file can be made. -/
def Capturable (s : Ash) : Prop :=
  s.io.fds.get 1 ≠ none ∧
    (s.io.names (capturePath .subst s.depth) ≠ none ∨
      s.io.creatable (capturePath .subst s.depth) = true)

/-- The copy of descriptor 1. -/
def parkedFd (s : Ash) : ℕ := s.io.fds.lowest 10

/-- The descriptor of the file. -/
def captureFd (s : Ash) : ℕ := (s.io.fflushAll.dupfd 1 10).2.fds.lowest 0

theorem openFile_isSome_iff {io : Io} {path : Text} {access : Access} (h : access.creates = true) :
    (io.openFile path access).isSome ↔ io.names path ≠ none ∨ io.creatable path = true := by
  rw [Io.openFile, h]
  split
  · rename_i ino hname
    simp [hname]
  · rename_i hname
    cases hcreatable : io.creatable path
    · simp [hname]
    · simp

/-- `stdout` as it is copied. -/
theorem dupfd_stdout {s : Ash} {d : ℕ} (h : s.io.fds.get 1 = some d) :
    s.io.fflushAll.dupfd 1 10 = (some (parkedFd s),
      { s.io.fflushAll with fds := s.io.fds.set (parkedFd s) (some d) }) := by
  rw [Io.dupfd_of_open (d := d)]
  · rw [Io.fflushAll_fds]
    rfl
  · rw [Io.fflushAll_fds, h]

theorem beginCapture_of_open {s : Ash} {d tmpfd : ℕ} {io : Io} (h : s.io.fds.get 1 = some d)
    (hopen : (s.io.fflushAll.dupfd 1 10).2.openFile (capturePath .subst s.depth) rdwrTrunc =
      some (tmpfd, io)) :
    beginCapture s = (.ok (parkedFd s, tmpfd, capturePath .subst s.depth),
      { s with depth := s.depth + 1, io := (io.dup2 tmpfd 1).2 }) := by
  rw [dupfd_stdout h] at hopen
  simp only [beginCapture, Program.read_bind, dupfd_stdout h, hopen]
  rfl

theorem capturable_iff (s : Ash) :
    Capturable s ↔ ∃ d io, s.io.fds.get 1 = some d ∧
      (s.io.fflushAll.dupfd 1 10).2.openFile (capturePath .subst s.depth) rdwrTrunc =
        some (captureFd s, io) := by
  have hopens : ∀ d, s.io.fds.get 1 = some d →
      (((s.io.fflushAll.dupfd 1 10).2.openFile (capturePath .subst s.depth) rdwrTrunc).isSome ↔
        s.io.names (capturePath .subst s.depth) ≠ none ∨
          s.io.creatable (capturePath .subst s.depth) = true) := by
    intro d hd
    rw [openFile_isSome_iff rfl, dupfd_stdout hd]
    show s.io.fflushAll.names _ ≠ none ∨ s.io.fflushAll.creatable _ = true ↔ _
    rw [Io.fflushAll_names, Io.fflushAll_creatable]
  constructor
  · rintro ⟨hone, hfile⟩
    obtain ⟨d, hd⟩ := Option.ne_none_iff_exists'.mp hone
    obtain ⟨⟨tmpfd, io⟩, hopen⟩ := Option.isSome_iff_exists.mp ((hopens d hd).mpr hfile)
    obtain ⟨htmpfd, -⟩ := Io.openFile_cases hopen
    refine ⟨d, io, hd, ?_⟩
    rw [hopen, htmpfd]
    rfl
  · rintro ⟨d, io, hd, hopen⟩
    refine ⟨by rw [hd]; simp, (hopens d hd).mp ?_⟩
    rw [hopen]
    rfl

/-- The calls of a substitution for its own file. -/
inductive CaptureCall (depth : ℕ) : Io → Io → Prop where
  | fflushAll (io : Io) : CaptureCall depth io io.fflushAll
  | dupfd (io : Io) (fd min : ℕ) : CaptureCall depth io (io.dupfd fd min).2
  | dup2 (io : Io) (old new : ℕ) : CaptureCall depth io (io.dup2 old new).2
  | close (io : Io) (fd : ℕ) : CaptureCall depth io (io.close fd)
  | openFile {io io' : Io} {fd : ℕ}
      (h : io.openFile (capturePath .subst depth) rdwrTrunc = some (fd, io')) : CaptureCall depth io io'
  | rewind (io : Io) (fd : ℕ) : CaptureCall depth io (io.rewind fd)
  | read (io : Io) (fd n : ℕ) : CaptureCall depth io (io.read fd n).2
  | unlink (io : Io) : CaptureCall depth io (io.unlink (capturePath .subst depth))

abbrev CaptureCalls (depth : ℕ) : Io → Io → Prop := Relation.ReflTransGen (CaptureCall depth)

/-- However the capture begins, it makes its calls, and an error is all that can be raised. -/
theorem beginCapture_calls (s : Ash) :
    CaptureCalls s.depth s.io (beginCapture s).2.io ∧
      (¬ Capturable s → ∃ s', beginCapture s = (.error (.raised .exerror), s') ∧
        s'.depth = s.depth) := by
  have hdup : CaptureCalls s.depth s.io (s.io.fflushAll.dupfd 1 10).2 :=
    .tail (.single (.fflushAll s.io)) (.dupfd _ 1 10)
  cases hd : s.io.fds.get 1 with
  | none =>
    have hnot : ¬ Capturable s := fun h => h.1 hd
    have hclosed : s.io.fflushAll.dupfd 1 10 = (none, s.io.fflushAll) :=
      Io.dupfd_of_closed (by rw [Io.fflushAll_fds, hd]) 10
    rw [hclosed] at hdup
    simp only [beginCapture, Program.read_bind, hclosed]
    rcases hopen : s.io.fflushAll.openFile (capturePath .subst s.depth) rdwrTrunc with _ | ⟨tmpfd, io⟩
    · exact ⟨hdup.tail (.fflushAll _), fun _ => ⟨_, rfl, rfl⟩⟩
    · exact ⟨((hdup.tail (.openFile hopen)).tail (.close io tmpfd)).tail (.fflushAll _),
        fun _ => ⟨_, rfl, rfl⟩⟩
  | some d =>
    rcases hopen : (s.io.fflushAll.dupfd 1 10).2.openFile (capturePath .subst s.depth) rdwrTrunc with
      _ | ⟨tmpfd, io⟩
    · rw [dupfd_stdout hd] at hopen hdup
      simp only [beginCapture, Program.read_bind, dupfd_stdout hd, hopen]
      exact ⟨(hdup.tail (.close _ (parkedFd s))).tail (.fflushAll _), fun _ => ⟨_, rfl, rfl⟩⟩
    · rw [beginCapture_of_open hd hopen]
      refine ⟨(hdup.tail (.openFile hopen)).tail (.dup2 io tmpfd 1), fun hnot => ?_⟩
      obtain ⟨rfl, -⟩ := Io.openFile_cases hopen
      exact absurd ((capturable_iff s).mpr ⟨d, io, hd, hopen⟩) hnot

/-! ## The helper -/

/-- The state in which the command is evaluated. -/
def nestedState (s : Ash) : Ash := { enterNested (beginCapture s).2 with handler := s.handler + 1 }

/-- What the helper makes of the state in which the command ended. -/
def afterNested (s : Ash) (status : UInt8) (t : Ash) : Ash :=
  { leaveNested s { t with bqStatus := status } with
    handler := s.handler
    depth := t.depth - 1
    io := (((t.io.fflushAll.dup2 (parkedFd s) 1).2.close (parkedFd s)).rewind (captureFd s)).unlink
      (capturePath .subst s.depth) }

section

variable (s : Ash) (status : UInt8) (t : Ash)

@[simp]
theorem afterNested_redirlist : (afterNested s status t).redirlist = t.redirlist := by
  simp only [afterNested, leaveNested]

@[simp]
theorem afterNested_localvars : (afterNested s status t).localvars = t.localvars := by
  simp only [afterNested, leaveNested]

@[simp]
theorem afterNested_parsefiles : (afterNested s status t).parsefiles = t.parsefiles := by
  simp only [afterNested, leaveNested]

@[simp]
theorem afterNested_shellparam : (afterNested s status t).shellparam = t.shellparam := by
  simp only [afterNested, leaveNested]

@[simp]
theorem afterNested_depth : (afterNested s status t).depth = t.depth - 1 := by
  simp only [afterNested]

end

/-- **The helper**: the command ends, and the state is made from the one in which it ended. -/
theorem wp_osdEvalbackcmdInproc {n : Sh UInt8} {s : Ash} (h : Capturable s)
    {Q : ℕ → Ash → Prop} {E : Stop → Ash → Prop} :
    (osdEvalbackcmdInproc n).wp Q E s ↔
      n.wp (fun a t => Q (captureFd s) (afterNested s (bqStatusOf t (.ok a)) t)) (fun
        | .raised e => fun t => Q (captureFd s) (afterNested s (bqStatusOf t (.error e)) t)
        | .exited status => E (.exited status)) (nestedState s) := by
  obtain ⟨d, io, hd, hopen⟩ := (capturable_iff s).mp h
  have hbegin := beginCapture_of_open hd hopen
  have hstate : nestedState s = { enterNested { s with
      depth := s.depth + 1, io := (io.dup2 (captureFd s) 1).2 } with handler := s.handler + 1 } := by
    rw [nestedState, hbegin]
  rw [hstate, osdEvalbackcmdInproc, Program.wp_bind, Program.wp_of_ok hbegin]
  simp only [Program.wp_bind, Program.wp_read, Program.wp_modify, wp_catching, endCapture,
    Program.wp_pure]
  exact Iff.rfl

theorem nestedState_depth {s : Ash} (h : Capturable s) : (nestedState s).depth = s.depth + 1 := by
  obtain ⟨d, io, hd, hopen⟩ := (capturable_iff s).mp h
  rw [nestedState, beginCapture_of_open hd hopen]
  rfl

theorem afterNested_calls (s : Ash) (status : UInt8) (t : Ash) :
    CaptureCalls s.depth t.io (afterNested s status t).io :=
  .tail (.tail (.tail (.tail (.single (.fflushAll t.io)) (.dup2 _ (parkedFd s) 1))
    (.close _ (parkedFd s))) (.rewind _ (captureFd s))) (.unlink _)

/-- A round of the loop that reads something. -/
theorem readLoop_more {fd fuel : ℕ} {dest bs : Bytes} {b : UInt8} {s : Ash} {io : Io}
    (h : s.io.read fd 128 = (some (b :: bs), io)) :
    readLoop fd (fuel + 1) dest s =
      readLoop fd fuel (dest ++ memtodest (b :: bs)) { s with io := io } := by
  rw [readLoop, Program.read_bind, h]
  rfl

/-- A round that does not. -/
theorem readLoop_end {fd fuel : ℕ} {dest : Bytes} {s : Ash}
    (h : (s.io.read fd 128).1.getD [] = []) :
    readLoop fd (fuel + 1) dest s = (.ok dest, { s with io := (s.io.read fd 128).2 }) := by
  rcases hread : s.io.read fd 128 with ⟨_ | _ | ⟨b, bs⟩, io⟩
  · rw [readLoop, Program.read_bind, hread]
    rfl
  · rw [readLoop, Program.read_bind, hread]
    rfl
  · rw [hread] at h
    cases h

/-- The loop of `expbackq` keeps what reading keeps. -/
theorem readLoop_keeps {P : Io → Prop} {fd : ℕ} (hread : ∀ io n, P io → P (io.read fd n).2)
    (fuel : ℕ) (dest : Bytes) (s : Ash) :
    ∃ bs io, readLoop fd fuel dest s = (.ok bs, { s with io := io }) ∧ (P s.io → P io) := by
  induction fuel generalizing dest s with
  | zero => exact ⟨dest, s.io, rfl, id⟩
  | succ fuel ih =>
    have hone := hread s.io 128
    rcases hpiece : s.io.read fd 128 with ⟨_ | _ | ⟨b, bs⟩, io⟩
    · exact ⟨dest, _, readLoop_end (by rw [hpiece]; rfl), hone⟩
    · exact ⟨dest, _, readLoop_end (by rw [hpiece]; rfl), hone⟩
    · rw [hpiece] at hone
      obtain ⟨bs', io', hloop, hkeep⟩ := ih (dest ++ memtodest (b :: bs)) { s with io := io }
      exact ⟨bs', io', (readLoop_more hpiece).trans hloop, fun h => hkeep (hone h)⟩

/-- It only reads. -/
theorem readLoop_calls (fd fuel : ℕ) (dest : Bytes) (s : Ash) (depth : ℕ) :
    ∃ bs io, readLoop fd fuel dest s = (.ok bs, { s with io := io }) ∧
      CaptureCalls depth s.io io := by
  obtain ⟨bs, io, hloop, hcalls⟩ := readLoop_keeps
    (fun io n (h : CaptureCalls depth s.io io) => h.tail (.read io fd n)) fuel dest s
  exact ⟨bs, io, hloop, hcalls .refl⟩

/-! ## What substitutions keep -/

/-- The depth of nesting, and below it what `J` says of the system. -/
def Guards (k : ℕ) (J : Io → Prop) (s s' : Ash) : Prop :=
  s'.depth = s.depth ∧ (k < s.depth → J s.io → J s'.io)

instance (k : ℕ) (J : Io → Prop) : IsPreorder Ash (Guards k J) where
  refl s := ⟨rfl, fun _ h => h⟩
  trans a b c hab hbc := by
    refine ⟨hbc.1.trans hab.1, fun hk hJ => hbc.2 ?_ (hab.2 hk hJ)⟩
    rw [hab.1]
    exact hk

/-- **Substitutions**: what calls keep, those for the files of deeper substitutions included, is
kept by a substitution if its command keeps it. -/
theorem evalFrame_guards {ops : Op → Bool} {opens : Text → Access → Bool} {k : ℕ} {J : Io → Prop}
    (hcall : ∀ io io', Call ops opens io io' → J io → J io')
    (hcapture : ∀ depth io io', k < depth → CaptureCall depth io io' → J io → J io') :
    EvalFrame ops opens (Guards k J) where
  registers s s' hio hdepth := ⟨hdepth, fun _ hJ => by rwa [hio]⟩
  call s io h := ⟨rfl, fun _ hJ => hcall s.io io h hJ⟩
  subst n hn s := by
    have hcaptures : ∀ depth io io', k < depth → CaptureCalls depth io io' → J io → J io' := by
      intro depth io io' hk hcalls hJ
      induction hcalls with
      | refl => exact hJ
      | tail _ hlast ih => exact hcapture depth _ _ hk hlast ih
    obtain ⟨hbegin, herror⟩ := beginCapture_calls s
    apply Program.KeepsAt.bind
    · by_cases hs : Capturable s
      · rw [Program.KeepsAt, wp_osdEvalbackcmdInproc hs]
        -- however the command ends
        have hends : ∀ status t, Guards k J (nestedState s) t →
            Guards k J s (afterNested s status t) := by
          rintro status t ⟨hdepth, hJ⟩
          rw [nestedState_depth hs] at hdepth hJ
          refine ⟨?_, fun hk hstart => ?_⟩
          · show t.depth - 1 = s.depth
            rw [hdepth, Nat.add_sub_cancel]
          · apply hcaptures s.depth t.io _ hk (afterNested_calls s status t)
            exact hJ (Nat.lt_succ_of_lt hk) (hcaptures s.depth s.io _ hk hbegin hstart)
        apply Program.wp_mono (hn (nestedState s))
        · exact fun a t ht => hends _ t ht
        · intro stop t ht
          cases stop with
          | raised e => exact hends _ t (ht trivial)
          | exited status => exact fun hraised => hraised.elim
      · obtain ⟨s', heq, hdepth⟩ := herror hs
        rw [heq] at hbegin
        rw [Program.KeepsAt, osdEvalbackcmdInproc, Program.wp, Program.bind_error heq]
        exact fun _ => ⟨hdepth, fun hk => hcaptures s.depth s.io s'.io hk hbegin⟩
    · intro fd s' _
      obtain ⟨bs, io, hloop, hreads⟩ := readLoop_calls fd (s'.io.remaining fd + 1) [] s' s'.depth
      rw [Program.KeepsAt, Program.wp_bind, Program.wp_read, Program.wp_bind,
        Program.wp_of_ok hloop, Program.wp_bind, Program.wp_modify, Program.wp_pure]
      exact ⟨rfl, fun hk => hcaptures s'.depth s'.io _ hk (hreads.tail (.close io fd))⟩

/-- Every tree keeps the depth of nesting. -/
theorem evaltree_depth (tested : Bool) (n : Node) :
    Keeps (Guards 0 fun _ => True) (evaltree tested n) :=
  evaltree_keeps (evalFrame_guards (fun _ _ _ _ => trivial) fun _ _ _ _ _ _ => trivial) tested n
    n.within_true

/-! ## Isolation -/

/-- What the outer shell has of its own is as it was. -/
structure Isolated (s s' : Ash) : Prop where
  expansion : s'.expansion = s.expansion
  evalskip : s'.evalskip = s.evalskip
  skipcount : s'.skipcount = s.skipcount
  loopnest : s'.loopnest = s.loopnest
  funcline : s'.funcline = s.funcline
  exitstatus : s'.exitstatus = s.exitstatus
  savestatus : s'.savestatus = s.savestatus
  eflag : s'.eflag = s.eflag
  handler : s'.handler = s.handler
  redirlist : s'.redirlist = s.redirlist
  localvars : s'.localvars = s.localvars
  parsefiles : s'.parsefiles = s.parsefiles
  shellparam : s'.shellparam = s.shellparam
  depth : s'.depth = s.depth
  stdin : s'.io.fds.get 0 = s.io.fds.get 0
  stdout : s'.io.fds.get 1 = s.io.fds.get 1
  stderr : s'.io.fds.get 2 = s.io.fds.get 2

/-- The substitution returns to the outer shell and leaves it as it was. -/
def Isolates (n : Node) (s : Ash) : Prop :=
  ∃ fd s', osdEvalbackcmdInproc (evaltree false n) s = (.ok fd, s') ∧ Isolated s s'

/-- What the helper does not save is as the command found it: nothing is pushed, the parameters are
the same, and descriptors 0, 2 and the copy of 1 denote what they did. -/
structure PutsBack (s t : Ash) : Prop where
  redirlist : t.redirlist = s.redirlist
  localvars : t.localvars = s.localvars
  parsefiles : t.parsefiles = s.parsefiles
  shellparam : t.shellparam = s.shellparam
  stdin : t.io.fds.get 0 = s.io.fds.get 0
  copy : (t.io.fds.get (parkedFd s)).or (t.io.fds.get 1) = s.io.fds.get 1
  stderr : t.io.fds.get 2 = s.io.fds.get 2

/-- The command does not end the process, and puts back what it has changed before it returns or
raises. -/
def EndsPutBack (n : Node) (s : Ash) : Prop :=
  (evaltree false n).wp (fun _ => PutsBack s) (fun
    | .raised _ => PutsBack s
    | .exited _ => fun _ => False) (nestedState s)

theorem ne_parkedFd {m : ℕ} (h : m < 10) (s : Ash) : m ≠ parkedFd s := by
  have hle := s.io.fds.le_lowest 10
  rw [parkedFd]
  omega

theorem afterNested_stdout (s : Ash) (status : UInt8) (t : Ash) :
    (afterNested s status t).io.fds.get 1 = (t.io.fds.get (parkedFd s)).or (t.io.fds.get 1) := by
  rw [afterNested, Io.unlink, Io.rewind_fds, Io.close,
    Table.get_set_of_ne _ (ne_parkedFd (by decide) s)]
  cases hcopy : t.io.fds.get (parkedFd s) with
  | none =>
    rw [Io.dup2_of_closed (by rw [Io.fflushAll_fds, hcopy]), Io.fflushAll_fds]
    rfl
  | some d =>
    rw [Io.dup2_of_open (by rw [Io.fflushAll_fds, hcopy])]
    exact Table.get_set_self ..

/-- Only descriptor 1 and its copy change. -/
theorem afterNested_get {s : Ash} {m : ℕ} (hone : m ≠ 1) (hparked : m ≠ parkedFd s) (status : UInt8)
    (t : Ash) : (afterNested s status t).io.fds.get m = t.io.fds.get m := by
  rw [afterNested, Io.unlink, Io.rewind_fds, Io.close, Table.get_set_of_ne _ hparked]
  cases hcopy : t.io.fds.get (parkedFd s) with
  | none => rw [Io.dup2_of_closed (by rw [Io.fflushAll_fds, hcopy]), Io.fflushAll_fds]
  | some d =>
    rw [Io.dup2_of_open (by rw [Io.fflushAll_fds, hcopy])]
    exact (Table.get_set_of_ne _ hone _).trans (by rw [Io.fflushAll_fds])

/-- What the helper saves is put back in any case. -/
theorem isolated_afterNested_iff {s t : Ash} (hdepth : t.depth = s.depth + 1) (status : UInt8) :
    Isolated s (afterNested s status t) ↔ PutsBack s t := by
  constructor
  · intro h
    exact {
      redirlist := by rw [← h.redirlist, afterNested_redirlist]
      localvars := by rw [← h.localvars, afterNested_localvars]
      parsefiles := by rw [← h.parsefiles, afterNested_parsefiles]
      shellparam := by rw [← h.shellparam, afterNested_shellparam]
      stdin := by rw [← h.stdin, afterNested_get (by decide) (ne_parkedFd (by decide) s)]
      copy := by rw [← h.stdout, afterNested_stdout]
      stderr := by rw [← h.stderr, afterNested_get (by decide) (ne_parkedFd (by decide) s)] }
  · -- the registers are put back by the helper, whatever the command did
    intro h
    exact {
      expansion := by simp only [afterNested, leaveNested]
      evalskip := by simp only [afterNested, leaveNested]
      skipcount := by simp only [afterNested, leaveNested]
      loopnest := by simp only [afterNested, leaveNested]
      funcline := by simp only [afterNested, leaveNested]
      exitstatus := by simp only [afterNested, leaveNested]
      savestatus := by simp only [afterNested, leaveNested]
      eflag := by simp only [afterNested, leaveNested]
      handler := by simp only [afterNested, leaveNested]
      redirlist := by rw [afterNested_redirlist, h.redirlist]
      localvars := by rw [afterNested_localvars, h.localvars]
      parsefiles := by rw [afterNested_parsefiles, h.parsefiles]
      shellparam := by rw [afterNested_shellparam, h.shellparam]
      depth := by rw [afterNested_depth, hdepth, Nat.add_sub_cancel]
      stdin := by rw [afterNested_get (by decide) (ne_parkedFd (by decide) s), h.stdin]
      stdout := by rw [afterNested_stdout, h.copy]
      stderr := by rw [afterNested_get (by decide) (ne_parkedFd (by decide) s), h.stderr] }

/-- `{ exit 3; } <f`. -/
def exitRedirected : Node :=
  .nredir (.mk .nil false) [⟨0, .file ['f'] rdonly⟩]
    (.ncmd (.mk .nil false) (.mk .nil false) (.mk .nil false) [] [] (.builtin true (.exitcmd (some 3))))

end OsMoap.Shell
