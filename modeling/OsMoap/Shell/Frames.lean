import OsMoap.Shell.Eval

/-!
# What Every Evaluation Keeps

An evaluation changes the registers of the shell and makes a few kinds of system calls.  What is
kept by the registers, by those calls and by a substitution around an evaluation is kept by every
tree, whether it returns or raises.
-/

namespace OsMoap.Shell

open OsMoap.Lib OsMoap.Pack

/-- Exceptions are caught by a `setjmp`, `_exit` is not. -/
def Stop.IsRaised : Stop → Prop
  | .raised _ => True
  | .exited _ => False

/-- Every run that returns or raises ends in a state related to the one it starts from. -/
abbrev Keeps {α : Type} (R : Ash → Ash → Prop) (m : Sh α) : Prop := Program.Keeps Stop.IsRaised R m

abbrev KeepsAt {α : Type} (R : Ash → Ash → Prop) (m : Sh α) (s : Ash) : Prop :=
  Program.KeepsAt Stop.IsRaised R m s

/-- One call of an evaluation whose commands do what `ops` allows and whose redirections open what
`opens` allows.  The file of a substitution is not among them. -/
inductive Call (ops : Op → Bool) (opens : Text → Access → Bool) : Io → Io → Prop where
  | op (io : Io) {op : Op} (h : ops op = true) : Call ops opens io (io.run op)
  | fflushAll (io : Io) : Call ops opens io io.fflushAll
  | purge (io : Io) : Call ops opens io io.purge
  | dupfd (io : Io) (fd min : ℕ) : Call ops opens io (io.dupfd fd min).2
  | dup2 (io : Io) (old new : ℕ) : Call ops opens io (io.dup2 old new).2
  | close (io : Io) (fd : ℕ) : Call ops opens io (io.close fd)
  /-- A script, or the file of a stage for the next one. -/
  | source {io io' : Io} {path : Text} {fd : ℕ} (h : io.openFile path rdonly = some (fd, io')) :
      Call ops opens io io'
  | redir {io io' : Io} {path : Text} {access : Access} {fd : ℕ} (hopens : opens path access = true)
      (h : io.openFile path access = some (fd, io')) : Call ops opens io io'
  | stage {io io' : Io} {n fd : ℕ}
      (h : io.openFile (capturePath .pipe n) wronlyTrunc = some (fd, io')) : Call ops opens io io'
  | unlink (io : Io) (n : ℕ) : Call ops opens io (io.unlink (capturePath .pipe n))

/-- Some calls in a row. -/
abbrev Calls (ops : Op → Bool) (opens : Text → Access → Bool) : Io → Io → Prop :=
  Relation.ReflTransGen (Call ops opens)

/-- A relation that registers, calls and substitutions keep. -/
structure EvalFrame (ops : Op → Bool) (opens : Text → Access → Bool) (R : Ash → Ash → Prop) : Prop where
  registers : ∀ s s' : Ash, s'.io = s.io → s'.depth = s.depth → R s s'
  call : ∀ (s : Ash) (io : Io), Call ops opens s.io io → R s { s with io := io }
  subst : ∀ n : Sh UInt8, Keeps R n → Keeps R (expbackq n)

section

variable {ops : Op → Bool} {opens : Text → Access → Bool} {R : Ash → Ash → Prop} [IsPreorder Ash R]

theorem EvalFrame.calls (hR : EvalFrame ops opens R) (s : Ash) {io : Io}
    (h : Calls ops opens s.io io) : R s { s with io := io } := by
  induction h with
  | refl => exact Std.Refl.refl s
  | tail _ hcall ih => exact IsTrans.trans _ _ _ ih (hR.call _ _ hcall)

/-- Calls and registers. -/
theorem EvalFrame.step (hR : EvalFrame ops opens R) {s s' : Ash} (h : Calls ops opens s.io s'.io)
    (hdepth : s'.depth = s.depth) : R s s' :=
  IsTrans.trans _ _ _ (hR.calls s h) (hR.registers { s with io := s'.io } s' rfl hdepth)

/-! ## Pure parts -/

theorem calls_runAll {l : List Op} (h : l.all ops = true) (io : Io) :
    Calls ops opens io (io.runAll l) := by
  induction l generalizing io with
  | nil => exact .refl
  | cons op l ih =>
    rw [List.all_cons, Bool.and_eq_true] at h
    exact .head (.op io h.1) (ih h.2 (io.run op))

theorem calls_moveFd (io : Io) (old : Option ℕ) (new : ℕ) :
    Calls ops opens io (io.moveFd old new) := by
  cases old with
  | none => exact .refl
  | some fd => exact .tail (.single (.dup2 io fd new)) (.close _ fd)

theorem calls_reopen (io : Io) (n : ℕ) :
    Calls ops opens io (io.reopen (capturePath .pipe n)).2 := by
  rw [Io.reopen]
  split
  · rename_i fd io' hopen
    exact .tail (.single (.source hopen)) (.unlink io' n)
  · exact .single (.unlink io n)

theorem call_of_dupfd {io io' : Io} {fd min : ℕ} {new : Option ℕ}
    (h : io.dupfd fd min = (new, io')) : Call ops opens io io' := by
  have hcall : Call ops opens io (io.dupfd fd min).2 := .dupfd io fd min
  rwa [h] at hcall

theorem calls_moveScript {io io' : Io} {fd min : ℕ} {pfs pfs' : List Parsefile}
    (h : moveScript io fd min pfs = some (pfs', io')) : Calls ops opens io io' := by
  induction pfs generalizing pfs' with
  | nil => cases h
  | cons pf pfs ih =>
    rw [moveScript] at h
    split_ifs at h
    · split at h
      · rename_i new io₁ hdup
        cases h
        exact .tail (.single (call_of_dupfd hdup)) (.close io₁ fd)
      · cases h
        exact .refl
    · rw [Option.map_eq_some_iff] at h
      obtain ⟨⟨pfs₁, io₁⟩, hrest, heq⟩ := h
      cases heq
      exact ih hrest

theorem calls_saveSlot {io io' : Io} {fd min : ℕ} {sq sq' : Redirtab}
    (h : saveSlot io fd min sq = .saved sq' io') : Calls ops opens io io' := by
  induction sq generalizing sq' with
  | nil =>
    cases h
    exact .single (.dupfd io fd min)
  | cons q sq ih =>
    rw [saveSlot] at h
    split_ifs at h
    · split at h
      · rename_i new io₁ hdup
        cases h
        exact .single (call_of_dupfd hdup)
      · cases h
    · cases h
      exact .refl
    · split at h
      · rename_i hrest
        cases h
        exact ih hrest
      · cases h

variable {α : Type}

/-! ## Exceptions -/

theorem EvalFrame.keeps_modify (hR : EvalFrame ops opens R) {f : Ash → Ash}
    (h : ∀ s, Calls ops opens s.io (f s).io ∧ (f s).depth = s.depth) :
    Keeps R (Program.modify f) :=
  Program.keeps_modify fun s => hR.step (h s).1 (h s).2

omit [IsPreorder Ash R] in
/-- Only registers change. -/
theorem EvalFrame.keeps_registers (hR : EvalFrame ops opens R) {f : Ash → Ash}
    (h : ∀ s, (f s).io = s.io ∧ (f s).depth = s.depth) : Keeps R (Program.modify f) :=
  Program.keeps_modify fun s => hR.registers s (f s) (h s).1 (h s).2

theorem EvalFrame.keeps_onIo (hR : EvalFrame ops opens R) {f : Io → Io}
    (h : ∀ io, Calls ops opens io (f io)) : Keeps R (onIo f) :=
  hR.keeps_modify fun s => ⟨h s.io, rfl⟩

theorem keeps_raiseException (e : Exn) : Keeps R (raiseException e : Sh α) :=
  Program.keeps_stop (Stop.raised e)

theorem EvalFrame.keeps_ashMsgAndRaiseError (hR : EvalFrame ops opens R) :
    Keeps R (ashMsgAndRaiseError : Sh α) := by
  apply Program.Keeps.bind
  · exact hR.keeps_modify fun s => ⟨.single (.fflushAll s.io), rfl⟩
  · exact fun _ => keeps_raiseException .exerror

omit [IsPreorder Ash R] in
theorem keeps_setjmp {m : Sh α} (h : Keeps R m) : Keeps R (setjmp m) := by
  intro s
  rw [Program.KeepsAt, wp_setjmp]
  apply Program.wp_mono (h s)
  · exact fun a s' hs' => hs'
  · intro stop s' hs'
    cases stop with
    | raised e => exact hs' trivial
    | exited status => exact hs'

theorem EvalFrame.keeps_catching (hR : EvalFrame ops opens R) {m : Sh α} (h : Keeps R m) :
    Keeps R (catching m) := by
  refine Program.Keeps.bind Program.keeps_read fun s => ?_
  refine Program.Keeps.bind ?_ fun _ => ?_
  · exact hR.keeps_registers fun t => ⟨rfl, rfl⟩
  refine Program.Keeps.bind (keeps_setjmp h) fun r => ?_
  refine Program.Keeps.bind ?_ fun _ => Program.keeps_pure r
  exact hR.keeps_registers fun t => ⟨rfl, rfl⟩

theorem keeps_reraise (r : Except Exn α) : Keeps R (reraise r) := by
  cases r with
  | ok a => exact Program.keeps_pure a
  | error e => exact keeps_raiseException e

/-! ## Redirections -/

section

variable (hR : EvalFrame ops opens R)

include hR

theorem EvalFrame.keeps_saveFdOnRedirect (fd : ℕ) (avoid : Option ℕ) :
    Keeps R (saveFdOnRedirect fd avoid) := by
  apply Program.keeps_read_bind
  intro s
  split
  · exact Program.keeps_pure false s
  · split
    · rename_i pfs io hmove
      -- a script is moved out of the way
      have hcalls : Calls ops opens s.io io := by
        split_ifs at hmove
        exact calls_moveScript hmove
      exact hR.step hcalls rfl
    · split
      · rename_i hsave
        exact hR.step (calls_saveSlot hsave) rfl
      · exact Program.keeps_stop _ s

theorem EvalFrame.keeps_dup2OrRaise (old new : ℕ) : Keeps R (dup2OrRaise old new) := by
  apply Program.keeps_read_bind
  intro s
  split
  · rename_i io hdup
    have hcall : Call ops opens s.io (s.io.dup2 old new).2 := .dup2 s.io old new
    rw [hdup] at hcall
    exact hR.step (.single hcall) rfl
  · exact hR.keeps_ashMsgAndRaiseError s

theorem EvalFrame.keeps_redirectTo (fd newfd : ℕ) : Keeps R (redirectTo fd newfd) := by
  refine Program.Keeps.bind (hR.keeps_saveFdOnRedirect fd (some newfd)) fun _ => ?_
  refine Program.Keeps.bind Program.keeps_read fun s => ?_
  refine Program.keeps_ite hR.keeps_ashMsgAndRaiseError ?_
  refine Program.Keeps.bind (hR.keeps_dup2OrRaise newfd fd) fun _ => ?_
  exact Program.keeps_ite (hR.keeps_onIo fun io => .single (.purge io)) (Program.keeps_pure ())

theorem EvalFrame.keeps_redirect1 {r : Redir}
    (h : ∀ path access, r.source = .file path access → opens path access = true) :
    Keeps R (redirect1 r) := by
  apply Program.keeps_read_bind
  intro s
  split
  · exact hR.keeps_ashMsgAndRaiseError s
  · rename_i path access hsource
    split
    · exact hR.keeps_ashMsgAndRaiseError s
    · rename_i newfd io hopen
      have hcall : Call ops opens s.io io := .redir (h path access hsource) hopen
      refine Program.KeepsAt.bind (hR.step (.single hcall) rfl) fun _ s' _ => ?_
      refine Program.keeps_ite (hR.keeps_registers fun t => ?_) ?_ s'
      · split
        · exact ⟨rfl, rfl⟩
        · split_ifs
          · exact ⟨rfl, rfl⟩
          · exact ⟨rfl, rfl⟩
      · refine Program.Keeps.bind (hR.keeps_redirectTo r.fd newfd) fun _ => ?_
        exact hR.keeps_onIo fun io => .single (.close io newfd)
  · rename_i newfd hsource
    exact Program.keeps_ite (Program.keeps_pure ()) (hR.keeps_redirectTo r.fd newfd) s
  · refine Program.Keeps.bind (hR.keeps_saveFdOnRedirect r.fd none) (fun closed => ?_) s
    refine Program.keeps_ite (Program.keeps_pure ()) ?_
    exact hR.keeps_onIo fun io => .single (.close io r.fd)

theorem EvalFrame.keeps_redirectsafe {rs : List Redir}
    (h : ∀ r ∈ rs, ∀ path access, r.source = .file path access → opens path access = true) :
    Keeps R (redirectsafe rs) := by
  have hredirect : ∀ rs : List Redir,
      (∀ r ∈ rs, ∀ path access, r.source = .file path access → opens path access = true) →
        Keeps R (redirect rs) := by
    intro rs
    induction rs with
    | nil => exact fun _ => Program.keeps_pure ()
    | cons r rs ih =>
      intro h
      refine Program.Keeps.bind (hR.keeps_redirect1 (h r List.mem_cons_self)) fun _ => ?_
      exact ih fun r' hmem => h r' (List.mem_cons_of_mem _ hmem)
  refine Program.Keeps.bind (hR.keeps_catching (hredirect rs h)) fun r => ?_
  split
  · exact Program.keeps_pure true
  · exact Program.keeps_pure false
  · exact keeps_raiseException _

omit [IsPreorder Ash R] in
theorem EvalFrame.keeps_pushredir (rs : List Redir) : Keeps R (pushredir rs) := by
  apply hR.keeps_registers
  intro s
  split_ifs
  · exact ⟨rfl, rfl⟩
  · exact ⟨rfl, rfl⟩

theorem EvalFrame.keeps_popSlots (drop : Bool) (rp : Redirtab) : Keeps R (popSlots drop rp) := by
  induction rp with
  | nil => exact Program.keeps_pure ()
  | cons sq rp ih =>
    have hclose : ∀ fd, Keeps R (onIo (Io.close · fd)) :=
      fun fd => hR.keeps_onIo fun io => .single (.close io fd)
    rw [popSlots]
    split
    · refine Program.keeps_ite ih ?_
      exact Program.Keeps.bind (hclose sq.origFd) fun _ => ih
    · rename_i copy hcopy
      refine Program.keeps_ite ?_ ?_
      · exact Program.Keeps.bind (hclose copy) fun _ => ih
      · refine Program.Keeps.bind (hR.keeps_dup2OrRaise copy sq.origFd) fun _ => ?_
        exact Program.Keeps.bind (hclose copy) fun _ => ih

theorem EvalFrame.keeps_popredir (drop : Bool) : Keeps R (popredir drop) := by
  apply Program.keeps_read_bind
  intro s
  split
  · exact Program.keeps_pure () s
  · rename_i rp tabs hlist
    refine Program.Keeps.bind (hR.keeps_popSlots drop rp) (fun _ => ?_) s
    exact hR.keeps_registers fun t => ⟨rfl, rfl⟩

theorem EvalFrame.keeps_popredirIf (rs : List Redir) (drop : Bool) : Keeps R (popredirIf rs drop) :=
  Program.keeps_ite (Program.keeps_pure ()) (hR.keeps_popredir drop)

theorem EvalFrame.keeps_unwindredir (n : ℕ) : Keeps R (unwindredir n) := by
  induction n with
  | zero => exact Program.keeps_pure ()
  | succ n ih => exact Program.Keeps.bind (hR.keeps_popredir false) fun _ => ih

/-! ## Pipelines -/

theorem EvalFrame.keeps_openTmp (prevfd : Option ℕ) : Keeps R (openTmp prevfd) := by
  apply Program.keeps_read_bind
  intro s
  split
  · rename_i outfd io hopen
    exact hR.step (.single (.stage hopen)) rfl
  · refine Program.KeepsAt.bind (hR.registers s _ rfl rfl) fun _ s' _ => ?_
    refine Program.Keeps.bind ?_ (fun _ => hR.keeps_ashMsgAndRaiseError) s'
    apply hR.keeps_onIo
    intro io
    cases prevfd with
    | none => exact .refl
    | some fd => exact .single (.close io fd)

theorem EvalFrame.keeps_enterStage (prevfd outfd : Option ℕ) (tmp : Option Text) :
    Keeps R (enterStage prevfd outfd tmp) := by
  intro s
  have hdup : Calls ops opens s.io ((s.io.dupfd 0 10).2.dupfd 1 10).2 :=
    .tail (.single (.dupfd s.io 0 10)) (.dupfd _ 1 10)
  have hmove : Calls ops opens ((s.io.dupfd 0 10).2.dupfd 1 10).2
      ((((s.io.dupfd 0 10).2.dupfd 1 10).2.moveFd prevfd 0).moveFd outfd 1) :=
    (calls_moveFd _ prevfd 0).trans (calls_moveFd _ outfd 1)
  have hstep : R s (enterStage prevfd outfd tmp s).2 :=
    hR.step ((hdup.trans hmove).tail (.purge _)) rfl
  exact hstep

theorem EvalFrame.keeps_beginStage (prevfd : Option ℕ) (last : Bool) :
    Keeps R (beginStage prevfd last) := by
  apply Program.keeps_ite (hR.keeps_enterStage prevfd none none)
  refine Program.Keeps.bind (hR.keeps_openTmp prevfd) fun pair => ?_
  exact hR.keeps_enterStage prevfd (some pair.1) (some pair.2)

omit hR in
/-- The file of a stage is called like one. -/
theorem beginStage_tmp {prevfd : Option ℕ} {last : Bool} {s s' : Ash} {frame : Stage} {tmp : Text}
    (h : beginStage prevfd last s = (.ok frame, s')) (htmp : frame.tmp = some tmp) :
    ∃ n, tmp = capturePath .pipe n := by
  rw [beginStage] at h
  split_ifs at h
  · cases h
    cases htmp
  · obtain ⟨⟨outfd, path⟩, s₁, hopen, henter⟩ := Program.bind_eq_ok h
    cases henter
    cases htmp
    rw [openTmp, Program.read_bind] at hopen
    split at hopen
    · cases hopen
      exact ⟨_, rfl⟩
    · cases hopen

theorem EvalFrame.keeps_endStage {frame : Stage}
    (h : ∀ tmp, frame.tmp = some tmp → ∃ n, tmp = capturePath .pipe n) :
    Keeps R (endStage frame) := by
  refine Program.Keeps.bind (hR.keeps_onIo fun io => ?_) fun _ => ?_
  · exact .trans (.head (.fflushAll io) (calls_moveFd _ frame.save0 0)) (calls_moveFd _ frame.save1 1)
  · split
    · exact Program.keeps_pure none
    · rename_i tmp htmp
      obtain ⟨n, rfl⟩ := h tmp htmp
      apply Program.keeps_read_bind
      intro s
      exact hR.step (calls_reopen s.io n) rfl

theorem EvalFrame.keeps_evalstages {stages : List (Sh UInt8)} (h : ∀ stage ∈ stages, Keeps R stage)
    (prevfd : Option ℕ) (status : UInt8) : Keeps R (evalstages prevfd status stages) := by
  induction stages generalizing prevfd status with
  | nil => exact Program.keeps_pure status
  | cons stage rest ih =>
    intro s
    refine Program.KeepsAt.bind (hR.keeps_beginStage prevfd rest.isEmpty s) fun frame s₁ hbegin => ?_
    refine Program.Keeps.bind (h stage List.mem_cons_self) (fun _ => ?_) s₁
    refine Program.Keeps.bind Program.keeps_read fun t => ?_
    refine Program.Keeps.bind (hR.keeps_endStage fun tmp => beginStage_tmp hbegin) fun prevfd' => ?_
    exact ih (fun stage' hmem => h stage' (List.mem_cons_of_mem _ hmem)) prevfd' t.exitstatus

/-! ## Builtins, functions and files -/

theorem EvalFrame.keeps_breakcmd (skip : Skip) (n : ℕ) : Keeps R (breakcmd skip n) := by
  apply Program.keeps_ite hR.keeps_ashMsgAndRaiseError
  refine Program.Keeps.bind (hR.keeps_registers fun s => ?_) fun _ => Program.keeps_pure 0
  dsimp only
  split_ifs
  · exact ⟨rfl, rfl⟩
  · exact ⟨rfl, rfl⟩
  · exact ⟨rfl, rfl⟩
  · exact ⟨rfl, rfl⟩

omit [IsPreorder Ash R] hR in
theorem mklocal_same (names : List Text) (s : Ash) :
    (names.foldl (fun s name => mklocal name s) s).io = s.io ∧
      (names.foldl (fun s name => mklocal name s) s).depth = s.depth := by
  induction names generalizing s with
  | nil => exact ⟨rfl, rfl⟩
  | cons name names ih =>
    have hone : (mklocal name s).io = s.io ∧ (mklocal name s).depth = s.depth := by
      rw [mklocal]
      split
      · exact ⟨rfl, rfl⟩
      · split_ifs
        · exact ⟨rfl, rfl⟩
        · exact ⟨rfl, rfl⟩
    obtain ⟨hio, hdepth⟩ := ih (mklocal name s)
    exact ⟨hio.trans hone.1, hdepth.trans hone.2⟩

/-- What a builtin may do to streams and files. -/
def Builtin.within (ops : Op → Bool) : Builtin → Bool
  | .plain l _ => l.all ops
  | _ => true

theorem EvalFrame.keeps_shellexec (program : ExecEnd) : Keeps R (shellexec program) := by
  cases program with
  | ran l status => exact fun s h => h.elim
  | failed exerrno =>
    refine Program.Keeps.bind ?_ fun _ => keeps_raiseException .exend
    exact hR.keeps_modify fun s => ⟨.single (.fflushAll s.io), rfl⟩

theorem EvalFrame.keeps_builtin {b : Builtin} (h : b.within ops = true) : Keeps R b.run := by
  -- most builtins only set globals that a frame does not look at
  have hregisters : ∀ {f : Ash → Ash} (status : UInt8),
      (∀ s, (f s).io = s.io ∧ (f s).depth = s.depth) →
        Keeps R (Program.modify f >>= fun _ => (pure status : Sh UInt8)) :=
    fun status hf => Program.Keeps.bind (hR.keeps_registers hf) fun _ => Program.keeps_pure status
  cases b with
  | plain l status =>
    refine Program.Keeps.bind ?_ fun _ => Program.keeps_pure status
    exact hR.keeps_onIo fun io => calls_runAll h io
  | fails => exact hR.keeps_ashMsgAndRaiseError
  | breakcmd n => exact hR.keeps_breakcmd .skipbreak n
  | continuecmd n => exact hR.keeps_breakcmd .skipcont n
  | returncmd n =>
    cases n with
    | none =>
      refine Program.Keeps.bind Program.keeps_read fun s => ?_
      exact hregisters s.exitstatus fun s => ⟨rfl, rfl⟩
    | some n => exact hregisters _ fun s => ⟨rfl, rfl⟩
  | exitcmd n =>
    refine Program.Keeps.bind ?_ fun _ => keeps_raiseException .exexit
    exact hR.keeps_registers fun s => ⟨rfl, rfl⟩
  | setErrexit on => exact hregisters 0 fun s => ⟨rfl, rfl⟩
  | setparam params => exact hregisters 0 fun s => ⟨rfl, rfl⟩
  | shiftcmd n =>
    refine Program.Keeps.bind Program.keeps_read fun s => ?_
    exact Program.keeps_ite (Program.keeps_pure 1) (hregisters 0 fun s => ⟨rfl, rfl⟩)
  | localcmd names =>
    refine Program.Keeps.bind Program.keeps_read fun s => ?_
    exact Program.keeps_ite hR.keeps_ashMsgAndRaiseError (hregisters 0 (mklocal_same names))
  | execcmd program =>
    cases program with
    | none => exact Program.keeps_pure 0
    | some program => exact hR.keeps_shellexec program

theorem EvalFrame.keeps_evalbltin {builtin : Sh UInt8} (h : Keeps R builtin) :
    Keeps R (evalbltin builtin) := by
  apply hR.keeps_catching
  refine Program.Keeps.bind h fun status => ?_
  exact hR.keeps_modify fun s => ⟨.single (.fflushAll s.io), rfl⟩

theorem EvalFrame.keeps_evalfun (line : ℕ) (args : List Text) {body : Sh UInt8}
    (h : Keeps R body) : Keeps R (evalfun line args body) := by
  refine Program.Keeps.bind Program.keeps_read fun sv => ?_
  refine Program.Keeps.bind (hR.keeps_catching ?_) fun r => ?_
  · refine Program.Keeps.bind ?_ fun _ => Program.Keeps.bind h fun _ => Program.keeps_pure ()
    exact hR.keeps_registers fun s => ⟨rfl, rfl⟩
  · refine Program.Keeps.bind ?_ fun _ => Program.keeps_pure r
    exact hR.keeps_registers fun s => ⟨rfl, rfl⟩

theorem EvalFrame.keeps_popfile : Keeps R popfile := by
  apply hR.keeps_modify
  intro s
  split
  · exact ⟨.refl, rfl⟩
  · rename_i pf pfs hfiles
    cases hfd : pf.fd with
    | none => exact ⟨.refl, rfl⟩
    | some fd => exact ⟨.single (.close s.io fd), rfl⟩

theorem EvalFrame.keeps_unwindfiles (n : ℕ) : Keeps R (unwindfiles n) := by
  induction n with
  | zero => exact Program.keeps_pure ()
  | succ n ih => exact Program.Keeps.bind hR.keeps_popfile fun _ => ih

omit hR in
theorem keeps_evalcmds {ns : List (Sh UInt8)} (h : ∀ n ∈ ns, Keeps R n) (status : UInt8) :
    Keeps R (evalcmds status ns) := by
  induction ns generalizing status with
  | nil => exact Program.keeps_pure status
  | cons n ns ih =>
    refine Program.Keeps.bind (h n List.mem_cons_self) fun i => ?_
    refine Program.Keeps.bind Program.keeps_read fun s => ?_
    exact Program.keeps_ite (Program.keeps_pure i)
      (ih (fun n' hmem => h n' (List.mem_cons_of_mem _ hmem)) i)

theorem EvalFrame.keeps_evalstring {ns : List (Sh UInt8)} (h : ∀ n ∈ ns, Keeps R n) :
    Keeps R (evalstring ns) := by
  refine Program.Keeps.bind ?_ fun _ => ?_
  · exact hR.keeps_registers fun s => ⟨rfl, rfl⟩
  refine Program.Keeps.bind (hR.keeps_catching (keeps_evalcmds h 0)) fun r => ?_
  exact Program.Keeps.bind hR.keeps_popfile fun _ => keeps_reraise r

theorem EvalFrame.keeps_setinputfile (path : Text) : Keeps R (setinputfile path) := by
  apply Program.keeps_read_bind
  intro s
  split
  · exact hR.keeps_ashMsgAndRaiseError s
  · rename_i fd io hopen
    have hopen' : Calls ops opens s.io io := .single (.source hopen)
    split_ifs
    · exact hR.step ((hopen'.tail (.dupfd io fd 10)).tail (.close _ fd)) rfl
    · exact hR.step hopen' rfl

theorem EvalFrame.keeps_dotcmd (path : Option Text) (args : List Text) {ns : List (Sh UInt8)}
    (h : ∀ n ∈ ns, Keeps R n) : Keeps R (dotcmd path args ns) := by
  have hparams : ∀ params : List Text, Keeps R
      (Program.modify fun s => if args = [] then s else { s with shellparam := params }) := by
    intro params
    apply hR.keeps_registers
    intro s
    split_ifs
    · exact ⟨rfl, rfl⟩
    · exact ⟨rfl, rfl⟩
  cases path with
  | none => exact hR.keeps_ashMsgAndRaiseError
  | some path =>
    refine Program.Keeps.bind Program.keeps_read fun sv => ?_
    refine Program.Keeps.bind (hparams args) fun _ => ?_
    refine Program.Keeps.bind (hR.keeps_setinputfile path) fun _ => ?_
    refine Program.Keeps.bind ?_ fun status => ?_
    · refine Program.Keeps.bind (keeps_evalcmds h 0) fun status => ?_
      refine Program.Keeps.bind ?_ fun _ => Program.keeps_pure status
      exact hR.keeps_registers fun s => ⟨rfl, rfl⟩
    refine Program.Keeps.bind hR.keeps_popfile fun _ => ?_
    exact Program.Keeps.bind (hparams sv.shellparam) fun _ => Program.keeps_pure status

/-! ## Simple commands and loops -/

theorem EvalFrame.keeps_expandargs (fails : Bool) {ns : List (Sh UInt8)}
    (h : ∀ n ∈ ns, Keeps R n) : Keeps R (expandargs fails ns) := by
  induction ns with
  | nil => exact Program.keeps_ite hR.keeps_ashMsgAndRaiseError (Program.keeps_pure ())
  | cons n ns ih =>
    refine Program.Keeps.bind (hR.subst n (h n List.mem_cons_self)) fun _ => ?_
    exact ih fun n' hmem => h n' (List.mem_cons_of_mem _ hmem)

theorem EvalFrame.keeps_leaveCommand (info : CmdInfo) (rs : List Redir) (redirs files locals : ℕ) :
    Keeps R (leaveCommand info rs redirs files locals) := by
  refine Program.Keeps.bind (hR.keeps_popredirIf rs info.isExec) fun _ => ?_
  refine Program.Keeps.bind Program.keeps_read fun s => ?_
  refine Program.Keeps.bind (hR.keeps_unwindredir _) fun _ => ?_
  refine Program.Keeps.bind (hR.keeps_unwindfiles _) fun _ => ?_
  exact hR.keeps_registers fun s => ⟨rfl, rfl⟩

/-- The redirections open what they may. -/
def redirsWithin (opens : Text → Access → Bool) (rs : List Redir) : Bool :=
  rs.all fun r =>
    match r.source with
    | .file path access => opens path access
    | _ => true

omit [IsPreorder Ash R] hR in
theorem redirsWithin_true (rs : List Redir) : redirsWithin (fun _ _ => true) rs = true := by
  apply List.all_eq_true.mpr
  intro r _
  cases r.source <;> rfl

omit [IsPreorder Ash R] hR in
theorem redirsWithin_file {rs : List Redir} (h : redirsWithin opens rs = true) {r : Redir}
    (hr : r ∈ rs) {path : Text} {access : Access} (hsource : r.source = .file path access) :
    opens path access = true := by
  have hall := List.all_eq_true.mp h r hr
  rwa [hsource] at hall

theorem EvalFrame.keeps_evalcommand (info : CmdInfo) {args redirs assigns execute : Sh Unit}
    {rs : List Redir} (names : List Text) (hargs : Keeps R args) (hredirs : Keeps R redirs)
    (hassigns : Keeps R assigns) (hrs : redirsWithin opens rs = true) (hexecute : Keeps R execute) :
    Keeps R (evalcommand info args redirs assigns rs names execute) := by
  have hframe : Keeps R (Program.modify fun s =>
      if info.vlocal then { s with localvars := [] :: s.localvars } else s) := by
    apply hR.keeps_registers
    intro s
    split_ifs
    · exact ⟨rfl, rfl⟩
    · exact ⟨rfl, rfl⟩
  have hrun : Keeps R (runCommand info assigns names execute) := by
    refine Program.Keeps.bind hassigns fun _ => Program.Keeps.bind ?_ fun _ => hexecute
    apply hR.keeps_registers
    intro s
    split_ifs
    · exact mklocal_same names s
    · exact ⟨rfl, rfl⟩
  have hbail : Keeps R (bailCommand info) := by
    refine Program.Keeps.bind ?_ fun _ => ?_
    · exact hR.keeps_registers fun s => ⟨rfl, rfl⟩
    · exact Program.keeps_ite (keeps_raiseException .exerror) (Program.keeps_pure ())
  refine Program.Keeps.bind Program.keeps_read fun file => ?_
  refine Program.Keeps.bind ?_ fun _ => ?_
  · exact hR.keeps_registers fun s => ⟨rfl, rfl⟩
  refine Program.Keeps.bind hargs fun _ => ?_
  refine Program.Keeps.bind Program.keeps_read fun loc => ?_
  refine Program.Keeps.bind hframe fun _ => ?_
  refine Program.Keeps.bind hredirs fun _ => ?_
  refine Program.Keeps.bind Program.keeps_read fun redir => ?_
  refine Program.Keeps.bind (hR.keeps_pushredir rs) fun _ => ?_
  refine Program.Keeps.bind ?_ fun ok => ?_
  · exact hR.keeps_redirectsafe fun r hr path access => redirsWithin_file hrs hr
  refine Program.Keeps.bind (Program.keeps_ite hrun hbail) fun _ => ?_
  refine Program.Keeps.bind Program.keeps_read fun s => ?_
  refine Program.Keeps.bind ?_ fun _ => Program.keeps_pure s.exitstatus
  exact hR.keeps_leaveCommand info rs _ _ _

omit hR in
theorem keeps_afterBuiltin (special : Bool) (r : Except Exn Unit) : Keeps R (afterBuiltin special r) := by
  rw [afterBuiltin.eq_def]
  split
  · exact Program.keeps_pure ()
  · exact Program.keeps_ite (keeps_raiseException .exerror) (Program.keeps_pure ())
  · exact keeps_raiseException _

theorem EvalFrame.keeps_skiploop : Keeps R skiploop := by
  have hcount : ∀ skip : Skip, ∀ n : ℤ, Keeps R (do
      Program.modify fun s => { s with skipcount := s.skipcount - 1 }
      if n - 1 ≤ 0 then do
        Program.modify fun s => { s with evalskip := .none }
        pure skip
      else pure .skipbreak : Sh Skip) := by
    intro skip n
    refine Program.Keeps.bind ?_ fun _ => Program.keeps_ite ?_ (Program.keeps_pure _)
    · exact hR.keeps_registers fun s => ⟨rfl, rfl⟩
    · refine Program.Keeps.bind ?_ fun _ => Program.keeps_pure skip
      exact hR.keeps_registers fun s => ⟨rfl, rfl⟩
  refine Program.Keeps.bind Program.keeps_read fun s => ?_
  split
  · exact hcount _ _
  · exact hcount _ _
  · exact Program.keeps_pure _

theorem EvalFrame.keeps_evalrounds (isUntil : Bool) {rounds : List (Sh UInt8 × Sh UInt8)}
    (h : ∀ round ∈ rounds, Keeps R round.1 ∧ Keeps R round.2) (status : UInt8) :
    Keeps R (evalrounds isUntil status rounds) := by
  induction rounds generalizing status with
  | nil => exact Program.keeps_pure status
  | cons round rest ih =>
    obtain ⟨hcond, hbody⟩ := h round List.mem_cons_self
    have hrest : ∀ status, Keeps R (evalrounds isUntil status rest) :=
      ih fun round' hmem => h round' (List.mem_cons_of_mem _ hmem)
    refine Program.Keeps.bind hcond fun i => ?_
    refine Program.Keeps.bind hR.keeps_skiploop fun skip => ?_
    refine Program.keeps_ite (Program.keeps_ite (hrest _) (Program.keeps_pure _)) ?_
    refine Program.keeps_ite (Program.keeps_pure _) ?_
    refine Program.Keeps.bind hbody fun status' => ?_
    refine Program.Keeps.bind hR.keeps_skiploop fun skip' => ?_
    exact Program.keeps_ite (hrest _) (Program.keeps_pure _)

theorem EvalFrame.keeps_forrounds {bodies : List (Sh UInt8)} (h : ∀ body ∈ bodies, Keeps R body)
    (status : UInt8) : Keeps R (forrounds status bodies) := by
  induction bodies generalizing status with
  | nil => exact Program.keeps_pure status
  | cons body rest ih =>
    refine Program.Keeps.bind (h body List.mem_cons_self) fun status' => ?_
    refine Program.Keeps.bind hR.keeps_skiploop fun skip => ?_
    exact Program.keeps_ite (ih (fun body' hmem => h body' (List.mem_cons_of_mem _ hmem)) _)
      (Program.keeps_pure _)

/-- `loopnest` around the rounds of a loop. -/
theorem EvalFrame.keeps_nested {rounds : Sh UInt8} (h : Keeps R rounds) :
    Keeps R (do
      Program.modify fun s => { s with loopnest := s.loopnest + 1 }
      let status ← rounds
      Program.modify fun s => { s with loopnest := s.loopnest - 1 }
      pure status : Sh UInt8) := by
  refine Program.Keeps.bind ?_ fun _ => Program.Keeps.bind h fun status => ?_
  · exact hR.keeps_registers fun s => ⟨rfl, rfl⟩
  · refine Program.Keeps.bind ?_ fun _ => Program.keeps_pure status
    exact hR.keeps_registers fun s => ⟨rfl, rfl⟩

/-! ## Trees -/

theorem EvalFrame.keeps_setstatus (status : UInt8) : Keeps R (setstatus status) := by
  refine Program.Keeps.bind ?_ fun _ => Program.keeps_pure status
  exact hR.keeps_registers fun s => ⟨rfl, rfl⟩

omit hR in
theorem keeps_checkexit (tested : Bool) (status : UInt8) : Keeps R (checkexit tested status) := by
  refine Program.Keeps.bind Program.keeps_read fun s => ?_
  exact Program.keeps_ite (keeps_raiseException .exend) (Program.keeps_pure status)

theorem EvalFrame.keeps_evalredir {words : Sh Unit} {rs : List Redir} {n : Sh UInt8}
    (hwords : Keeps R words) (hrs : redirsWithin opens rs = true) (hn : Keeps R n) :
    Keeps R (evalredir words rs n) := by
  refine Program.Keeps.bind hwords fun _ => ?_
  refine Program.Keeps.bind (hR.keeps_pushredir rs) fun _ => ?_
  refine Program.Keeps.bind ?_ fun ok => ?_
  · exact hR.keeps_redirectsafe fun r hr path access => redirsWithin_file hrs hr
  refine Program.Keeps.bind (Program.keeps_ite hn (Program.keeps_pure 1)) fun status => ?_
  exact Program.Keeps.bind (hR.keeps_popredirIf rs false) fun _ => hR.keeps_setstatus status

theorem EvalFrame.keeps_evalbinary (stops : UInt8 → Bool) {ch1 ch2 : Sh UInt8} (h1 : Keeps R ch1)
    (h2 : Keeps R ch2) : Keeps R (evalbinary stops ch1 ch2) := by
  refine Program.Keeps.bind h1 fun status => ?_
  refine Program.Keeps.bind Program.keeps_read fun s => ?_
  refine Program.keeps_ite (Program.keeps_pure _) ?_
  exact Program.Keeps.bind h2 fun status => hR.keeps_setstatus status

theorem EvalFrame.keeps_evalif {test ifpart elsepart : Sh UInt8} (htest : Keeps R test)
    (hif : Keeps R ifpart) (helse : Keeps R elsepart) : Keeps R (evalif test ifpart elsepart) := by
  refine Program.Keeps.bind htest fun status => ?_
  refine Program.Keeps.bind Program.keeps_read fun s => ?_
  refine Program.keeps_ite (Program.keeps_pure _) ?_
  exact Program.Keeps.bind (Program.keeps_ite hif helse) fun status => hR.keeps_setstatus status

end

end

mutual

/-- Commands do what `ops` allows and redirections open what `opens` allows, all over the tree. -/
def Node.within (ops : Op → Bool) (opens : Text → Access → Bool) : Node → Bool
  | .null | .syntaxError | .ndefun => true
  | .nnot com => com.within ops opens
  | .nredir words rs n => words.within ops opens && redirsWithin opens rs && n.within ops opens
  | .ncmd args redirs assigns rs _ c =>
    args.within ops opens && redirs.within ops opens && assigns.within ops opens &&
      redirsWithin opens rs && c.within ops opens
  | .nsubshell words => words.within ops opens
  | .npipe cmdlist => cmdlist.within ops opens
  | .nand ch1 ch2 | .nor ch1 ch2 | .nsemi ch1 ch2 => ch1.within ops opens && ch2.within ops opens
  | .nif test ifpart => test.within ops opens && ifpart.within ops opens
  | .nifelse test ifpart elsepart =>
    test.within ops opens && ifpart.within ops opens && elsepart.within ops opens
  | .nloop _ rounds => rounds.within ops opens
  | .nfor words bodies => words.within ops opens && bodies.within ops opens
  | .ncase words => words.within ops opens
  | .ncasematch words body => words.within ops opens && body.within ops opens

def Nodes.within (ops : Op → Bool) (opens : Text → Access → Bool) : Nodes → Bool
  | .nil => true
  | .cons n ns => n.within ops opens && ns.within ops opens

def Rounds.within (ops : Op → Bool) (opens : Text → Access → Bool) : Rounds → Bool
  | .nil => true
  | .cons cond body rest =>
    cond.within ops opens && body.within ops opens && rest.within ops opens

def Words.within (ops : Op → Bool) (opens : Text → Access → Bool) : Words → Bool
  | .mk substs _ => substs.within ops opens

def Command.within (ops : Op → Bool) (opens : Text → Access → Bool) : Command → Bool
  | .null | .unknown => true
  | .external l _ => l.all ops
  | .builtin _ b => b.within ops
  | .function _ _ body => body.within ops opens
  | .eval _ ns => ns.within ops opens
  | .dot _ _ _ ns => ns.within ops opens

end

mutual

/-- Everything is within what is allowed if everything is allowed. -/
theorem Node.within_true : ∀ n : Node, n.within (fun _ => true) (fun _ _ => true) = true
  | .null | .syntaxError | .ndefun => rfl
  | .nnot com => com.within_true
  | .nredir words rs n => by
    simp [Node.within, words.within_true, n.within_true, redirsWithin_true]
  | .ncmd args redirs assigns rs _ c => by
    simp [Node.within, args.within_true, redirs.within_true, assigns.within_true, c.within_true,
      redirsWithin_true]
  | .nsubshell words => words.within_true
  | .npipe cmdlist => cmdlist.within_true
  | .nand ch1 ch2 | .nor ch1 ch2 | .nsemi ch1 ch2 => by
    simp [Node.within, ch1.within_true, ch2.within_true]
  | .nif test ifpart => by simp [Node.within, test.within_true, ifpart.within_true]
  | .nifelse test ifpart elsepart => by
    simp [Node.within, test.within_true, ifpart.within_true, elsepart.within_true]
  | .nloop _ rounds => rounds.within_true
  | .nfor words bodies => by simp [Node.within, words.within_true, bodies.within_true]
  | .ncase words => words.within_true
  | .ncasematch words body => by simp [Node.within, words.within_true, body.within_true]

theorem Nodes.within_true : ∀ ns : Nodes, ns.within (fun _ => true) (fun _ _ => true) = true
  | .nil => rfl
  | .cons n ns => by simp [Nodes.within, n.within_true, ns.within_true]

theorem Rounds.within_true :
    ∀ rounds : Rounds, rounds.within (fun _ => true) (fun _ _ => true) = true
  | .nil => rfl
  | .cons cond body rest => by
    simp [Rounds.within, cond.within_true, body.within_true, rest.within_true]

theorem Words.within_true : ∀ words : Words, words.within (fun _ => true) (fun _ _ => true) = true
  | .mk substs _ => substs.within_true

theorem Command.within_true : ∀ c : Command, c.within (fun _ => true) (fun _ _ => true) = true
  | .null | .unknown => rfl
  | .external l _ => List.all_eq_true.mpr fun _ _ => rfl
  | .builtin _ b => by
    cases b with
    | plain l status => exact List.all_eq_true.mpr fun _ _ => rfl
    | _ => rfl
  | .function _ _ body => body.within_true
  | .eval _ ns => ns.within_true
  | .dot _ _ _ ns => ns.within_true

end

mutual

/-- **The evaluator**: what registers, calls and substitutions keep is kept by every tree. -/
theorem evaltree_keeps {ops : Op → Bool} {opens : Text → Access → Bool} {R : Ash → Ash → Prop}
    [IsPreorder Ash R] (hR : EvalFrame ops opens R) (tested : Bool) :
    ∀ n : Node, n.within ops opens = true → Keeps R (evaltree tested n)
  | .null, _ => fun s => Std.Refl.refl s
  | .syntaxError, _ => hR.keeps_ashMsgAndRaiseError
  | .nnot com, h => by
    refine Program.Keeps.bind (evaltree_keeps hR true com h) fun status => ?_
    exact hR.keeps_setstatus _
  | .nredir words rs n, h => by
    simp only [Node.within, Bool.and_eq_true] at h
    exact hR.keeps_evalredir (expand_keeps hR words h.1.1) h.1.2 (evaltree_keeps hR tested n h.2)
  -- the case with everything in it: words, redirections and a command
  | .ncmd args redirs assigns rs names c, h => by
    simp only [Node.within, Bool.and_eq_true] at h
    obtain ⟨⟨⟨⟨hargs, hredirs⟩, hassigns⟩, hrs⟩, hc⟩ := h
    refine Program.Keeps.bind ?_ fun status => ?_
    · exact hR.keeps_evalcommand c.info names (expand_keeps hR args hargs)
        (expand_keeps hR redirs hredirs) (expand_keeps hR assigns hassigns) hrs
        (evalfound_keeps hR tested c hc)
    · exact Program.Keeps.bind (hR.keeps_setstatus status) fun _ => keeps_checkexit tested _
  | .nsubshell words, h =>
    Program.Keeps.bind (expand_keeps hR words h) fun _ => hR.keeps_ashMsgAndRaiseError
  | .npipe cmdlist, h => by
    refine Program.Keeps.bind ?_ fun status => ?_
    · exact hR.keeps_evalstages (evaltrees_keep hR tested cmdlist h) none 0
    · exact Program.Keeps.bind (hR.keeps_setstatus status) fun _ => keeps_checkexit tested _
  | .nand ch1 ch2, h => by
    simp only [Node.within, Bool.and_eq_true] at h
    exact hR.keeps_evalbinary _ (evaltree_keeps hR true ch1 h.1) (evaltree_keeps hR tested ch2 h.2)
  | .nor ch1 ch2, h => by
    simp only [Node.within, Bool.and_eq_true] at h
    exact hR.keeps_evalbinary _ (evaltree_keeps hR true ch1 h.1) (evaltree_keeps hR tested ch2 h.2)
  | .nsemi ch1 ch2, h => by
    simp only [Node.within, Bool.and_eq_true] at h
    exact hR.keeps_evalbinary _ (evaltree_keeps hR tested ch1 h.1)
      (evaltree_keeps hR tested ch2 h.2)
  | .nif test ifpart, h => by
    simp only [Node.within, Bool.and_eq_true] at h
    exact hR.keeps_evalif (evaltree_keeps hR true test h.1) (evaltree_keeps hR tested ifpart h.2)
      (Program.keeps_pure 0)
  | .nifelse test ifpart elsepart, h => by
    simp only [Node.within, Bool.and_eq_true] at h
    exact hR.keeps_evalif (evaltree_keeps hR true test h.1.1)
      (evaltree_keeps hR tested ifpart h.1.2) (evaltree_keeps hR tested elsepart h.2)
  | .nloop isUntil rounds, h => by
    refine Program.Keeps.bind ?_ fun status => hR.keeps_setstatus status
    exact hR.keeps_nested (hR.keeps_evalrounds isUntil (evalroundlist_keeps hR tested rounds h) 0)
  | .nfor words bodies, h => by
    simp only [Node.within, Bool.and_eq_true] at h
    refine Program.Keeps.bind (expand_keeps hR words h.1) fun _ => ?_
    refine Program.Keeps.bind ?_ fun status => hR.keeps_setstatus status
    exact hR.keeps_nested (hR.keeps_forrounds (evaltrees_keep hR tested bodies h.2) 0)
  | .ncase words, h =>
    Program.Keeps.bind (expand_keeps hR words h) fun _ => hR.keeps_setstatus 0
  | .ncasematch words body, h => by
    simp only [Node.within, Bool.and_eq_true] at h
    refine Program.Keeps.bind (expand_keeps hR words h.1) fun _ => ?_
    exact Program.Keeps.bind (evaltree_keeps hR tested body h.2) fun status =>
      hR.keeps_setstatus status
  | .ndefun, _ => hR.keeps_setstatus 0

theorem evaltrees_keep {ops : Op → Bool} {opens : Text → Access → Bool} {R : Ash → Ash → Prop}
    [IsPreorder Ash R] (hR : EvalFrame ops opens R) (tested : Bool) :
    ∀ ns : Nodes, ns.within ops opens = true → ∀ n ∈ evaltrees tested ns, Keeps R n
  | .nil, _ => fun _ hmem => absurd hmem List.not_mem_nil
  | .cons n ns, h => by
    simp only [Nodes.within, Bool.and_eq_true] at h
    intro m hmem
    rcases List.mem_cons.mp hmem with rfl | hmem
    · exact evaltree_keeps hR tested n h.1
    · exact evaltrees_keep hR tested ns h.2 m hmem

theorem evalroundlist_keeps {ops : Op → Bool} {opens : Text → Access → Bool} {R : Ash → Ash → Prop}
    [IsPreorder Ash R] (hR : EvalFrame ops opens R) (tested : Bool) :
    ∀ rounds : Rounds, rounds.within ops opens = true →
      ∀ round ∈ evalroundlist tested rounds, Keeps R round.1 ∧ Keeps R round.2
  | .nil, _ => fun _ hmem => absurd hmem List.not_mem_nil
  | .cons cond body rest, h => by
    simp only [Rounds.within, Bool.and_eq_true] at h
    intro round hmem
    rcases List.mem_cons.mp hmem with rfl | hmem
    · exact ⟨evaltree_keeps hR true cond h.1.1, evaltree_keeps hR tested body h.1.2⟩
    · exact evalroundlist_keeps hR tested rest h.2 round hmem

theorem expand_keeps {ops : Op → Bool} {opens : Text → Access → Bool} {R : Ash → Ash → Prop}
    [IsPreorder Ash R] (hR : EvalFrame ops opens R) :
    ∀ words : Words, words.within ops opens = true → Keeps R (expand words)
  | .mk substs fails, h => hR.keeps_expandargs fails (evaltrees_keep hR false substs h)

theorem evalfound_keeps {ops : Op → Bool} {opens : Text → Access → Bool} {R : Ash → Ash → Prop}
    [IsPreorder Ash R] (hR : EvalFrame ops opens R) (tested : Bool) :
    ∀ c : Command, c.within ops opens = true → Keeps R (evalfound tested c)
  | .null, _ => by
    refine Program.Keeps.bind Program.keeps_read fun s => ?_
    exact Program.Keeps.bind (hR.keeps_evalbltin (Program.keeps_pure _)) fun r =>
      keeps_afterBuiltin false r
  | .unknown, _ => hR.keeps_modify fun s => ⟨.single (.fflushAll s.io), rfl⟩
  | .external l status, h => hR.keeps_modify fun s => ⟨calls_runAll h s.io, rfl⟩
  | .builtin special b, h =>
    Program.Keeps.bind (hR.keeps_evalbltin (hR.keeps_builtin h)) fun r =>
      keeps_afterBuiltin special r
  | .function line args body, h =>
    Program.Keeps.bind (hR.keeps_evalfun line args (evaltree_keeps hR tested body h)) fun r =>
      keeps_reraise r
  | .eval special ns, h =>
    Program.Keeps.bind (hR.keeps_evalbltin (hR.keeps_evalstring (evaltrees_keep hR tested ns h)))
      fun r => keeps_afterBuiltin special r
  | .dot special path args ns, h =>
    Program.Keeps.bind (hR.keeps_evalbltin (hR.keeps_dotcmd path args (evaltrees_keep hR false ns h)))
      fun r => keeps_afterBuiltin special r

end

end OsMoap.Shell
