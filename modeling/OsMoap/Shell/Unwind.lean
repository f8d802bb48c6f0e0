import OsMoap.Shell.Frames
import OsMoap.Shell.Restore

/-!
# The Stacks of the Shell

A command that returns leaves the descriptors and the stacks as they were; one that raises leaves
them so that they can be unwound to where they were.  This holds of every tree without pipelines
and substitutions (`evaltree_disciplined`), whatever functions, strings and files it evaluates, and
so a session at the prompt never loses a descriptor, whatever its commands do (`session_keeps`).
-/

namespace OsMoap.Shell

open OsMoap.Lib OsMoap.Pack

/-- Nothing has been left on the stacks, and the descriptors are as they were. -/
structure Balanced (s s' : Ash) : Prop where
  fds : s'.io.fds.get = s.io.fds.get
  redirlist : s'.redirlist = s.redirlist
  parsefiles : s'.parsefiles = s.parsefiles
  localvars : s'.localvars.length = s.localvars.length

/-- What has been left on the stacks can be unwound. -/
def Unwinds (s s' : Ash) : Prop := ∃ tabs files, Pushed tabs files s s'

theorem Balanced.refl (s : Ash) : Balanced s s := ⟨rfl, rfl, rfl, rfl⟩

theorem Balanced.trans {s s' s'' : Ash} (h : Balanced s s') (h' : Balanced s' s'') :
    Balanced s s'' where
  fds := h'.fds.trans h.fds
  redirlist := h'.redirlist.trans h.redirlist
  parsefiles := h'.parsefiles.trans h.parsefiles
  localvars := h'.localvars.trans h.localvars

theorem Balanced.pushed {s s' : Ash} (h : Balanced s s') : Pushed [] [] s s' where
  redirlist := h.redirlist
  parsefiles := h.parsefiles
  localvars := Nat.le_of_eq h.localvars.symm
  held := by
    rw [h.fds]
    exact Held.refl _

theorem Pushed.balanced {s s' : Ash} (h : Pushed [] [] s s')
    (hlocals : s'.localvars.length = s.localvars.length) : Balanced s s' where
  fds := h.held.eq_of_nil
  redirlist := h.redirlist
  parsefiles := h.parsefiles
  localvars := hlocals

theorem Balanced.unwinds {s s' : Ash} (h : Balanced s s') : Unwinds s s' := ⟨[], [], h.pushed⟩

theorem Unwinds.trans {s s' s'' : Ash} (h : Unwinds s s') (h' : Unwinds s' s'') :
    Unwinds s s'' := by
  obtain ⟨tabs, files, h⟩ := h
  obtain ⟨tabs', files', h'⟩ := h'
  exact ⟨tabs' ++ tabs, files' ++ files, h.trans h'⟩

theorem Unwinds.scripts {s s' : Ash} (h : Unwinds s s') (hs : Scripts s) : Scripts s' := by
  obtain ⟨tabs, files, h⟩ := h
  exact h.scripts hs

/-- The run from `s` ends balanced when it returns, and unwindable when it raises. -/
def DisciplinedAt {α : Type} (m : Sh α) (s : Ash) : Prop :=
  m.wp (fun _ s' => Balanced s s') (fun stop s' => stop.IsRaised → Unwinds s s') s

def Disciplined {α : Type} (m : Sh α) : Prop := ∀ s, Scripts s → DisciplinedAt m s

/-- The run ends unwindable either way. -/
def Loose {α : Type} (m : Sh α) : Prop := ∀ s, Scripts s →
  m.wp (fun _ s' => Unwinds s s') (fun stop s' => stop.IsRaised → Unwinds s s') s

variable {α β : Type}

theorem Disciplined.loose {m : Sh α} (h : Disciplined m) : Loose m := by
  intro s hs
  apply Program.wp_mono (h s hs)
  · exact fun _ _ h' => h'.unwinds
  · exact fun _ _ h' => h'

theorem Disciplined.bind {m : Sh α} {f : α → Sh β} (hm : Disciplined m)
    (hf : ∀ a, Disciplined (f a)) : Disciplined (m >>= f) := by
  intro s hs
  rw [DisciplinedAt, Program.wp_bind]
  apply Program.wp_mono (hm s hs)
  · intro a s' h'
    apply Program.wp_mono (hf a s' (h'.unwinds.scripts hs))
    · exact fun _ _ h'' => h'.trans h''
    · exact fun _ _ h'' hraised => h'.unwinds.trans (h'' hraised)
  · exact fun _ _ h' => h'

theorem Loose.bind {m : Sh α} {f : α → Sh β} (hm : Loose m) (hf : ∀ a, Loose (f a)) :
    Loose (m >>= f) := by
  intro s hs
  rw [Program.wp_bind]
  apply Program.wp_mono (hm s hs)
  · intro a s' h'
    apply Program.wp_mono (hf a s' (h'.scripts hs))
    · exact fun _ _ h'' => h'.trans h''
    · exact fun _ _ h'' hraised => h'.trans (h'' hraised)
  · exact fun _ _ h' => h'

theorem disciplined_pure (a : α) : Disciplined (pure a : Sh α) := fun s _ => Balanced.refl s

theorem disciplined_read : Disciplined (Program.read : Sh Ash) := fun s _ => Balanced.refl s

theorem disciplined_modify {f : Ash → Ash} (h : ∀ s, Balanced s (f s)) :
    Disciplined (Program.modify f) := fun s _ => h s

theorem disciplined_raise (e : Exn) : Disciplined (raiseException e : Sh α) :=
  fun s _ _ => (Balanced.refl s).unwinds

theorem disciplined_ite {p : Prop} [Decidable p] {m m' : Sh α} (h : Disciplined m)
    (h' : Disciplined m') : Disciplined (if p then m else m') := by
  split
  · exact h
  · exact h'

theorem disciplined_onIo {f : Io → Io} (h : ∀ io, (f io).fds.get = io.fds.get) :
    Disciplined (onIo f) := disciplined_modify fun s => ⟨h s.io, rfl, rfl, rfl⟩

theorem disciplined_ashMsgAndRaiseError : Disciplined (ashMsgAndRaiseError : Sh α) := by
  apply Disciplined.bind
  · apply disciplined_modify
    intro s
    exact ⟨congrArg Table.get (Io.fflushAll_fds s.io), rfl, rfl, rfl⟩
  · exact fun _ => disciplined_raise .exerror

/-- An exception is caught in the state it has left. -/
theorem wp_catching_of_disciplined {m : Sh α} (h : Disciplined m) {s : Ash} (hs : Scripts s) :
    (catching m).wp
      (fun r s' => (∀ a, r = .ok a → Balanced s s') ∧ Unwinds s s') (fun stop _ => ¬ stop.IsRaised)
      s := by
  rw [wp_catching]
  have hstart : Balanced s { s with handler := s.handler + 1 } :=
    ⟨rfl, rfl, rfl, rfl⟩
  have hend : ∀ s' : Ash, Balanced s' { s' with handler := s.handler } :=
    fun s' => ⟨rfl, rfl, rfl, rfl⟩
  apply Program.wp_mono (h _ (hstart.unwinds.scripts hs))
  · intro a s' h'
    have hall := (hstart.trans h').trans (hend s')
    exact ⟨fun _ _ => hall, hall.unwinds⟩
  · intro stop s' h'
    cases stop with
    | raised e =>
      refine ⟨fun a heq => (nomatch heq), ?_⟩
      exact (hstart.unwinds.trans (h' trivial)).trans (hend s').unwinds
    | exited status => exact id

/-! ## Unwinding -/

/-- **All tables popped.** -/
theorem wp_unwindredir {tabs : List Redirtab} {files : List Parsefile} {s₀ s : Ash}
    (h : Pushed tabs files s₀ s) :
    (unwindredir tabs.length).wp
      (fun _ s' => Pushed [] files s₀ s' ∧ s'.localvars = s.localvars) (fun _ _ => False) s := by
  induction tabs generalizing s with
  | nil => exact ⟨h, rfl⟩
  | cons rp tabs ih =>
    rw [List.length_cons, unwindredir, Program.wp_bind]
    apply Program.wp_mono (wp_popredir_pushed h)
    · rintro _ s₁ ⟨h₁, hlocals₁⟩
      apply Program.wp_mono (ih h₁)
      · exact fun _ s₂ h₂ => ⟨h₂.1, h₂.2.trans hlocals₁⟩
      · exact fun _ _ hfalse => hfalse
    · exact fun _ _ hfalse => hfalse

/-- Popping an input file closes it. -/
theorem wp_popfile {tabs : List Redirtab} {pf : Parsefile} {files : List Parsefile} {s₀ s : Ash}
    (h : Pushed tabs (pf :: files) s₀ s) :
    popfile.wp (fun _ s' => Pushed tabs files s₀ s' ∧ s'.localvars = s.localvars)
      (fun _ _ => False) s := by
  have hlist : s.parsefiles = pf :: (files ++ s₀.parsefiles) := h.parsefiles
  rw [popfile, Program.wp_modify, hlist]
  refine ⟨⟨h.redirlist, rfl, h.localvars, ?_⟩, rfl⟩
  obtain ⟨fd⟩ := pf
  cases fd with
  | none => exact h.held
  | some fd =>
    dsimp only [Option.elim, Io.close]
    rw [Table.get_set_eq_update]
    exact h.held.drop

/-- **All files popped.** -/
theorem wp_unwindfiles {files : List Parsefile} {s₀ s : Ash} (h : Pushed [] files s₀ s) :
    (unwindfiles files.length).wp
      (fun _ s' => Pushed [] [] s₀ s' ∧ s'.localvars = s.localvars) (fun _ _ => False) s := by
  induction files generalizing s with
  | nil => exact ⟨h, rfl⟩
  | cons pf files ih =>
    rw [List.length_cons, unwindfiles, Program.wp_bind]
    apply Program.wp_mono (wp_popfile h)
    · rintro _ s₁ ⟨h₁, hlocals₁⟩
      apply Program.wp_mono (ih h₁)
      · exact fun _ s₂ h₂ => ⟨h₂.1, h₂.2.trans hlocals₁⟩
      · exact fun _ _ hfalse => hfalse
    · exact fun _ _ hfalse => hfalse

theorem Pushed.length_redirlist {tabs : List Redirtab} {files : List Parsefile} {s₀ s : Ash}
    (h : Pushed tabs files s₀ s) : s.redirlist.length - s₀.redirlist.length = tabs.length := by
  rw [h.redirlist, List.length_append, Nat.add_sub_cancel]

theorem Pushed.length_parsefiles {tabs : List Redirtab} {files : List Parsefile} {s₀ s : Ash}
    (h : Pushed tabs files s₀ s) : s.parsefiles.length - s₀.parsefiles.length = files.length := by
  rw [h.parsefiles, List.length_append, Nat.add_sub_cancel]

/-- **Leaving a command** unwinds to where its redirections began, whatever is on the stacks. -/
theorem wp_leaveCommand (info : CmdInfo) {rs : List Redir} (hexec : info.isExec = true → rs = [])
    {locals : ℕ} {s₀ s : Ash} (hlocals : locals ≤ s₀.localvars.length)
    (h : ∃ tabs files, Pushed tabs files s₀ s ∧ (rs ≠ [] → tabs ≠ [])) :
    (leaveCommand info rs s₀.redirlist.length s₀.parsefiles.length locals).wp
      (fun _ s' => Pushed [] [] s₀ { s' with localvars := s₀.localvars } ∧
        s'.localvars.length = locals) (fun _ _ => False) s := by
  obtain ⟨tabs, files, h, hne⟩ := h
  have hpop : (popredirIf rs info.isExec).wp (fun _ s' => ∃ tabs', Pushed tabs' files s₀ s')
      (fun _ _ => False) s := by
    rw [popredirIf]
    split_ifs with hnil
    · exact ⟨tabs, h⟩
    · -- `exec` keeps its redirections, and here it has none
      have hdrop : info.isExec = false := by
        rw [← Bool.not_eq_true]
        exact fun htrue => hnil (hexec htrue)
      rw [hdrop]
      cases tabs with
      | nil => exact absurd rfl (hne hnil)
      | cons rp tabs =>
        apply Program.wp_mono (wp_popredir_pushed h)
        · exact fun _ s' h' => ⟨tabs, h'.1⟩
        · exact fun _ _ hfalse => hfalse
  rw [leaveCommand, Program.wp_bind]
  apply Program.wp_mono hpop
  · rintro _ s₁ ⟨tabs₁, h₁⟩
    rw [Program.wp_bind, Program.wp_read, Program.wp_bind, h₁.length_redirlist]
    apply Program.wp_mono (wp_unwindredir h₁)
    · rintro _ s₂ ⟨h₂, -⟩
      rw [Program.wp_bind, h₁.length_parsefiles]
      apply Program.wp_mono (wp_unwindfiles h₂)
      · rintro _ s₃ ⟨h₃, -⟩
        rw [Program.wp_modify]
        refine ⟨⟨h₃.redirlist, h₃.parsefiles, Nat.le_refl _, h₃.held⟩, ?_⟩
        have hle : locals ≤ s₃.localvars.length := hlocals.trans h₃.localvars
        dsimp only
        rw [List.length_drop]
        omega
      · exact fun _ _ hfalse => hfalse
    · exact fun _ _ hfalse => hfalse
  · exact fun _ _ hfalse => hfalse

/-! ## Builtins, functions and files -/

theorem mklocal_balanced (names : List Text) (s : Ash) :
    Balanced s (names.foldl (fun s name => mklocal name s) s) := by
  induction names generalizing s with
  | nil => exact ⟨rfl, rfl, rfl, rfl⟩
  | cons name names ih =>
    have hone : Balanced s (mklocal name s) := by
      rw [mklocal]
      split
      · exact ⟨rfl, rfl, rfl, rfl⟩
      · rename_i frame frames hlocals
        split_ifs
        · exact ⟨rfl, rfl, rfl, rfl⟩
        · exact ⟨rfl, rfl, rfl, by rw [hlocals]; rfl⟩
    obtain ⟨hfds, hredirs, hfiles, hlocals⟩ := ih (mklocal name s)
    exact ⟨hfds.trans hone.fds, hredirs.trans hone.redirlist, hfiles.trans hone.parsefiles,
      hlocals.trans hone.localvars⟩

/-- A status after a change of registers. -/
theorem disciplined_status {f : Ash → Ash} (status : UInt8) (h : ∀ s, Balanced s (f s)) :
    Disciplined (Program.modify f >>= fun _ => (pure status : Sh UInt8)) :=
  (disciplined_modify h).bind fun _ => disciplined_pure status

theorem disciplined_breakcmd (skip : Skip) (n : ℕ) : Disciplined (breakcmd skip n) := by
  apply disciplined_ite disciplined_ashMsgAndRaiseError
  apply disciplined_status
  intro s
  dsimp only
  split_ifs
  · exact ⟨rfl, rfl, rfl, rfl⟩
  · exact ⟨rfl, rfl, rfl, rfl⟩
  · exact ⟨rfl, rfl, rfl, rfl⟩
  · exact ⟨rfl, rfl, rfl, rfl⟩

theorem disciplined_shellexec (program : ExecEnd) : Disciplined (shellexec program) := by
  cases program with
  | ran ops status =>
    apply Disciplined.bind
    · exact disciplined_onIo fun io => funext (Io.runAll_fds io ops)
    · exact fun _ s _ hraised => hraised.elim
  | failed exerrno =>
    apply Disciplined.bind
    · apply disciplined_modify
      intro s
      exact ⟨congrArg Table.get (Io.fflushAll_fds s.io), rfl, rfl, rfl⟩
    · exact fun _ => disciplined_raise .exend

/-- Every builtin leaves the stacks as they are; `local` changes a frame. -/
theorem disciplined_builtin (b : Builtin) : Disciplined b.run := by
  cases b with
  | plain ops status =>
    apply Disciplined.bind
    · exact disciplined_onIo fun io => funext (Io.runAll_fds io ops)
    · exact fun _ => disciplined_pure status
  | fails => exact disciplined_ashMsgAndRaiseError
  | breakcmd n => exact disciplined_breakcmd .skipbreak n
  | continuecmd n => exact disciplined_breakcmd .skipcont n
  | returncmd n =>
    cases n with
    | none =>
      apply disciplined_read.bind
      exact fun s => disciplined_status s.exitstatus fun _ => ⟨rfl, rfl, rfl, rfl⟩
    | some n => exact disciplined_status _ fun _ => ⟨rfl, rfl, rfl, rfl⟩
  | exitcmd n =>
    apply Disciplined.bind
    · exact disciplined_modify fun _ => ⟨rfl, rfl, rfl, rfl⟩
    · exact fun _ => disciplined_raise .exexit
  | setErrexit on => exact disciplined_status 0 fun _ => ⟨rfl, rfl, rfl, rfl⟩
  | setparam params => exact disciplined_status 0 fun _ => ⟨rfl, rfl, rfl, rfl⟩
  | shiftcmd n =>
    apply disciplined_read.bind
    intro s
    apply disciplined_ite (disciplined_pure 1)
    exact disciplined_status 0 fun _ => ⟨rfl, rfl, rfl, rfl⟩
  | localcmd names =>
    apply disciplined_read.bind
    intro s
    apply disciplined_ite disciplined_ashMsgAndRaiseError
    exact disciplined_status 0 (mklocal_balanced names)
  | execcmd program =>
    cases program with
    | none => exact disciplined_pure 0
    | some program => exact disciplined_shellexec program

/-- What a caught exception has left stays to be unwound. -/
theorem loose_evalbltin {builtin : Sh UInt8} (h : Disciplined builtin) (special : Bool) :
    Loose (evalbltin builtin >>= fun r => afterBuiltin special r) := by
  have hbody : Disciplined (builtin >>= fun status => Program.modify fun s =>
      { s with io := s.io.fflushAll, exitstatus := status }) := by
    apply h.bind
    intro status
    apply disciplined_modify
    exact fun s => ⟨congrArg Table.get (Io.fflushAll_fds s.io), rfl, rfl, rfl⟩
  intro s hs
  rw [Program.wp_bind, evalbltin]
  apply Program.wp_mono (wp_catching_of_disciplined hbody hs)
  · rintro r s' ⟨-, h'⟩
    cases r with
    | ok a => exact h'
    | error e =>
      -- an error of a regular builtin ends with it, any other goes on
      cases e with
      | exerror =>
        cases special with
        | true => exact fun _ => h'
        | false => exact h'
      | exint => exact fun _ => h'
      | exend => exact fun _ => h'
      | exexit => exact fun _ => h'
  · exact fun _ _ hnot hraised => absurd hraised hnot

theorem loose_evalfun (line : ℕ) (args : List Text) {body : Sh UInt8} (h : Disciplined body) :
    Loose (evalfun line args body >>= fun r => reraise r) := by
  have hbody : Disciplined (do
      Program.modify fun s => { s with funcline := line, shellparam := args }
      let _ ← body
      pure ()) := by
    apply Disciplined.bind
    · exact disciplined_modify fun s => ⟨rfl, rfl, rfl, rfl⟩
    · exact fun _ => h.bind fun _ => disciplined_pure ()
  intro s hs
  rw [Program.wp_bind, evalfun, Program.wp_bind, Program.wp_read, Program.wp_bind]
  apply Program.wp_mono (wp_catching_of_disciplined hbody hs)
  · rintro r s' ⟨-, h'⟩
    rw [Program.wp_bind, Program.wp_modify]
    have hregisters : Balanced s' { s' with
        funcline := s.funcline, shellparam := s.shellparam, evalskip := s'.evalskip.dropFunc } :=
      ⟨rfl, rfl, rfl, rfl⟩
    have hend := h'.trans hregisters.unwinds
    cases r with
    | ok a => exact hend
    | error e => exact fun _ => hend
  · exact fun _ _ hnot hraised => absurd hraised hnot

theorem disciplined_evalcmds {ns : List (Sh UInt8)} (h : ∀ n ∈ ns, Disciplined n)
    (status : UInt8) : Disciplined (evalcmds status ns) := by
  induction ns generalizing status with
  | nil => exact disciplined_pure status
  | cons n ns ih =>
    apply (h n List.mem_cons_self).bind
    intro i
    apply disciplined_read.bind
    intro s
    apply disciplined_ite (disciplined_pure i)
    exact ih (fun n' hmem => h n' (List.mem_cons_of_mem _ hmem)) i

/-- Something is pushed as an input file, and nothing else happens. -/
theorem Pushed.push (s : Ash) (pf : Parsefile) (h : pf.fd = none) :
    Pushed [] [pf] s { s with parsefiles := pf :: s.parsefiles } where
  redirlist := rfl
  parsefiles := rfl
  localvars := Nat.le_refl _
  held := by
    have hfiles : filesOf [pf] = [] := by
      rw [filesOf, List.filterMap_cons, h]
      rfl
    rw [hfiles]
    exact Held.refl _

/-- **A string**: one entry is popped whatever happens, which on an exception need not be the
string's own. -/
theorem disciplined_evalstring {ns : List (Sh UInt8)} (h : ∀ n ∈ ns, Disciplined n) :
    Disciplined (evalstring ns) := by
  intro s hs
  rw [DisciplinedAt, evalstring, Program.wp_bind, Program.wp_modify, Program.wp_bind]
  have hpush := Pushed.push s ⟨none⟩ rfl
  apply Program.wp_mono (wp_catching_of_disciplined (disciplined_evalcmds h 0) (hpush.scripts hs))
  · rintro r s₁ ⟨hok, tabs, files, hleft⟩
    rw [Program.wp_bind]
    cases r with
    | ok status =>
      have h₁ := hok status rfl
      apply Program.wp_mono (wp_popfile (hpush.trans h₁.pushed))
      · intro _ s₂ h₂
        exact h₂.1.balanced ((congrArg List.length h₂.2).trans h₁.localvars)
      · exact fun _ _ hfalse => hfalse.elim
    | error e =>
      have hall := hpush.trans hleft
      cases files with
      | nil =>
        apply Program.wp_mono (wp_popfile hall)
        · exact fun _ s₂ h₂ _ => ⟨_, _, h₂.1⟩
        · exact fun _ _ hfalse => hfalse.elim
      | cons pf files =>
        -- a file pushed inside is popped, and the string stays
        apply Program.wp_mono (wp_popfile hall)
        · exact fun _ s₂ h₂ _ => ⟨_, _, h₂.1⟩
        · exact fun _ _ hfalse => hfalse.elim
  · exact fun _ _ hnot hraised => absurd hraised hnot

/-- A file is opened above the descriptors of the user. -/
theorem wp_setinputfile (path : Text) (s : Ash) :
    (setinputfile path).wp
      (fun _ s' => ∃ pf, Pushed [] [pf] s s' ∧ s'.localvars.length = s.localvars.length)
      (fun stop s' => stop.IsRaised → Unwinds s s') s := by
  rw [setinputfile, Program.wp_bind, Program.wp_read]
  cases hopen : s.io.openFile path rdonly with
  | none =>
    have hflush : Balanced s { s with exitstatus := 2, io := s.io.fflushAll } :=
      ⟨congrArg Table.get (Io.fflushAll_fds s.io), rfl, rfl, rfl⟩
    exact fun _ => hflush.unwinds
  | some p =>
    obtain ⟨fd, io⟩ := p
    obtain ⟨hfd, hfds, -, -, -⟩ := Io.openFile_cases hopen
    have hfree : s.io.fds.get fd = none := by rw [hfd, Table.get_lowest]
    have hget : io.fds.get = Function.update s.io.fds.get fd (some s.io.descs.length) := by
      rw [hfds, Table.get_set_eq_update]
    dsimp only
    split_ifs with hlow
    · -- it is copied to ten or above, and closed where it was
      have hopened : io.fds.get fd = some s.io.descs.length := by
        rw [hget, Function.update_self]
      rw [Io.dupfd_of_open hopened, Program.wp_modify]
      have hfree' := io.fds.get_lowest 10
      have hten : ¬ UserFd (io.fds.lowest 10) := Nat.not_lt_of_le (io.fds.le_lowest 10)
      generalize io.fds.lowest 10 = copy at hfree' hten ⊢
      have hne : copy ≠ fd := by
        rintro rfl
        exact hten hlow
      have hcopy : s.io.fds.get copy = none := by
        rw [← hfree', hget, Function.update_of_ne hne]
      refine ⟨⟨some copy⟩, ⟨rfl, rfl, Nat.le_refl _, ?_⟩, rfl⟩
      dsimp only [Io.close]
      have hclosed : Function.update s.io.fds.get fd none = s.io.fds.get := by
        rw [← hfree, Function.update_eq_self]
      rw [Table.get_set_eq_update, Table.get_set_eq_update, hget, Function.update_comm hne,
        Function.update_idem, hclosed]
      exact (Held.refl _).fill hten hcopy (Option.some_ne_none _)
    · rw [Program.wp_modify]
      refine ⟨⟨some fd⟩, ⟨rfl, rfl, Nat.le_refl _, ?_⟩, rfl⟩
      dsimp only
      rw [hget]
      have hten : ¬ UserFd fd := hlow
      exact (Held.refl _).fill hten hfree (Option.some_ne_none _)

/-- `.`, which has no handler of its own: on an exception the file stays pushed. -/
theorem disciplined_dotcmd (path : Option Text) (args : List Text) {ns : List (Sh UInt8)}
    (h : ∀ n ∈ ns, Disciplined n) : Disciplined (dotcmd path args ns) := by
  have hparams : ∀ (params : List Text) (s : Ash),
      Balanced s (if args = [] then s else { s with shellparam := params }) := by
    intro params s
    split_ifs
    · exact ⟨rfl, rfl, rfl, rfl⟩
    · exact ⟨rfl, rfl, rfl, rfl⟩
  have hloop : Disciplined (cmdloop ns) := by
    apply (disciplined_evalcmds h 0).bind
    exact fun status => disciplined_status status fun _ => ⟨rfl, rfl, rfl, rfl⟩
  cases path with
  | none => exact disciplined_ashMsgAndRaiseError
  | some path =>
    intro s hs
    rw [DisciplinedAt, dotcmd, Program.wp_bind, Program.wp_read, Program.wp_bind, Program.wp_modify,
      Program.wp_bind]
    have h₀ := hparams args s
    apply Program.wp_mono (wp_setinputfile path _)
    · rintro _ s₁ ⟨pf, hpush, hlocals⟩
      have h₁ := h₀.pushed.trans hpush
      rw [Program.wp_bind]
      apply Program.wp_mono (hloop s₁ (h₁.scripts hs))
      · intro status s₂ h₂
        rw [Program.wp_bind]
        apply Program.wp_mono (wp_popfile (h₁.trans h₂.pushed))
        · intro _ s₃ h₃
          rw [Program.wp_bind, Program.wp_modify, Program.wp_pure]
          have hsame : s₃.localvars.length = s.localvars.length := by
            rw [h₃.2, h₂.localvars, hlocals, h₀.localvars]
          exact (h₃.1.balanced hsame).trans (hparams s.shellparam s₃)
        · exact fun _ _ hfalse => hfalse.elim
      · exact fun _ _ h₂ hraised => Unwinds.trans ⟨_, _, h₁⟩ (h₂ hraised)
    · exact fun _ _ h₁ hraised => h₀.unwinds.trans (h₁ hraised)

/-! ## Simple commands -/

/-- Words without substitutions may only fail. -/
theorem disciplined_expandargs (fails : Bool) : Disciplined (expandargs fails []) :=
  disciplined_ite disciplined_ashMsgAndRaiseError (disciplined_pure ())

theorem loose_runCommand (info : CmdInfo) {assigns : Sh Unit} (h : Disciplined assigns)
    (names : List Text) {execute : Sh Unit} (hexecute : Loose execute) :
    Loose (runCommand info assigns names execute) := by
  apply h.loose.bind
  intro _
  apply Loose.bind
  · apply Disciplined.loose
    apply disciplined_modify
    intro s
    split_ifs
    · exact mklocal_balanced names s
    · exact ⟨rfl, rfl, rfl, rfl⟩
  · exact fun _ => hexecute

theorem loose_bailCommand (info : CmdInfo) : Loose (bailCommand info) := by
  apply Disciplined.loose
  apply Disciplined.bind
  · exact disciplined_modify fun _ => ⟨rfl, rfl, rfl, rfl⟩
  · exact fun _ => disciplined_ite (disciplined_raise .exerror) (disciplined_pure ())

/-- The redirections of a command, and what is on the stack of tables then. -/
theorem wp_redirections {rs : List Redir} (hrs : ∀ r ∈ rs, UserFd r.fd) {s : Ash}
    (hs : Scripts s) :
    (pushredir rs >>= fun _ => redirectsafe rs).wp
      (fun _ s' => ∃ tabs, Pushed tabs [] s s' ∧ (tabs = [] ↔ rs = []) ∧ tabs.length ≤ 1 ∧
        s'.localvars = s.localvars)
      (fun _ _ => False) s := by
  rw [Program.wp_bind, pushredir, Program.wp_modify]
  by_cases hnil : rs = []
  · rw [if_pos hnil, hnil]
    exact ⟨[], Pushed.refl s, iff_of_true rfl rfl, Nat.zero_le 1, rfl⟩
  · rw [if_neg hnil]
    apply Program.wp_mono (wp_redirectsafe hs hrs (Redirecting.start s))
    · intro _ s₁ h₁
      obtain ⟨rp, hpushed⟩ := h₁.pushed
      have hiff : [rp] = [] ↔ rs = [] := iff_of_false (List.cons_ne_nil rp []) hnil
      exact ⟨[rp], hpushed, hiff, Nat.le_refl 1, h₁.localvars⟩
    · exact fun _ _ hfalse => hfalse

/-- **A simple command** that returns is balanced, whatever happened in it. -/
theorem disciplined_evalcommand (info : CmdInfo) {args redirs assigns execute : Sh Unit}
    (hargs : Disciplined args) (hredirs : Disciplined redirs) (hassigns : Disciplined assigns)
    {rs : List Redir} (hrs : ∀ r ∈ rs, UserFd r.fd) (hexec : info.isExec = true → rs = [])
    (names : List Text) (hexecute : Loose execute) :
    Disciplined (evalcommand info args redirs assigns rs names execute) := by
  intro file hs
  rw [DisciplinedAt, evalcommand, Program.wp_bind, Program.wp_read, Program.wp_bind,
    Program.wp_modify, Program.wp_bind]
  have hstart : Balanced file { file with backExitstatus := 0 } := ⟨rfl, rfl, rfl, rfl⟩
  apply Program.wp_mono (hargs _ (hstart.unwinds.scripts hs))
  · intro _ loc h₁
    have hloc := hstart.trans h₁
    rw [Program.wp_bind, Program.wp_read, Program.wp_bind, Program.wp_modify, Program.wp_bind]
    -- a frame for the variables of the command
    have hframe : Unwinds loc
        (if info.vlocal = true then { loc with localvars := [] :: loc.localvars } else loc) := by
      split_ifs
      · exact ⟨[], [], rfl, rfl, Nat.le_succ _, Held.refl _⟩
      · exact (Balanced.refl loc).unwinds
    have hframeSame : ∀ t : Ash, t =
        (if info.vlocal = true then { loc with localvars := [] :: loc.localvars } else loc) →
        t.io = loc.io ∧ t.redirlist = loc.redirlist ∧ t.parsefiles = loc.parsefiles ∧
          loc.localvars.length ≤ t.localvars.length := by
      rintro t rfl
      split_ifs
      · exact ⟨rfl, rfl, rfl, Nat.le_succ _⟩
      · exact ⟨rfl, rfl, rfl, Nat.le_refl _⟩
    have hframeScripts := (hloc.unwinds.trans hframe).scripts hs
    generalize ht : (if info.vlocal = true then { loc with localvars := [] :: loc.localvars }
      else loc) = t at hframe hframeScripts ⊢
    obtain ⟨hio, hlist, hfiles, hlocals⟩ := hframeSame t ht.symm
    apply Program.wp_mono (hredirs t hframeScripts)
    · intro _ redir h₂
      have hredir : Unwinds file redir := (hloc.unwinds.trans hframe).trans h₂.unwinds
      rw [Program.wp_bind, Program.wp_read]
      have hpush := wp_redirections hrs (hredir.scripts hs)
      rw [Program.wp_bind] at hpush ⊢
      apply Program.wp_mono hpush
      · intro _ s₃ h₃
        rw [Program.wp_bind]
        apply Program.wp_mono h₃
        · rintro ok s₄ ⟨tabs, h₄, htabs, -, -⟩
          have hall : Unwinds file s₄ := hredir.trans ⟨tabs, [], h₄⟩
          have hrun : Loose (if ok = true then runCommand info assigns names execute
              else bailCommand info) := by
            split_ifs
            · exact loose_runCommand info hassigns names hexecute
            · exact loose_bailCommand info
          rw [Program.wp_bind]
          apply Program.wp_mono (hrun s₄ (hall.scripts hs))
          · rintro _ s₅ ⟨tabs', files', h₅⟩
            rw [Program.wp_bind, Program.wp_read, Program.wp_bind]
            have hlength : file.parsefiles.length = redir.parsefiles.length := by
              rw [h₂.parsefiles, hfiles, hloc.parsefiles]
            have hle : loc.localvars.length ≤ redir.localvars.length := by
              rw [h₂.localvars]
              exact hlocals
            have hleft : ∃ tabs files, Pushed tabs files redir s₅ ∧ (rs ≠ [] → tabs ≠ []) := by
              refine ⟨_, _, h₄.trans h₅, fun hrsne heq => ?_⟩
              exact hrsne (htabs.mp (List.append_eq_nil_iff.mp heq).2)
            rw [hlength]
            apply Program.wp_mono (wp_leaveCommand info hexec hle hleft)
            · rintro _ s₆ ⟨h₆, hlocals₆⟩
              rw [Program.wp_pure]
              exact
                { fds := by
                    rw [← hloc.fds, ← hio, ← h₂.fds]
                    exact h₆.held.eq_of_nil
                  redirlist := by
                    rw [← hloc.redirlist, ← hlist, ← h₂.redirlist]
                    exact h₆.redirlist
                  parsefiles := by
                    rw [← hloc.parsefiles, ← hfiles, ← h₂.parsefiles]
                    exact h₆.parsefiles
                  localvars := hlocals₆.trans hloc.localvars }
            · exact fun _ _ hfalse => hfalse.elim
          · exact fun _ _ h₅ hraised => hall.trans (h₅ hraised)
        · exact fun _ _ hfalse => hfalse.elim
      · exact fun _ _ hfalse => hfalse.elim
    · exact fun _ _ h₂ hraised => (hloc.unwinds.trans hframe).trans (h₂ hraised)
  · exact fun _ _ h₁ hraised => hstart.unwinds.trans (h₁ hraised)

/-! ## Loops -/

theorem disciplined_skiploop : Disciplined skiploop := by
  apply disciplined_read.bind
  intro s
  have hlevel : Disciplined (do
      Program.modify fun s : Ash => { s with skipcount := s.skipcount - 1 }
      if s.skipcount - 1 ≤ 0 then do
        Program.modify fun s : Ash => { s with evalskip := .none }
        pure s.evalskip
      else pure Skip.skipbreak) := by
    apply Disciplined.bind
    · exact disciplined_modify fun _ => ⟨rfl, rfl, rfl, rfl⟩
    intro _
    apply disciplined_ite
    · apply Disciplined.bind
      · exact disciplined_modify fun _ => ⟨rfl, rfl, rfl, rfl⟩
      · exact fun _ => disciplined_pure s.evalskip
    · exact disciplined_pure Skip.skipbreak
  split
  · exact hlevel
  · exact hlevel
  · exact disciplined_pure _

theorem disciplined_evalrounds (isUntil : Bool) {rounds : List (Sh UInt8 × Sh UInt8)}
    (h : ∀ round ∈ rounds, Disciplined round.1 ∧ Disciplined round.2) (status : UInt8) :
    Disciplined (evalrounds isUntil status rounds) := by
  induction rounds generalizing status with
  | nil => exact disciplined_pure status
  | cons round rest ih =>
    obtain ⟨hcond, hbody⟩ := h round List.mem_cons_self
    have hrest := ih fun round' hmem => h round' (List.mem_cons_of_mem _ hmem)
    apply hcond.bind
    intro i
    apply disciplined_skiploop.bind
    intro skip
    apply disciplined_ite
    · exact disciplined_ite (hrest _) (disciplined_pure _)
    · apply disciplined_ite (disciplined_pure _)
      apply hbody.bind
      intro status
      apply disciplined_skiploop.bind
      exact fun skip => disciplined_ite (hrest status) (disciplined_pure status)

theorem disciplined_forrounds {bodies : List (Sh UInt8)} (h : ∀ body ∈ bodies, Disciplined body)
    (status : UInt8) : Disciplined (forrounds status bodies) := by
  induction bodies generalizing status with
  | nil => exact disciplined_pure status
  | cons body rest ih =>
    apply (h body List.mem_cons_self).bind
    intro status
    apply disciplined_skiploop.bind
    intro skip
    apply disciplined_ite
    · exact ih (fun body' hmem => h body' (List.mem_cons_of_mem _ hmem)) status
    · exact disciplined_pure status

/-- Around the rounds only `loopnest` goes up and down. -/
theorem disciplined_nested {rounds : Sh UInt8} (h : Disciplined rounds) : Disciplined (do
    Program.modify fun s => { s with loopnest := s.loopnest + 1 }
    let status ← rounds
    Program.modify fun s => { s with loopnest := s.loopnest - 1 }
    pure status) := by
  apply Disciplined.bind
  · exact disciplined_modify fun _ => ⟨rfl, rfl, rfl, rfl⟩
  · intro _
    apply h.bind
    exact fun status => disciplined_status status fun _ => ⟨rfl, rfl, rfl, rfl⟩

/-! ## Trees -/

theorem disciplined_setstatus (status : UInt8) : Disciplined (setstatus status) :=
  disciplined_status status fun _ => ⟨rfl, rfl, rfl, rfl⟩

theorem disciplined_checkexit (tested : Bool) (status : UInt8) :
    Disciplined (checkexit tested status) := by
  apply disciplined_read.bind
  exact fun s => disciplined_ite (disciplined_raise .exend) (disciplined_pure status)

theorem disciplined_evalredir {words : Sh Unit} (hwords : Disciplined words) {rs : List Redir}
    (hrs : ∀ r ∈ rs, UserFd r.fd) {n : Sh UInt8} (hn : Disciplined n) :
    Disciplined (evalredir words rs n) := by
  apply hwords.bind
  intro _ s hs
  have hpush := wp_redirections hrs hs
  rw [Program.wp_bind] at hpush
  rw [DisciplinedAt, Program.wp_bind]
  apply Program.wp_mono hpush
  · intro _ s₁ h₁
    rw [Program.wp_bind]
    apply Program.wp_mono h₁
    · rintro ok s₂ ⟨tabs, h₂, htabs, hone, hlocals₂⟩
      have hbody : Disciplined (if ok = true then n else pure 1) :=
        disciplined_ite hn (disciplined_pure 1)
      rw [Program.wp_bind]
      apply Program.wp_mono (hbody s₂ (h₂.scripts hs))
      · intro status s₃ h₃
        have hall := h₂.trans h₃.pushed
        have hlocals₃ : s₃.localvars.length = s.localvars.length := by
          rw [h₃.localvars, hlocals₂]
        rw [Program.wp_bind, popredirIf]
        split_ifs with hrsnil
        · -- there is no table to pop
          obtain rfl := htabs.mpr hrsnil
          rw [Program.wp_pure]
          have hback := hall.balanced hlocals₃
          exact hback.trans ⟨rfl, rfl, rfl, rfl⟩
        · cases tabs with
          | nil => exact absurd (htabs.mp rfl) hrsnil
          | cons rp tabs =>
            have hlast : tabs.length ≤ 0 := Nat.le_of_succ_le_succ hone
            obtain rfl := List.eq_nil_of_length_eq_zero (Nat.le_zero.mp hlast)
            apply Program.wp_mono (wp_popredir_pushed hall)
            · rintro _ s₄ ⟨h₄, hlocals₄⟩
              have hback := h₄.balanced ((congrArg List.length hlocals₄).trans hlocals₃)
              exact hback.trans ⟨rfl, rfl, rfl, rfl⟩
            · exact fun _ _ hfalse => hfalse.elim
      · exact fun _ _ h₃ hraised => Unwinds.trans ⟨tabs, [], h₂⟩ (h₃ hraised)
    · exact fun _ _ hfalse => hfalse.elim
  · exact fun _ _ hfalse => hfalse.elim

theorem disciplined_evalbinary (stops : UInt8 → Bool) {ch1 ch2 : Sh UInt8} (h1 : Disciplined ch1)
    (h2 : Disciplined ch2) : Disciplined (evalbinary stops ch1 ch2) := by
  apply h1.bind
  intro status
  apply disciplined_read.bind
  intro s
  apply disciplined_ite (disciplined_pure s.exitstatus)
  exact h2.bind fun status => disciplined_setstatus status

theorem disciplined_evalif {test ifpart elsepart : Sh UInt8} (htest : Disciplined test)
    (hif : Disciplined ifpart) (helse : Disciplined elsepart) :
    Disciplined (evalif test ifpart elsepart) := by
  apply htest.bind
  intro status
  apply disciplined_read.bind
  intro s
  apply disciplined_ite (disciplined_pure s.exitstatus)
  exact (disciplined_ite hif helse).bind fun status => disciplined_setstatus status

/-- Redirections of descriptors below ten. -/
def lowFds (rs : List Redir) : Bool := rs.all fun r => r.fd < 10

theorem lowFds_iff {rs : List Redir} : lowFds rs = true ↔ ∀ r ∈ rs, UserFd r.fd := by
  rw [lowFds, List.all_eq_true]
  simp only [decide_eq_true_eq]

mutual

/-- Neither pipelines nor substitutions, no redirection of a descriptor of ten or above, and none
that `exec` makes permanent. -/
def Node.plain : Node → Bool
  | .null | .syntaxError | .ndefun => true
  | .nnot com => com.plain
  | .nredir words rs n => words.plain && lowFds rs && n.plain
  | .ncmd args redirs assigns rs _ c =>
    args.plain && redirs.plain && assigns.plain && lowFds rs && (!c.info.isExec || rs.isEmpty) &&
      c.plain
  | .nsubshell words => words.plain
  | .npipe _ => false
  | .nand ch1 ch2 | .nor ch1 ch2 | .nsemi ch1 ch2 => ch1.plain && ch2.plain
  | .nif test ifpart => test.plain && ifpart.plain
  | .nifelse test ifpart elsepart => test.plain && ifpart.plain && elsepart.plain
  | .nloop _ rounds => rounds.plain
  | .nfor words bodies => words.plain && bodies.plain
  | .ncase words => words.plain
  | .ncasematch words body => words.plain && body.plain

def Nodes.plain : Nodes → Bool
  | .nil => true
  | .cons n ns => n.plain && ns.plain

def Rounds.plain : Rounds → Bool
  | .nil => true
  | .cons cond body rest => cond.plain && body.plain && rest.plain

def Words.plain : Words → Bool
  | .mk .nil _ => true
  | .mk (.cons _ _) _ => false

def Command.plain : Command → Bool
  | .null | .unknown => true
  | .external _ _ => true
  | .builtin _ _ => true
  | .function _ _ body => body.plain
  | .eval _ ns => ns.plain
  | .dot _ _ _ ns => ns.plain

end

theorem disciplined_expand {words : Words} (h : words.plain = true) : Disciplined (expand words) := by
  obtain ⟨substs, fails⟩ := words
  cases substs with
  | nil => exact disciplined_expandargs fails
  | cons n ns => cases h

mutual

/-- **The stacks of the evaluator**: every plain tree is balanced when it returns and unwindable when
it raises. -/
theorem evaltree_disciplined (tested : Bool) :
    ∀ n : Node, n.plain = true → Disciplined (evaltree tested n)
  | .null, _ => fun s _ => Balanced.refl s
  | .syntaxError, _ => disciplined_ashMsgAndRaiseError
  | .nnot com, h =>
    (evaltree_disciplined true com h).bind fun _ => disciplined_setstatus _
  | .nredir words rs n, h => by
    simp only [Node.plain, Bool.and_eq_true] at h
    exact disciplined_evalredir (disciplined_expand h.1.1) (lowFds_iff.mp h.1.2)
      (evaltree_disciplined tested n h.2)
  | .ncmd args redirs assigns rs names c, h => by
    simp only [Node.plain, Bool.and_eq_true, Bool.or_eq_true] at h
    obtain ⟨⟨⟨⟨⟨hargs, hredirs⟩, hassigns⟩, hrs⟩, hexec⟩, hc⟩ := h
    have hexec' : c.info.isExec = true → rs = [] := by
      intro htrue
      rcases hexec with hnot | hempty
      · rw [htrue] at hnot
        cases hnot
      · exact List.isEmpty_iff.mp hempty
    apply Disciplined.bind
    · exact disciplined_evalcommand c.info (disciplined_expand hargs) (disciplined_expand hredirs)
        (disciplined_expand hassigns) (lowFds_iff.mp hrs) hexec' names (evalfound_loose tested c hc)
    · intro status
      apply (disciplined_setstatus status).bind
      exact fun status => disciplined_checkexit tested status
  | .nsubshell words, h =>
    (disciplined_expand h).bind fun _ => disciplined_ashMsgAndRaiseError
  | .nand ch1 ch2, h => by
    simp only [Node.plain, Bool.and_eq_true] at h
    exact disciplined_evalbinary _ (evaltree_disciplined true ch1 h.1)
      (evaltree_disciplined tested ch2 h.2)
  | .nor ch1 ch2, h => by
    simp only [Node.plain, Bool.and_eq_true] at h
    exact disciplined_evalbinary _ (evaltree_disciplined true ch1 h.1)
      (evaltree_disciplined tested ch2 h.2)
  | .nsemi ch1 ch2, h => by
    simp only [Node.plain, Bool.and_eq_true] at h
    exact disciplined_evalbinary _ (evaltree_disciplined tested ch1 h.1)
      (evaltree_disciplined tested ch2 h.2)
  | .nif test ifpart, h => by
    simp only [Node.plain, Bool.and_eq_true] at h
    exact disciplined_evalif (evaltree_disciplined true test h.1)
      (evaltree_disciplined tested ifpart h.2) (disciplined_pure 0)
  | .nifelse test ifpart elsepart, h => by
    simp only [Node.plain, Bool.and_eq_true] at h
    exact disciplined_evalif (evaltree_disciplined true test h.1.1)
      (evaltree_disciplined tested ifpart h.1.2) (evaltree_disciplined tested elsepart h.2)
  | .nloop isUntil rounds, h =>
    (disciplined_nested
      (disciplined_evalrounds isUntil (evalroundlist_disciplined tested rounds h) 0)).bind
      fun status => disciplined_setstatus status
  | .nfor words bodies, h => by
    simp only [Node.plain, Bool.and_eq_true] at h
    apply (disciplined_expand h.1).bind
    intro _
    apply (disciplined_nested (disciplined_forrounds (evaltrees_disciplined tested bodies h.2) 0)).bind
    exact fun status => disciplined_setstatus status
  | .ncase words, h => (disciplined_expand h).bind fun _ => disciplined_setstatus 0
  | .ncasematch words body, h => by
    simp only [Node.plain, Bool.and_eq_true] at h
    apply (disciplined_expand h.1).bind
    intro _
    exact (evaltree_disciplined tested body h.2).bind fun status => disciplined_setstatus status
  | .ndefun, _ => disciplined_setstatus 0

theorem evaltrees_disciplined (tested : Bool) :
    ∀ ns : Nodes, ns.plain = true → ∀ n ∈ evaltrees tested ns, Disciplined n
  | .nil, _ => fun _ hmem => absurd hmem List.not_mem_nil
  | .cons n ns, h => by
    simp only [Nodes.plain, Bool.and_eq_true] at h
    intro m hmem
    rcases List.mem_cons.mp hmem with rfl | hmem
    · exact evaltree_disciplined tested n h.1
    · exact evaltrees_disciplined tested ns h.2 m hmem

theorem evalroundlist_disciplined (tested : Bool) :
    ∀ rounds : Rounds, rounds.plain = true →
      ∀ round ∈ evalroundlist tested rounds, Disciplined round.1 ∧ Disciplined round.2
  | .nil, _ => fun _ hmem => absurd hmem List.not_mem_nil
  | .cons cond body rest, h => by
    simp only [Rounds.plain, Bool.and_eq_true] at h
    intro round hmem
    rcases List.mem_cons.mp hmem with rfl | hmem
    · exact ⟨evaltree_disciplined true cond h.1.1, evaltree_disciplined tested body h.1.2⟩
    · exact evalroundlist_disciplined tested rest h.2 round hmem

theorem evalfound_loose (tested : Bool) :
    ∀ c : Command, c.plain = true → Loose (evalfound tested c)
  | .null, _ => by
    apply disciplined_read.loose.bind
    intro s
    exact loose_evalbltin (disciplined_pure s.backExitstatus) false
  | .unknown, _ => by
    apply Disciplined.loose
    apply disciplined_modify
    exact fun s => ⟨congrArg Table.get (Io.fflushAll_fds s.io), rfl, rfl, rfl⟩
  | .external ops status, _ => by
    apply Disciplined.loose
    apply disciplined_modify
    exact fun s => ⟨funext (Io.runAll_fds s.io ops), rfl, rfl, rfl⟩
  | .builtin special b, _ => loose_evalbltin (disciplined_builtin b) special
  | .function line args body, h => loose_evalfun line args (evaltree_disciplined tested body h)
  | .eval special ns, h =>
    loose_evalbltin (disciplined_evalstring (evaltrees_disciplined tested ns h)) special
  | .dot special path args ns, h =>
    loose_evalbltin (disciplined_dotcmd path args (evaltrees_disciplined false ns h)) special

end

/-! ## The prompt -/

/-- `exitreset`; `parked` is whether an `exit` has left its status in `savestatus`. -/
def exitreset (parked : Bool) : Sh Unit := do
  Program.modify fun s =>
    { s with
      exitstatus :=
        if parked && decide (0 ≤ s.savestatus) then UInt8.ofNat s.savestatus.toNat else s.exitstatus
      savestatus := -1
      evalskip := .none
      loopnest := 0 }
  let s ← Program.read
  unwindredir s.redirlist.length

/-- `reset`: back to the input of the prompt. -/
def reset : Sh Unit := do
  let s ← Program.read
  unwindfiles s.parsefiles.length
  Program.modify fun s => { s with localvars := [] }

/-- `exitshell`. -/
def exitshell (parked : Bool) : Sh Unit := do
  Program.modify fun s => { s with savestatus := s.exitstatus.toNat }
  exitreset parked
  onIo Io.fflushAll
  let s ← Program.read
  Program.stop (.exited s.exitstatus)

/-- `ash_main` and `cmdloop` of an interactive shell: an error goes back to the prompt, `exit` and
`set -e` end the shell, and so does a `return`, `break` or `continue` that nothing takes. -/
def session : List (Sh UInt8) → Sh Unit
  | [] => pure ()
  | n :: ns => do
    match ← setjmp n with
    | .ok _ => do
      let s ← Program.read
      if s.evalskip ≠ .none then exitshell false else session ns
    | .error e => do
      exitreset (e == .exexit)
      if e = .exend ∨ e = .exexit then exitshell (e == .exexit)
      else do
        reset
        session ns

/-- The shell waits for a command, with the descriptors it started with. -/
structure AtPrompt (base : ℕ → Option ℕ) (s : Ash) : Prop where
  fds : s.io.fds.get = base
  redirlist : s.redirlist = []
  parsefiles : s.parsefiles = []
  localvars : s.localvars = []

theorem AtPrompt.scripts {base : ℕ → Option ℕ} {s : Ash} (h : AtPrompt base s) : Scripts s := by
  intro fd hfd
  rw [h.parsefiles] at hfd
  cases hfd

theorem AtPrompt.of_balanced {base : ℕ → Option ℕ} {s s' : Ash} (h : AtPrompt base s)
    (h' : Balanced s s') : AtPrompt base s' where
  fds := h'.fds.trans h.fds
  redirlist := h'.redirlist.trans h.redirlist
  parsefiles := h'.parsefiles.trans h.parsefiles
  localvars := List.eq_nil_of_length_eq_zero (by rw [h'.localvars, h.localvars]; rfl)

theorem exitshell_ends (parked : Bool) {Q : Unit → Ash → Prop} {s : Ash}
    (h : ∃ tabs files s₀, s₀.redirlist = [] ∧ Pushed tabs files s₀ s) :
    (exitshell parked).wp Q (fun stop _ => ¬ stop.IsRaised) s := by
  obtain ⟨tabs, files, s₀, hnil, hpushed⟩ := h
  rw [exitshell, Program.wp_bind, Program.wp_modify, Program.wp_bind, exitreset, Program.wp_bind,
    Program.wp_modify, Program.wp_bind, Program.wp_read]
  have hlength : s.redirlist.length = tabs.length := by
    rw [hpushed.redirlist, hnil, List.append_nil]
  dsimp only
  rw [hlength]
  have hcleared : Balanced s { s with
      savestatus := -1, evalskip := .none, loopnest := 0
      exitstatus :=
        if parked && decide ((0 : ℤ) ≤ s.exitstatus.toNat) then
          UInt8.ofNat (s.exitstatus.toNat : ℤ).toNat
        else s.exitstatus } := ⟨rfl, rfl, rfl, rfl⟩
  apply Program.wp_mono (wp_unwindredir (hpushed.trans hcleared.pushed))
  · exact fun _ _ _ hraised => hraised
  · exact fun _ _ hfalse => hfalse.elim

/-- **Back at the prompt**: whatever an error has left is unwound. -/
theorem wp_reset {base : ℕ → Option ℕ} {s s₁ : Ash} (h : AtPrompt base s) (h₁ : Unwinds s s₁)
    (parked : Bool) :
    (exitreset parked).wp
      (fun _ s₂ => (∃ files, Pushed [] files s s₂) ∧ reset.wp (fun _ s₃ => AtPrompt base s₃)
        (fun _ _ => False) s₂)
      (fun _ _ => False) s₁ := by
  obtain ⟨tabs, files, h₁⟩ := h₁
  rw [exitreset, Program.wp_bind, Program.wp_modify, Program.wp_bind, Program.wp_read]
  have hlength : s₁.redirlist.length = tabs.length := by
    rw [h₁.redirlist, h.redirlist, List.append_nil]
  dsimp only
  rw [hlength]
  have hcleared : Balanced s₁ { s₁ with
      savestatus := -1, evalskip := .none, loopnest := 0
      exitstatus :=
        if parked && decide (0 ≤ s₁.savestatus) then UInt8.ofNat s₁.savestatus.toNat
        else s₁.exitstatus } := ⟨rfl, rfl, rfl, rfl⟩
  apply Program.wp_mono (wp_unwindredir (h₁.trans hcleared.pushed))
  · rintro _ s₂ ⟨h₂, -⟩
    refine ⟨⟨_, h₂⟩, ?_⟩
    rw [reset, Program.wp_bind, Program.wp_read, Program.wp_bind]
    have hfiles : s₂.parsefiles.length = files.length := by
      rw [h₂.parsefiles, h.parsefiles, List.append_nil]
      rfl
    rw [hfiles]
    apply Program.wp_mono (wp_unwindfiles h₂)
    · rintro _ s₃ ⟨h₃, -⟩
      rw [Program.wp_modify]
      exact ⟨h₃.held.eq_of_nil.trans h.fds, h₃.redirlist.trans h.redirlist,
        h₃.parsefiles.trans h.parsefiles, rfl⟩
    · exact fun _ _ hfalse => hfalse
  · exact fun _ _ hfalse => hfalse

/-- One command after the other: what holds at one prompt holds at the next. -/
theorem wp_session {base : ℕ → Option ℕ} {ns : List Node} (hns : ∀ n ∈ ns, n.plain = true) {s : Ash}
    (h : AtPrompt base s) :
    (session (ns.map (evaltree false))).wp (fun _ s' => AtPrompt base s')
      (fun stop _ => ¬ stop.IsRaised) s := by
  induction ns generalizing s with
  | nil => exact h
  | cons n ns ih =>
    have hrest : ∀ {t : Ash}, AtPrompt base t → _ :=
      ih fun n' hmem => hns n' (List.mem_cons_of_mem n hmem)
    rw [List.map_cons, session, Program.wp_bind, wp_setjmp]
    apply Program.wp_mono (evaltree_disciplined false n (hns n List.mem_cons_self) s h.scripts)
    · intro status s₁ h₁
      dsimp only
      rw [Program.wp_bind, Program.wp_read]
      split_ifs
      · exact exitshell_ends false ⟨[], [], s, h.redirlist, h₁.pushed⟩
      · exact hrest (h.of_balanced h₁)
    · intro stop s₁ h₁
      cases stop with
      | exited status => exact id
      | raised e =>
        dsimp only
        rw [Program.wp_bind]
        apply Program.wp_mono (wp_reset h (h₁ trivial) _)
        · rintro _ s₂ ⟨⟨files, h₂⟩, hreset⟩
          split_ifs
          · exact exitshell_ends _ ⟨[], files, s, h.redirlist, h₂⟩
          · rw [Program.wp_bind]
            apply Program.wp_mono hreset
            · exact fun _ s₃ h₃ => hrest h₃
            · exact fun _ _ hfalse => hfalse.elim
        · exact fun _ _ hfalse => hfalse.elim

/-- `f() { { . lib; } 2>log; } <in >out; f; true`, where the file `lib` ends in an error. -/
def errorInside : List Node :=
  [.ncmd (.mk .nil false) (.mk .nil false) (.mk .nil false)
      [⟨0, .file ['i', 'n'] rdonly⟩, ⟨1, .file ['o', 'u', 't'] wronlyTrunc⟩] []
      (.function 1 [] (.nredir (.mk .nil false) [⟨2, .file ['l', 'o', 'g'] wronlyTrunc⟩]
        (simpleCommand (.dot true (some ['l', 'i', 'b']) []
          (.cons (.nredir (.mk .nil false) [⟨1, .dup 2⟩] .syntaxError) .nil))))),
    simpleCommand (.external [] 0)]

/-- A session with the files that are read. -/
def errorSession : Ash := Ash.start (Io.start [] [(['i', 'n'], []), (['l', 'i', 'b'], [])])

end OsMoap.Shell
