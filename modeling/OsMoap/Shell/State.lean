import OsMoap.Lib.Program
import OsMoap.Shell.Io

/-!
# The State of the Shell

The globals of `guest/busybox/upstream/shell/ash.c` that the evaluator works on, and its programs:
they return, are left by a `longjmp` to `exception_handler`, or end the process.
-/

namespace OsMoap.Shell

open OsMoap.Lib OsMoap.Pack

/-- `evalskip`. -/
inductive Skip where
  | none
  | skipbreak
  | skipcont
  | skipfunc
  | skipfuncdef
  deriving DecidableEq

/-- `evalskip & ~(SKIPFUNC | SKIPFUNCDEF)`. -/
def Skip.dropFunc : Skip → Skip
  | .skipfunc => .none
  | .skipfuncdef => .none
  | skip => skip

/-- A slot of a `redirtab`: a descriptor, and where it has been moved; `none` is `CLOSED`. -/
structure Squirrel where
  origFd : ℕ
  movedTo : Option ℕ
  deriving DecidableEq

/-- The used slots of a `redirtab`, in order. -/
abbrev Redirtab := List Squirrel

/-- An input file of the parser: `pf_fd`, or `none` for a string. -/
structure Parsefile where
  fd : Option ℕ
  deriving DecidableEq

/-- The registers of the allocator and of the expansion in progress. -/
structure Expansion where
  stackp : ℕ
  stacknxt : ℕ
  strend : ℕ
  stacknleft : ℕ
  expdest : ℕ
  argbackq : ℕ
  ifsfirst : ℕ × ℕ × ℕ
  ifslastp : ℕ
  deriving DecidableEq

structure Ash where
  io : Io
  redirlist : List Redirtab
  /-- The files of `g_parsefile`, the innermost first, without `basepf`. -/
  parsefiles : List Parsefile
  /-- The names saved in each frame of `localvar_stack`. -/
  localvars : List (List Text)
  shellparam : List Text
  evalskip : Skip
  skipcount : ℤ
  loopnest : ℤ
  funcline : ℕ
  exitstatus : UInt8
  savestatus : ℤ
  eflag : Bool
  /-- How many handlers are installed: which one `exception_handler` is. -/
  handler : ℕ
  expansion : Expansion
  /-- `osd_pipeseq` of `evalpipe`. -/
  pipeseq : ℕ
  /-- `depth` of `osd_evalbackcmd_inproc`. -/
  depth : ℕ
  /-- `osd_bq_status`. -/
  bqStatus : UInt8
  backExitstatus : UInt8

/-- The shell as it starts. -/
def Ash.start (io : Io) : Ash where
  io := io
  redirlist := []
  parsefiles := []
  localvars := []
  shellparam := []
  evalskip := .none
  skipcount := 0
  loopnest := 0
  funcline := 0
  exitstatus := 0
  savestatus := -1
  eflag := false
  handler := 0
  expansion := ⟨0, 0, 0, 0, 0, 0, (0, 0, 0), 0⟩
  pipeseq := 0
  depth := 0
  bqStatus := 0
  backExitstatus := 0

/-- `exception_type`. -/
inductive Exn where
  | exint
  | exerror
  | exend
  | exexit
  deriving DecidableEq

/-- A `longjmp` to the handler, or `_exit`. -/
inductive Stop where
  | raised (e : Exn)
  | exited (status : UInt8)
  deriving DecidableEq

abbrev Sh := Program Ash Stop

/-- Change what the shell has of the system. -/
def onIo (f : Io → Io) : Sh Unit := Program.modify fun s => { s with io := f s.io }

def raiseException (e : Exn) : Sh α := Program.stop (.raised e)

/-- `ash_msg_and_raise_error`: the message itself goes to `stderr`. -/
def ashMsgAndRaiseError : Sh α := do
  -- `ash_vmsg_and_raise` flushes before it raises
  Program.modify fun s => { s with exitstatus := 2, io := s.io.fflushAll }
  raiseException .exerror

/-- `setjmp`: an exception is a result, and `_exit` is not caught. -/
def setjmp (m : Sh α) : Sh (Except Exn α) := fun s =>
  match m s with
  | (.ok a, s') => (.ok (.ok a), s')
  | (.error (.raised e), s') => (.ok (.error e), s')
  | (.error (.exited status), s') => (.error (.exited status), s')

/-- Run with a handler of one's own in `exception_handler`. -/
def catching (m : Sh α) : Sh (Except Exn α) := do
  let s ← Program.read
  Program.modify fun t => { t with handler := s.handler + 1 }
  let r ← setjmp m
  Program.modify fun t => { t with handler := s.handler }
  pure r

/-- `longjmp(exception_handler->loc, 1)` if there was an exception. -/
def reraise : Except Exn α → Sh α
  | .ok a => pure a
  | .error e => raiseException e

theorem wp_setjmp {m : Sh α} {Q : Except Exn α → Ash → Prop} {E : Stop → Ash → Prop} {s : Ash} :
    (setjmp m).wp Q E s ↔
      m.wp (fun a => Q (.ok a)) (fun
        | .raised e => Q (.error e)
        | .exited status => E (.exited status)) s := by
  rw [Program.wp, setjmp, Program.wp]
  rcases m s with ⟨(e | status) | a, s'⟩
  · rfl
  · rfl
  · rfl

theorem wp_catching {m : Sh α} {Q : Except Exn α → Ash → Prop} {E : Stop → Ash → Prop} {s : Ash} :
    (catching m).wp Q E s ↔
      m.wp (fun a s' => Q (.ok a) { s' with handler := s.handler }) (fun
        | .raised e => fun s' => Q (.error e) { s' with handler := s.handler }
        | .exited status => E (.exited status)) { s with handler := s.handler + 1 } := by
  simp only [catching, Program.wp_bind, Program.wp_read, Program.wp_modify, wp_setjmp]
  exact Iff.rfl

end OsMoap.Shell
