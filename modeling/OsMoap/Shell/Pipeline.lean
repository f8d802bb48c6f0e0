import OsMoap.Shell.Captures
import OsMoap.Shell.Redirect

/-!
# Pipelines

`evalpipe` of `guest/busybox/upstream/shell/ash.c`: the stages run one after the other in the shell
itself, each with its output in a file that is the input of the next.  Descriptors 0 and 1 are
copied to ten or above before a stage and put back after it, if it returns.
-/

namespace OsMoap.Shell

open OsMoap.Lib OsMoap.Pack

/-- `if (old >= 0) { dup2(old, new); close(old); }`. -/
def Io.moveFd (io : Io) (old : Option ℕ) (new : ℕ) : Io :=
  match old with
  | none => io
  | some fd => (io.dup2 fd new).2.close fd

@[simp]
theorem Io.moveFd_stdin (io : Io) (old : Option ℕ) (new : ℕ) :
    (io.moveFd old new).stdin = io.stdin := by
  cases old with
  | none => rfl
  | some fd => cases h : io.fds.get fd <;> simp [Io.moveFd, Io.dup2, h, Io.close]

@[simp]
theorem Io.moveFd_creatable (io : Io) (old : Option ℕ) (new : ℕ) :
    (io.moveFd old new).creatable = io.creatable := by
  cases old with
  | none => rfl
  | some fd => cases h : io.fds.get fd <;> simp [Io.moveFd, Io.dup2, h, Io.close]

/-- A move changes the descriptor it goes to and closes the one it comes from. -/
theorem Io.moveFd_get_of_ne {io : Io} {old : Option ℕ} {n new : ℕ} (hold : old ≠ some n)
    (hnew : n ≠ new) : (io.moveFd old new).fds.get n = io.fds.get n := by
  cases old with
  | none => rfl
  | some fd =>
    have hfd : n ≠ fd := by
      rintro rfl
      exact hold rfl
    cases h : io.fds.get fd with
    | none =>
      rw [Io.moveFd, Io.dup2_of_closed h]
      exact Table.get_set_of_ne _ hfd _
    | some d =>
      rw [Io.moveFd, Io.dup2_of_open h]
      exact (Table.get_set_of_ne _ hfd _).trans (Table.get_set_of_ne _ hnew _)

/-- The copies of descriptors 0 and 1, and `osd_tmp` where another stage follows. -/
structure Stage where
  save0 : Option ℕ
  save1 : Option ℕ
  tmp : Option Text
  deriving DecidableEq

/-- The name of the file of the next stage. -/
def nextTmp (s : Ash) : Text := capturePath .pipe ((s.pipeseq + 1) % 2 ^ 32)

/-- The file of a stage that is not the last one: its descriptor and name. -/
def openTmp (prevfd : Option ℕ) : Sh (ℕ × Text) := do
  let s ← Program.read
  Program.modify fun s => { s with pipeseq := (s.pipeseq + 1) % 2 ^ 32 }
  match s.io.openFile (nextTmp s) wronlyTrunc with
  | some (outfd, io) =>
    Program.modify fun s => { s with io := io }
    pure (outfd, nextTmp s)
  -- the sequence number has gone up all the same
  | none =>
    onIo fun io => prevfd.elim io io.close
    ashMsgAndRaiseError

/-- Park descriptors 0 and 1 and point them to the files of the stage. -/
def enterStage (prevfd outfd : Option ℕ) (tmp : Option Text) : Sh Stage := do
  let s ← Program.read
  -- the copies come before the moves, so that neither can land on `prevfd` or `outfd`
  let (save0, io) := s.io.dupfd 0 10
  let (save1, io) := io.dupfd 1 10
  Program.modify fun s => { s with io := ((io.moveFd prevfd 0).moveFd outfd 1).purge }
  pure ⟨save0, save1, tmp⟩

/-- What comes before `evaltree` in the loop. -/
def beginStage (prevfd : Option ℕ) (last : Bool) : Sh Stage :=
  if last then enterStage prevfd none none
  else do
    let (outfd, tmp) ← openTmp prevfd
    enterStage prevfd (some outfd) (some tmp)

/-- The file of a stage is opened for the next one and unlinked. -/
def Io.reopen (io : Io) (tmp : Text) : Option ℕ × Io :=
  match io.openFile tmp rdonly with
  | some (fd, io') => (some fd, io'.unlink tmp)
  | none => (none, io.unlink tmp)

/-- What comes after it: the result is the next `prevfd`. -/
def endStage (stage : Stage) : Sh (Option ℕ) := do
  onIo fun io => (io.fflushAll.moveFd stage.save0 0).moveFd stage.save1 1
  -- only a stage that another one follows has a file
  match stage.tmp with
  | none => pure none
  | some tmp => do
    let s ← Program.read
    Program.modify fun s => { s with io := (s.io.reopen tmp).2 }
    pure (s.io.reopen tmp).1

/-- The loop of `evalpipe` over the stages. -/
def evalstages (prevfd : Option ℕ) (status : UInt8) : List (Sh UInt8) → Sh UInt8
  | [] => pure status
  | stage :: rest => do
    let frame ← beginStage prevfd rest.isEmpty
    -- a stage that raises takes the rest of the loop with it, descriptors and all
    let _ ← stage
    -- `status` is `exitstatus`, not what `evaltree` returned
    let s ← Program.read
    let prevfd ← endStage frame
    evalstages prevfd s.exitstatus rest

def evalpipe (stages : List (Sh UInt8)) : Sh UInt8 := evalstages none 0 stages

end OsMoap.Shell
