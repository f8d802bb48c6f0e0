import OsMoap.Shell.Captures
import OsMoap.Shell.Redirect

/-!
# Command Substitution

`osd_evalbackcmd_inproc` and `expbackq` of `guest/busybox/upstream/shell/ash.c`.  The command runs
in the shell itself with its output in a file, on fresh registers of the expansion and under a
handler of its own; what the helper has saved is put back when the command returns or raises.
-/

namespace OsMoap.Shell

open OsMoap.Lib OsMoap.Pack

/-- `stdout` to a file: the copy of descriptor 1, the descriptor of the file and its name. -/
def beginCapture : Sh (ℕ × ℕ × Text) := do
  let s ← Program.read
  let tmppath := capturePath .subst s.depth
  let (saved1, io) := s.io.fflushAll.dupfd 1 10
  -- both calls are made before either is checked
  match saved1, io.openFile tmppath rdwrTrunc with
  | some saved1, some (tmpfd, io) =>
    -- a nested substitution uses the next name
    Program.modify fun s => { s with depth := s.depth + 1, io := (io.dup2 tmpfd 1).2 }
    pure (saved1, tmpfd, tmppath)
  | some saved1, none =>
    Program.modify fun s => { s with io := io.close saved1 }
    ashMsgAndRaiseError
  | none, some (tmpfd, io) =>
    Program.modify fun s => { s with io := io.close tmpfd }
    ashMsgAndRaiseError
  | none, none =>
    Program.modify fun s => { s with io := io }
    ashMsgAndRaiseError

/-- `stdout` back, and the file rewound and unlinked. -/
def endCapture (saved1 tmpfd : ℕ) (tmppath : Text) : Sh Unit :=
  Program.modify fun s => { s with
    depth := s.depth - 1
    io := (((s.io.fflushAll.dup2 saved1 1).2.close saved1).rewind tmpfd).unlink tmppath }

/-- A fresh arena and virgin registers. -/
def Expansion.fresh (e : Expansion) : Expansion :=
  { e with
    stackp := 1, stacknxt := 1, stacknleft := 504, strend := 505
    expdest := 0, argbackq := 0, ifsfirst := (0, e.ifsfirst.2), ifslastp := 0 }

def enterNested (s : Ash) : Ash :=
  { s with
    expansion := s.expansion.fresh
    evalskip := .none, skipcount := 0, loopnest := 0, funcline := 0, eflag := false }

/-- Put back what was saved. -/
def leaveNested (sv s : Ash) : Ash :=
  { s with
    expansion := sv.expansion
    evalskip := sv.evalskip, skipcount := sv.skipcount, loopnest := sv.loopnest
    funcline := sv.funcline, exitstatus := sv.exitstatus, savestatus := sv.savestatus
    eflag := sv.eflag }

/-- `osd_bq_status`: `exit N` has parked `N` in `savestatus`. -/
def bqStatusOf (s : Ash) : Except Exn UInt8 → UInt8
  | .ok _ => s.exitstatus
  | .error .exexit => if 0 ≤ s.savestatus then UInt8.ofNat s.savestatus.toNat else s.exitstatus
  | .error _ => 2

def osdEvalbackcmdInproc (n : Sh UInt8) : Sh ℕ := do
  let (saved1, tmpfd, tmppath) ← beginCapture
  -- what is saved is the state after `stdout` was redirected
  let sv ← Program.read
  Program.modify enterNested
  -- `err` of `setjmp`: only `_exit` leaves the helper here
  let r ← catching n
  Program.modify fun s => leaveNested sv { s with bqStatus := bqStatusOf s r }
  endCapture saved1 tmpfd tmppath
  pure tmpfd

/-- `memtodest` without `EXP_KEEPNUL`; the marks of `QUOTES_ESC`, which are taken out again, are
not shown. -/
def memtodest (bs : Bytes) : Bytes := bs.filter (· != 0)

/-- The loop of `expbackq`, in pieces of 128 bytes. -/
def readLoop (fd : ℕ) : ℕ → Bytes → Sh Bytes
  | 0, dest => pure dest
  | fuel + 1, dest => do
    let s ← Program.read
    match s.io.read fd 128 with
    | (some (b :: bs), io) => do
      Program.modify fun s => { s with io := io }
      readLoop fd fuel (dest ++ memtodest (b :: bs))
    -- the end of the file, or an error
    | (_, io) => do
      Program.modify fun s => { s with io := io }
      pure dest

/-- How much of a file is left to read. -/
def Io.remaining (io : Io) (fd : ℕ) : ℕ :=
  match io.description fd with
  | none => 0
  | some (_, desc) => (io.contents desc.ino).length - desc.offset

/-- Eat all trailing newlines. -/
def eatNewlines (bs : Bytes) : Bytes := (bs.reverse.dropWhile (· == 10)).reverse

/-- What is appended at `expdest`. -/
def expbackq (n : Sh UInt8) : Sh Bytes := do
  let fd ← osdEvalbackcmdInproc n
  let s ← Program.read
  let dest ← readLoop fd (s.io.remaining fd + 1) []
  -- there is no job to wait for: `in.jp` is null
  Program.modify fun s => { s with io := s.io.close fd, backExitstatus := s.bqStatus }
  pure (eatNewlines dest)

end OsMoap.Shell
