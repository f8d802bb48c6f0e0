import OsMoap.Shell.Backquote
import OsMoap.Shell.Pipeline

/-!
# The Evaluator

`evaltree` of `guest/busybox/upstream/shell/ash.c` and what it calls.  A `Node` is a tree together
with what its commands do: which builtin was found, what an applet does to the streams, which words
contain substitutions and whether their expansion fails, and one body for every round of a loop.
Every run of the shell over a tree is the value of `evaltree` at such a node.

The flag `EV_EXIT` is never set here: `evalpipe` takes it away and a substitution is evaluated
without it.  `fork` and `pipe` are `ENOSYS`, so a subshell raises an error and so does a here
document.  Traps are not set.
-/

namespace OsMoap.Shell

open OsMoap.Lib OsMoap.Pack

/-! ## Builtins -/

/-- How the program of `exec` ends: the host runs it, or it is not found or not executable. -/
inductive ExecEnd where
  | ran (ops : List Op) (status : UInt8)
  | failed (exerrno : UInt8)
  deriving DecidableEq

inductive Builtin where
  /-- One that only works on streams, files and variables. -/
  | plain (ops : List Op) (status : UInt8)
  /-- One that finds an error in its arguments. -/
  | fails
  | breakcmd (n : ℕ)
  | continuecmd (n : ℕ)
  | returncmd (n : Option ℕ)
  | exitcmd (n : Option ℕ)
  | setErrexit (on : Bool)
  | setparam (params : List Text)
  | shiftcmd (n : ℕ)
  | localcmd (names : List Text)
  | execcmd (program : Option ExecEnd)
  deriving DecidableEq

/-- `breakcmd`, also for `continue`. -/
def breakcmd (skip : Skip) (n : ℕ) : Sh UInt8 := do
  -- `number` takes no negative ones
  if n = 0 then ashMsgAndRaiseError
  else do
    Program.modify fun s =>
      -- no more loops than there are, and outside any loop nothing is skipped
      let levels := if (n : ℤ) > s.loopnest then s.loopnest else n
      if 0 < levels then { s with evalskip := skip, skipcount := levels } else s
    pure 0

/-- `mklocal`: a second `local` of a name does nothing. -/
def mklocal (name : Text) (s : Ash) : Ash :=
  match s.localvars with
  | [] => s
  | frame :: frames =>
    if frame.contains name && name != ['-'] then s
    else { s with localvars := (name :: frame) :: frames }

/-- What `shellexec` does: the process becomes the program, or `EXEND` is raised. -/
def shellexec : ExecEnd → Sh UInt8
  | .ran ops status => do
    onIo (Io.runAll · ops)
    -- `execve` does not return, whatever the handlers
    Program.stop (.exited status)
  | .failed exerrno => do
    Program.modify fun s => { s with exitstatus := exerrno, io := s.io.fflushAll }
    raiseException .exend

def Builtin.run : Builtin → Sh UInt8
  | .plain ops status => do
    onIo (Io.runAll · ops)
    pure status
  | .fails => ashMsgAndRaiseError
  | .breakcmd n => Shell.breakcmd .skipbreak n
  | .continuecmd n => Shell.breakcmd .skipcont n
  | .returncmd (some n) => do
    Program.modify fun s => { s with evalskip := .skipfunc }
    pure (UInt8.ofNat n)
  | .returncmd none => do
    let s ← Program.read
    -- without an argument the status is the one of the last command
    Program.modify fun s => { s with evalskip := .skipfuncdef }
    pure s.exitstatus
  | .exitcmd n => do
    -- `exitshell` reads the status from `savestatus`
    Program.modify fun s => { s with savestatus := n.elim s.savestatus Int.ofNat }
    raiseException .exexit
  | .setErrexit on => do
    Program.modify fun s => { s with eflag := on }
    pure 0
  | .setparam params => do
    Program.modify fun s => { s with shellparam := params }
    pure 0
  | .shiftcmd n => do
    let s ← Program.read
    if n > s.shellparam.length then pure 1
    else do
      Program.modify fun s => { s with shellparam := s.shellparam.drop n }
      pure 0
  | .localcmd names => do
    let s ← Program.read
    if s.localvars = [] then ashMsgAndRaiseError
    else do
      Program.modify fun s => names.foldl (fun s name => mklocal name s) s
      pure 0
  | .execcmd none => pure 0
  | .execcmd (some program) => shellexec program

def Builtin.isExec : Builtin → Bool
  | .execcmd _ => true
  | _ => false

/-- `evalbltin`: an exception is a result. -/
def evalbltin (builtin : Sh UInt8) : Sh (Except Exn Unit) :=
  catching do
    let status ← builtin
    Program.modify fun s => { s with io := s.io.fflushAll, exitstatus := status }

/-! ## Functions and files -/

def evalfun (line : ℕ) (args : List Text) (body : Sh UInt8) : Sh (Except Exn Unit) := do
  let sv ← Program.read
  let r ← catching do
    Program.modify fun s => { s with funcline := line, shellparam := args }
    -- the status of the body is in `exitstatus`; what `setjmp` gave is the result
    let _ ← body
    pure ()
  Program.modify fun s =>
    { s with
      funcline := sv.funcline
      shellparam := sv.shellparam
      evalskip := s.evalskip.dropFunc }
  pure r

def popfile : Sh Unit :=
  Program.modify fun s =>
    match s.parsefiles with
    | [] => s
    | pf :: pfs => { s with parsefiles := pfs, io := pf.fd.elim s.io s.io.close }

/-- `unwindfiles`, over the given number of files. -/
def unwindfiles : ℕ → Sh Unit
  | 0 => pure ()
  | n + 1 => do
    popfile
    unwindfiles n

/-- The commands of a string, one after the other. -/
def evalcmds (status : UInt8) : List (Sh UInt8) → Sh UInt8
  | [] => pure status
  | n :: ns => do
    let i ← n
    let s ← Program.read
    if s.evalskip ≠ .none then pure i else evalcmds i ns

/-- On an exception the string is popped as well. -/
def evalstring (ns : List (Sh UInt8)) : Sh UInt8 := do
  Program.modify fun s => { s with parsefiles := ⟨none⟩ :: s.parsefiles }
  let r ← catching (evalcmds 0 ns)
  popfile
  reraise r

/-- `cmdloop` on a file: `return` ends it. -/
def cmdloop (ns : List (Sh UInt8)) : Sh UInt8 := do
  let status ← evalcmds 0 ns
  Program.modify fun s => { s with evalskip := s.evalskip.dropFunc }
  pure status

/-- `setinputfile` with `INPUT_PUSH_FILE`. -/
def setinputfile (path : Text) : Sh Unit := do
  let s ← Program.read
  match s.io.openFile path rdonly with
  | none => ashMsgAndRaiseError
  | some (fd, io) =>
    -- the descriptors below ten are the user's
    let (fd, io) := if fd < 10 then ((io.dupfd fd 10).1, (io.dupfd fd 10).2.close fd) else (some fd, io)
    Program.modify fun s => { s with io := io, parsefiles := ⟨fd⟩ :: s.parsefiles }

/-- `dotcmd`; `path` is what `find_dot_file` finds. -/
def dotcmd (path : Option Text) (args : List Text) (ns : List (Sh UInt8)) : Sh UInt8 := do
  match path with
  | none => ashMsgAndRaiseError
  | some path => do
    let sv ← Program.read
    Program.modify fun s => if args = [] then s else { s with shellparam := args }
    -- no handler of its own: an exception leaves the file pushed for `unwindfiles`
    setinputfile path
    let status ← cmdloop ns
    popfile
    Program.modify fun s => if args = [] then s else { s with shellparam := sv.shellparam }
    pure status

/-! ## Simple commands -/

/-- The substitutions of some words in order, and whether the expansion ends in an error. -/
def expandargs (fails : Bool) : List (Sh UInt8) → Sh Unit
  | [] => if fails then ashMsgAndRaiseError else pure ()
  | n :: ns => do
    -- the text goes into the word, which is not followed further
    let _ ← expbackq n
    expandargs fails ns

/-- What a simple command is, apart from its words. -/
structure CmdInfo where
  /-- `vlocal`: assignments before the command are local to it. -/
  vlocal : Bool
  /-- `spclbltin > 0`. -/
  special : Bool
  isExec : Bool

/-- The assignments before a command, and the command. -/
def runCommand (info : CmdInfo) (assigns : Sh Unit) (names : List Text) (execute : Sh Unit) :
    Sh Unit := do
  assigns
  Program.modify fun s =>
    if info.vlocal then names.foldl (fun s name => mklocal name s) s else s
  execute

/-- `bail`: a redirection has failed. -/
def bailCommand (info : CmdInfo) : Sh Unit := do
  Program.modify fun s => { s with exitstatus := 1 }
  if info.special then raiseException .exerror else pure ()

/-- `out`: undo the redirections, and unwind to the stacks as they were. -/
def leaveCommand (info : CmdInfo) (rs : List Redir) (redirs files locals : ℕ) : Sh Unit := do
  -- `exec` makes its redirections permanent
  popredirIf rs info.isExec
  let s ← Program.read
  unwindredir (s.redirlist.length - redirs)
  unwindfiles (s.parsefiles.length - files)
  Program.modify fun s => { s with localvars := s.localvars.drop (s.localvars.length - locals) }

/-- `evalcommand`: `args`, `redirs` and `assigns` expand the words, `names` are the variables
assigned to, and `execute` runs what was found. -/
def evalcommand (info : CmdInfo) (args redirs assigns : Sh Unit) (rs : List Redir)
    (names : List Text) (execute : Sh Unit) : Sh UInt8 := do
  let file ← Program.read
  Program.modify fun s => { s with backExitstatus := 0 }
  args
  let loc ← Program.read
  Program.modify fun s => if info.vlocal then { s with localvars := [] :: s.localvars } else s
  redirs
  let redir ← Program.read
  pushredir rs
  -- a redirection that fails skips the assignments and the command
  let ok ← redirectsafe rs
  (if ok then runCommand info assigns names execute else bailCommand info)
  let s ← Program.read
  leaveCommand info rs redir.redirlist.length file.parsefiles.length loc.localvars.length
  pure s.exitstatus

/-- A builtin that raises takes the command with it, except that an error of a regular one ends
with it. -/
def afterBuiltin (special : Bool) : Except Exn Unit → Sh Unit
  | .ok () => pure ()
  -- `spclbltin <= 0`
  | .error .exerror => if special then raiseException .exerror else pure ()
  | .error e => raiseException e

/-! ## Loops -/

/-- `skiploop`. -/
def skiploop : Sh Skip := do
  let s ← Program.read
  match s.evalskip with
  | .skipbreak | .skipcont =>
    Program.modify fun s => { s with skipcount := s.skipcount - 1 }
    if s.skipcount - 1 ≤ 0 then do
      Program.modify fun s => { s with evalskip := .none }
      pure s.evalskip
    else pure .skipbreak
  | skip => pure skip

/-- `!(skip & ~SKIPCONT)`. -/
def Skip.goesOn : Skip → Bool
  | .none => true
  | .skipcont => true
  | _ => false

/-- The rounds of `evalloop`: condition and body. -/
def evalrounds (isUntil : Bool) (status : UInt8) : List (Sh UInt8 × Sh UInt8) → Sh UInt8
  | [] => pure status
  | (cond, body) :: rest => do
    let i ← cond
    let skip ← skiploop
    -- `return` in the condition
    let status := if skip = .skipfunc then i else status
    if skip ≠ .none then
      if skip.goesOn then evalrounds isUntil status rest else pure status
    -- `until` turns the test round
    else if (i == 0) == isUntil then pure status
    else do
      let status ← body
      let skip ← skiploop
      if skip.goesOn then evalrounds isUntil status rest else pure status

def evalloop (isUntil : Bool) (rounds : List (Sh UInt8 × Sh UInt8)) : Sh UInt8 := do
  Program.modify fun s => { s with loopnest := s.loopnest + 1 }
  let status ← evalrounds isUntil 0 rounds
  Program.modify fun s => { s with loopnest := s.loopnest - 1 }
  pure status

/-- The rounds of `evalfor`. -/
def forrounds (status : UInt8) : List (Sh UInt8) → Sh UInt8
  | [] => pure status
  | body :: rest => do
    let status ← body
    let skip ← skiploop
    if skip.goesOn then forrounds status rest else pure status

def evalfor (bodies : List (Sh UInt8)) : Sh UInt8 := do
  Program.modify fun s => { s with loopnest := s.loopnest + 1 }
  let status ← forrounds 0 bodies
  Program.modify fun s => { s with loopnest := s.loopnest - 1 }
  pure status

/-! ## Trees -/

mutual

/-- A `union node` and what it does when it is evaluated. -/
inductive Node where
  | null
  /-- A string or file that does not parse. -/
  | syntaxError
  | nnot (com : Node)
  | nredir (words : Words) (rs : List Redir) (n : Node)
  | ncmd (args redirs assigns : Words) (rs : List Redir) (names : List Text) (c : Command)
  /-- `NSUBSHELL` and `NBACKGND`. -/
  | nsubshell (words : Words)
  | npipe (cmdlist : Nodes)
  | nand (ch1 ch2 : Node)
  | nor (ch1 ch2 : Node)
  | nsemi (ch1 ch2 : Node)
  | nif (test ifpart : Node)
  | nifelse (test ifpart elsepart : Node)
  /-- `NWHILE` and `NUNTIL`. -/
  | nloop (isUntil : Bool) (rounds : Rounds)
  | nfor (words : Words) (bodies : Nodes)
  | ncase (words : Words)
  | ncasematch (words : Words) (body : Node)
  | ndefun

inductive Nodes where
  | nil
  | cons (n : Node) (ns : Nodes)

inductive Rounds where
  | nil
  | cons (cond body : Node) (rest : Rounds)

/-- Words: their substitutions, and whether their expansion fails. -/
inductive Words where
  | mk (substs : Nodes) (fails : Bool)

/-- What a simple command turns out to be. -/
inductive Command where
  /-- No words. -/
  | null
  | unknown
  /-- An applet in the shell, or a program that the host runs. -/
  | external (ops : List Op) (status : UInt8)
  | builtin (special : Bool) (b : Builtin)
  | function (line : ℕ) (args : List Text) (body : Node)
  | eval (special : Bool) (ns : Nodes)
  | dot (special : Bool) (path : Option Text) (args : List Text) (ns : Nodes)

end

def Command.info : Command → CmdInfo
  | .null => ⟨false, false, false⟩
  | .unknown => ⟨true, false, false⟩
  | .external _ _ => ⟨true, false, false⟩
  | .builtin special b => ⟨!special, special, b.isExec⟩
  | .function _ _ _ => ⟨true, false, false⟩
  | .eval special _ => ⟨!special, special, false⟩
  | .dot special _ _ _ => ⟨!special, special, false⟩

/-- `setstatus`, and what `evaltree` returns. -/
def setstatus (status : UInt8) : Sh UInt8 := do
  Program.modify fun s => { s with exitstatus := status }
  pure status

/-- `set -e`, where the status is not tested. -/
def checkexit (tested : Bool) (status : UInt8) : Sh UInt8 := do
  let s ← Program.read
  if !tested && status != 0 && s.eflag then raiseException .exend else pure status

/-- `NREDIR`. -/
def evalredir (words : Sh Unit) (rs : List Redir) (n : Sh UInt8) : Sh UInt8 := do
  words
  pushredir rs
  let ok ← redirectsafe rs
  let status ← (if ok then n else pure 1)
  popredirIf rs false
  setstatus status

/-- `NAND`, `NOR` and `NSEMI`: go on unless the status is the last word or commands are skipped. -/
def evalbinary (stops : UInt8 → Bool) (ch1 ch2 : Sh UInt8) : Sh UInt8 := do
  let status ← ch1
  let s ← Program.read
  if stops status || s.evalskip != .none then pure s.exitstatus
  else do
    let status ← ch2
    setstatus status

/-- `NIF`. -/
def evalif (test ifpart elsepart : Sh UInt8) : Sh UInt8 := do
  let status ← test
  let s ← Program.read
  if s.evalskip ≠ .none then pure s.exitstatus
  else do
    let status ← (if status = 0 then ifpart else elsepart)
    setstatus status

mutual

def evaltree (tested : Bool) : Node → Sh UInt8
  | .null => Ash.exitstatus <$> Program.read
  | .syntaxError => ashMsgAndRaiseError
  -- under `!`, in a test and left of `&&` and `||` a failure is not final
  | .nnot com => do
    let status ← evaltree true com
    setstatus (if status = 0 then 1 else 0)
  | .nredir words rs n => evalredir (expand words) rs (evaltree tested n)
  | .ncmd args redirs assigns rs names c => do
    let status ← evalcommand c.info (expand args) (expand redirs) (expand assigns) rs names
      (evalfound tested c)
    let status ← setstatus status
    checkexit tested status
  | .nsubshell words => do
    -- `forkshell` fails
    expand words
    ashMsgAndRaiseError
  | .npipe cmdlist => do
    let status ← evalpipe (evaltrees tested cmdlist)
    let status ← setstatus status
    checkexit tested status
  | .nand ch1 ch2 => evalbinary (· != 0) (evaltree true ch1) (evaltree tested ch2)
  | .nor ch1 ch2 => evalbinary (· == 0) (evaltree true ch1) (evaltree tested ch2)
  | .nsemi ch1 ch2 => evalbinary (fun _ => false) (evaltree tested ch1) (evaltree tested ch2)
  | .nif test ifpart => evalif (evaltree true test) (evaltree tested ifpart) (pure 0)
  | .nifelse test ifpart elsepart =>
    evalif (evaltree true test) (evaltree tested ifpart) (evaltree tested elsepart)
  | .nloop isUntil rounds => do
    let status ← evalloop isUntil (evalroundlist tested rounds)
    setstatus status
  | .nfor words bodies => do
    expand words
    let status ← evalfor (evaltrees tested bodies)
    setstatus status
  | .ncase words => do
    expand words
    setstatus 0
  | .ncasematch words body => do
    expand words
    let status ← evaltree tested body
    setstatus status
  | .ndefun => setstatus 0

def evaltrees (tested : Bool) : Nodes → List (Sh UInt8)
  | .nil => []
  | .cons n ns => evaltree tested n :: evaltrees tested ns

def evalroundlist (tested : Bool) : Rounds → List (Sh UInt8 × Sh UInt8)
  | .nil => []
  | .cons cond body rest => (evaltree true cond, evaltree tested body) :: evalroundlist tested rest

def expand : Words → Sh Unit
  | .mk substs fails => expandargs fails (evaltrees false substs)

/-- The command that was found. -/
def evalfound (tested : Bool) : Command → Sh Unit
  | .null => do
    let s ← Program.read
    -- `bltincmd`: the status of the last substitution
    let r ← evalbltin (pure s.backExitstatus)
    afterBuiltin false r
  | .unknown => Program.modify fun s => { s with exitstatus := 127, io := s.io.fflushAll }
  | .external ops status =>
    Program.modify fun s => { s with exitstatus := status, io := s.io.runAll ops }
  | .builtin special b => do
    let r ← evalbltin b.run
    afterBuiltin special r
  | .function line args body => do
    let r ← evalfun line args (evaltree tested body)
    reraise r
  | .eval special ns => do
    let r ← evalbltin (evalstring (evaltrees tested ns))
    afterBuiltin special r
  | .dot special path args ns => do
    -- `cmdloop` evaluates with no flags: `EV_TESTED` is lost in the file
    let r ← evalbltin (dotcmd path args (evaltrees false ns))
    afterBuiltin special r

end

end OsMoap.Shell
