import OsMoap.Lib.Buckets
import OsMoap.Shell.PathWalk

/-!
# The Command Hash Table

`find_command` of `guest/busybox/upstream/shell/ash.c` says what a command name stands for, and
remembers what it found in `cmdtable`: the position in `PATH` of a program, a builtin, and, where
`defun` put it, a function.  What is remembered is cleared when `PATH` changes, and marked when the
directory changes, because an element of `PATH` need not be absolute.

`evalcommand` looks twice.  `Pending` is what it holds between the two lookups: the words, redirections
and assignments of the command are expanded there, which may run any other command.
-/

namespace OsMoap.Shell.Cmds

open OsMoap.Lib OsMoap.Pack

/-! ## Builtins -/

/-- `struct builtincmd`: the name behind the character with the flags. -/
structure Builtincmd where
  name : Text
  special : Bool
  regular : Bool
  assign : Bool
  deriving DecidableEq

/-- An entry of `builtintab`: `"3"` in front of the name is special and regular. -/
def builtin (flags : ℕ) (name : String) : Builtincmd where
  name := name.toList
  special := flags.testBit 0
  regular := flags.testBit 1
  assign := flags.testBit 2

def builtinNospec := builtin 0

def builtinRegular := builtin 2

def builtinSpecReg := builtin 3

def builtinSpecRegAssg := builtin 7

def builtintab : List Builtincmd := [
  builtinSpecReg ".",
  builtinSpecReg ":",
  builtinRegular "[",
  builtinSpecReg "break",
  builtinRegular "cd",
  builtinNospec "chdir",
  builtinRegular "command",
  builtinSpecReg "continue",
  builtinRegular "echo",
  builtinSpecReg "eval",
  builtinSpecReg "exec",
  builtinSpecReg "exit",
  builtinSpecRegAssg "export",
  builtinRegular "false",
  builtinRegular "hash",
  builtinNospec "help",
  builtinNospec "history",
  builtinNospec "let",
  builtinSpecRegAssg "local",
  builtinRegular "printf",
  builtinRegular "pwd",
  builtinRegular "read",
  builtinSpecRegAssg "readonly",
  builtinSpecReg "return",
  builtinSpecReg "set",
  builtinSpecReg "shift",
  builtinRegular "test",
  builtinSpecReg "times",
  builtinSpecReg "trap",
  builtinRegular "true",
  builtinRegular "type",
  builtinRegular "ulimit",
  builtinRegular "umask",
  builtinSpecReg "unset",
  builtinRegular "wait"]

/-- `find_builtin`; the table is in the order of the names. -/
def findBuiltin (name : Text) : Option Builtincmd := builtintab.find? (·.name = name)

/-- `null_bltin` of `evalcommand`. -/
def nullBltin : Builtincmd := builtinRegular ""

/-- The entry `COMMANDCMD` points to. -/
def commandcmd : Builtincmd := builtinRegular "command"

/-! ## The table -/

/-- A `struct cmdentry` with a command in it; `CMDUNKNOWN` is `none`.  A number stands for a
`struct funcnode`. -/
inductive Cmd where
  | normal (index : ℤ)
  | function (func : ℕ)
  | builtin (cmd : Builtincmd)
  deriving DecidableEq

structure Tblentry where
  cmd : Cmd
  rehash : Bool
  deriving DecidableEq

def CMDTABLESIZE : ℕ := 31

/-- The hash of `cmdlookup`. -/
def hashval (name : Text) : Fin CMDTABLESIZE :=
  let sum := name.foldl (fun hash c => hash + c.toNat) ((name.headD '\x00').toNat <<< 4)
  ⟨(sum &&& 0x7fff) % CMDTABLESIZE, Nat.mod_lt _ (by decide)⟩

abbrev Cmdtable := Buckets CMDTABLESIZE hashval Tblentry

/-- A value of `PATH` without a `%func` directory: a file there is read and run by `find_command`. -/
structure SearchPath where
  text : Text
  noFunc : ¬ "%func".toList <:+: text

/-- What `stat` finds from a directory: nothing, or a file that is regular or not. -/
structure Files where
  stat : Text → Text → Option Bool
  absolute : ∀ {name : Text}, name.head? = some '/' → ∀ cwd cwd', stat cwd name = stat cwd' name

/-- What a call of `evalcommand` holds between its two lookups. -/
structure Pending where
  cmdentry : Option Cmd
  /-- `DO_NOFUNC` in `cmd_flag`. -/
  nofunc : Bool
  /-- `path`; `none` is `NULL`. -/
  path : Option Text
  argv : List Text
  deriving DecidableEq

/-- The shell, as far as its lookups see it; the calls of `evalcommand` in progress are `pending`,
the innermost first. -/
structure Session where
  cmdtable : Cmdtable
  builtinloc : ℤ
  pathval : SearchPath
  cwd : Text
  files : Files
  pending : List Pending

def Session.stat (s : Session) (name : Text) : Option Bool := s.files.stat s.cwd name

/-- The entries that depend on `PATH`. -/
def onPath (builtinloc : ℤ) : Cmd → Bool
  | .normal _ => true
  | .builtin b => !b.regular && decide (0 < builtinloc)
  | .function _ => false

def clearcmdentry (s : Session) : Session :=
  { s with cmdtable := s.cmdtable.keep fun cmdp => !onPath s.builtinloc cmdp.cmd }

def hashcd (s : Session) : Session :=
  { s with
    cmdtable := s.cmdtable.mark fun cmdp =>
      if onPath s.builtinloc cmdp.cmd then { cmdp with rehash := true } else cmdp }

/-- The position `changepath` finds in the rest of the new value, with its `idx`. -/
def bltinFrom : ℕ → Text → ℤ → ℤ
  | 0, _, _ => -1
  | fuel + 1, path, idx =>
    if "%builtin".toList.isPrefixOf path then idx
    else
      match path.dropWhile (· ≠ ':') with
      | _ :: rest => bltinFrom fuel rest (idx + 1)
      | [] => -1

/-- What `changepath` sets `builtinloc` to. -/
def bltin (path : Text) : ℤ := bltinFrom (path.length + 1) path 0

/-- An assignment to `PATH`, with the call of `changepath` before it. -/
def setPath (s : Session) (path : SearchPath) : Session :=
  { clearcmdentry { s with builtinloc := bltin path.text } with pathval := path }

def addcmdentry (s : Session) (name : Text) (cmd : Cmd) : Session :=
  { s with cmdtable := s.cmdtable.put name ⟨cmd, false⟩ }

/-- `delete_cmd_entry` after `cmdlookup` of the name. -/
def deleteCmdEntry (s : Session) (name : Text) : Session :=
  { s with cmdtable := s.cmdtable.unlink name }

/-- `hashcmd` makes a name be looked for again. -/
def deleteOnPath (s : Session) (name : Text) : Session :=
  match s.cmdtable.get name with
  | some cmdp => if onPath s.builtinloc cmdp.cmd then deleteCmdEntry s name else s
  | none => s

def unsetfunc (s : Session) (name : Text) : Session :=
  match s.cmdtable.get name with
  | some ⟨.function _, _⟩ => deleteCmdEntry s name
  | _ => s

/-! ## `find_command` -/

/-- The flags that callers set, but for `DO_ERR`, which only prints. -/
structure Act where
  abs : Bool := false
  nofunc : Bool := false
  regbltin : Bool := false
  deriving DecidableEq

/-- `act & bit`: whether what the table says will not do; `DO_ALTPATH` is `altpath`. -/
def Act.refuses (act : Act) (altpath : Bool) : Cmd → Bool
  | .normal _ => altpath || act.regbltin
  | .function _ => act.nofunc
  | .builtin b => !b.regular && act.regbltin

/-- `act & bit & DO_REGBLTIN`. -/
def Act.refusesRegbltin (act : Act) : Cmd → Bool
  | .normal _ => act.regbltin
  | .function _ => false
  | .builtin b => !b.regular && act.regbltin

/-- How the walk along `PATH` ends. -/
inductive Searched where
  | builtin (cmd : Builtincmd)
  | unchanged
  | found (idx : ℤ)
  | missing
  deriving DecidableEq

/-- The loop of `find_command`; `idx` is its position before the elements left. -/
def searchexec (stat : Text → Option Bool) (bcmd : Option Builtincmd) (prev : ℤ) :
    List Advance → ℤ → Searched
  | [], _ => .missing
  | a :: rest, idx =>
    match a.pathopt with
    | some opt =>
      if opt.head? = some 'b' then
        -- `%builtin`
        match bcmd with
        | some b => .builtin b
        | none => searchexec stat bcmd prev rest (idx + 1)
      else
        -- `%func`, which a `SearchPath` has not
        searchexec stat bcmd prev rest (idx + 1)
    | none =>
      if a.cmdname.head? = some '/' ∧ idx + 1 ≤ prev then
        -- a change of the directory does not matter to an absolute name
        if idx + 1 < prev then searchexec stat bcmd prev rest (idx + 1) else .unchanged
      -- `S_ISREG`; whether the file can be run is not asked
      else if stat a.cmdname = some true then .found (idx + 1)
      else searchexec stat bcmd prev rest (idx + 1)

/-- The label `builtin_success`, and the end of a walk that found a program. -/
def success (s : Session) (name : Text) (cmd : Cmd) (updatetbl : Bool) : Option Cmd × Session :=
  (some cmd, if updatetbl then addcmdentry s name cmd else s)

/-- Where the walk starts: `prev`, from an entry that `cd` has marked. -/
def prevOf (s : Session) : Option Tblentry → ℤ
  | some ⟨.builtin _, true⟩ => s.builtinloc
  | some ⟨.normal index, true⟩ => index
  | _ => -1

/-- The builtins that are found before `PATH` is searched. -/
def beforePath (builtinloc : ℤ) (altpath : Bool) (b : Builtincmd) : Bool :=
  b.regular || altpath || decide (builtinloc ≤ 0)

variable (findApplet : Text → Option ℕ)

/-- `find_command` after the table has not answered; `cmdp` is an entry to check again. -/
def findUncached (s : Session) (name : Text) (act : Act) (altpath : Bool) (path : Text)
    (updatetbl : Bool) (cmdp : Option Tblentry) : Option Cmd × Session :=
  let bcmd := findBuiltin name
  match bcmd.filter (beforePath s.builtinloc altpath) with
  | some b => success s name (.builtin b) updatetbl
  | none =>
    if act.regbltin then (none, s)
    else
      -- an applet is found before any file, and the table does not keep it
      match findApplet name with
      | some applet => (some (.normal (-2 - applet)), s)
      | none =>
        match searchexec s.stat bcmd (prevOf s cmdp) (pathWalk path name) (-1) with
        | .builtin b => success s name (.builtin b) updatetbl
        | .found idx => success s name (.normal idx) updatetbl
        | .unchanged =>
          match cmdp with
          -- the label `success`: the entry stays, without its mark
          | some cmdp => success s name cmdp.cmd true
          | none => (none, s)
        | .missing => (none, if cmdp.isSome && updatetbl then deleteCmdEntry s name else s)

/-- `find_command`; a `path` of `none` is `pathval()`. -/
def findCommand (s : Session) (name : Text) (act : Act) (path : Option Text) :
    Option Cmd × Session :=
  if '/' ∈ name then (if act.abs && (s.stat name).isNone then none else some (.normal (-1)), s)
  else
    let altpath := path.isSome
    let look := findUncached findApplet s name act altpath (path.getD s.pathval.text)
    match s.cmdtable.get name with
    | some cmdp =>
      if act.refuses altpath cmdp.cmd then
        -- otherwise the search goes on as if there were no entry, and leaves the table alone
        if act.refusesRegbltin cmdp.cmd then (none, s) else look false none
      else if cmdp.rehash then look (!altpath) (some cmdp)
      else (some cmdp.cmd, s)
    | none => look (!altpath) none

/-! ## The callers -/

/-- `bb_default_path`. -/
def bbDefaultPath : Text := "/bin:/usr/bin".toList

/-- The letters of one option word of `command`: whether there are only `p`s. -/
def onlyP (letters : Text) : Bool := letters.all (· = 'p')

/-- `parse_command_args` on the words behind `command`: whether `-p` was read, and the words from the
command to run on; `none` where `commandcmd` itself is to run. -/
def parseCommandArgs : List Text → Bool × Option (List Text)
  | [] => (false, none)
  | word :: words =>
    match word with
    -- a dash alone is a command
    | '-' :: [] => (false, some (word :: words))
    | '-' :: '-' :: [] => (false, if words = [] then none else some words)
    | '-' :: c :: letters =>
      if onlyP (c :: letters) then
        let (_, argv) := parseCommandArgs words
        (true, argv)
      -- other options are left to `commandcmd`
      else (c = 'p', none)
    | _ => (false, some (word :: words))

/-- The loop of `evalcommand` over the words in front of the command. -/
def firstLookups : ℕ → Session → Pending → Session × Pending
  | 0, s, p => (s, p)
  | fuel + 1, s, p =>
    match p.argv with
    | [] => (s, { p with cmdentry := some (.builtin nullBltin) })
    | name :: words =>
      let (cmdentry, s) :=
        findCommand findApplet s name { nofunc := p.nofunc, regbltin := true } none
      let p := { p with cmdentry := cmdentry }
      if cmdentry = some (.builtin commandcmd) then
        let (optP, argv) := parseCommandArgs words
        let p := { p with path := if optP then some bbDefaultPath else p.path }
        match argv with
        -- `command name` passes over functions
        | some argv => firstLookups fuel s { p with nofunc := true, argv := argv }
        | none => (s, { p with nofunc := false })
      else (s, p)

/-- `cmdentry.cmdtype == CMDBUILTIN && IS_BUILTIN_REGULAR(cmdentry.u.cmd)`. -/
def isRegular : Option Cmd → Bool
  | some (.builtin b) => b.regular
  | _ => false

/-- The second lookup of `evalcommand`. -/
def locate (s : Session) (p : Pending) : Option Cmd × Session :=
  if isRegular p.cmdentry then (p.cmdentry, s)
  else findCommand findApplet s (p.argv.headD []) { nofunc := p.nofunc } p.path

/-- `hashcmd` of one name. -/
def hashName (s : Session) (name : Text) : Option Cmd × Session :=
  findCommand findApplet (deleteOnPath s name) name {} none

/-! ## Sessions -/

inductive Event where
  /-- The first lookups of a simple command. -/
  | words (argv : List Text)
  /-- The innermost command is located, and runs. -/
  | located
  /-- The innermost command is left before that. -/
  | unwound
  /-- `describe_command`, for `type` and `command -v`. -/
  | describe (name : Text) (path : Option Text)
  | prehash (name : Text)
  | hash (name : Text)
  /-- `hash -r`. -/
  | hashr
  | setPath (path : SearchPath)
  /-- `docd`, once `chdir` is done. -/
  | cd (cwd : Text)
  | defun (name : Text) (func : ℕ)
  | unsetfunc (name : Text)
  /-- Files come and go, or an applet run in the shell's process leaves it elsewhere. -/
  | outside (files : Files) (cwd : Text)

/-- One event; the second part is the answer that it acts on, where it has one. -/
def step (s : Session) : Event → Session × Option (Option Cmd)
  | .words argv =>
    let (s, p) := firstLookups findApplet (argv.length + 1) s ⟨none, false, none, argv⟩
    ({ s with pending := p :: s.pending }, none)
  | .located =>
    match s.pending with
    | p :: rest =>
      let (cmd, s) := locate findApplet { s with pending := rest } p
      (s, some cmd)
    | [] => (s, none)
  | .unwound => ({ s with pending := s.pending.tail }, none)
  | .describe name path =>
    let (cmd, s) := findCommand findApplet s name { abs := true } path
    (s, some cmd)
  | .prehash name => ((findCommand findApplet s name {} none).2, none)
  | .hash name =>
    let (cmd, s) := hashName findApplet s name
    (s, some cmd)
  | .hashr => (clearcmdentry s, none)
  | .setPath path => (setPath s path, none)
  | .cd cwd => ({ hashcd s with cwd := cwd }, none)
  | .defun name func => (addcmdentry s name (.function func), none)
  | .unsetfunc name => (unsetfunc s name, none)
  | .outside files cwd => ({ s with files := files, cwd := cwd }, none)

def run (s : Session) : List Event → Session
  | [] => s
  | e :: es => run (step findApplet s e).1 es

/-- The answers of a run, one for each event. -/
def answers (s : Session) : List Event → List (Option (Option Cmd))
  | [] => []
  | e :: es => (step findApplet s e).2 :: answers (step findApplet s e).1 es

/-- The shell at its start: nothing is remembered. -/
def start (path : SearchPath) (files : Files) (cwd : Text) : Session where
  cmdtable := .empty
  builtinloc := bltin path.text
  pathval := path
  cwd := cwd
  files := files
  pending := []

/-! ## The shell that remembers nothing -/

def isFunction : Cmd → Bool
  | .function _ => true
  | _ => false

/-- Only functions stay in the table. -/
def forget (s : Session) : Session :=
  { s with cmdtable := s.cmdtable.keep fun cmdp => isFunction cmdp.cmd }

/-- The answers when all but the functions is forgotten before every event. -/
def answersAfresh (s : Session) : List Event → List (Option (Option Cmd))
  | [] => []
  | e :: es => (step findApplet (forget s) e).2 :: answersAfresh (step findApplet (forget s) e).1 es

end OsMoap.Shell.Cmds
