import OsMoap.Lib.Program
import OsMoap.Lib.Scope
import OsMoap.Lib.Table
import OsMoap.Pack.PyText

/-!
# Variables of the Shell

`setvareq`, `setvar`, `export`, `local` and the environment of a command, as in
`guest/busybox/upstream/shell/ash.c`.  A variable is a block in a chain of `vartab`, its text a block
of its own; what a function has made local is noted in `localvar_stack`, which points into the chains
and keeps the texts that were there before.  The flags say what may be freed, and when.

A block that is used after it has been freed ends a program as `undefined`.
-/

namespace OsMoap.Shell.Vars

open OsMoap.Lib OsMoap.Pack

/-! ## Texts -/

/-- A text `name=value` up to the sign. -/
def nameOf (text : Bytes) : Bytes := text.takeWhile (· != 61)

/-- `var_end`. -/
def varEnd (text : Bytes) : Bytes := (text.dropWhile (· != 61)).tail

def isName (c : UInt8) : Bool := c == 95 || (65 ≤ c && c ≤ 90) || (97 ≤ c && c ≤ 122)

def isInName (c : UInt8) : Bool := isName c || (48 ≤ c && c ≤ 57)

/-- Where the name ends that a text begins with. -/
def endofname : Bytes → ℕ
  | [] => 0
  | c :: cs => if isName c then 1 + (cs.takeWhile isInName).length else 0

/-- `VTABSIZE`. -/
def vtabsize : ℕ := 39

/-- The number of the chain. -/
def hashvar (p : Bytes) : ℕ :=
  ((p.headD 0).toNat * 16 + ((nameOf p).map UInt8.toNat).sum) % 2 ^ 32 % vtabsize

/-! ## Memory -/

structure Flags where
  vexport : Bool := false
  vreadonly : Bool := false
  vstrfixed : Bool := false
  vtextfixed : Bool := false
  vunset : Bool := false
  vnosave : Bool := false
  deriving DecidableEq

/-- `(flags & (VEXPORT|VREADONLY|VSTRFIXED|VUNSET)) == VUNSET`. -/
def Flags.onlyUnset (f : Flags) : Bool :=
  f.vunset && !f.vexport && !f.vreadonly && !f.vstrfixed

/-- `struct var` without its link. -/
structure Var where
  flags : Flags
  text : ℕ

/-- `struct localvar`; the text is `NULL` where there was no variable. -/
structure Localvar where
  vp : ℕ
  flags : Flags
  text : Option ℕ

/-- What `malloc` may return for the two kinds of block. -/
structure Malloc where
  var : Table Var → ℕ
  text : Table Bytes → ℕ
  var_free : ∀ t : Table Var, t.get (var t) = none
  text_free : ∀ t : Table Bytes, t.get (text t) = none

structure Vartab where
  vars : Table Var
  texts : Table Bytes
  /-- The chains of the hash table. -/
  vartab : ℕ → List ℕ
  localvars : List (List Localvar)
  aflag : Bool

inductive VarError where
  | badName (name : Bytes)
  | readOnly (name : Bytes)
  | notInFunction
  deriving DecidableEq

def ascii (s : String) : Bytes := s.toList.map fun c => UInt8.ofNat c.toNat

def VarError.message : VarError → Bytes
  | .badName name => name ++ ascii ": bad variable name"
  | .readOnly name => name ++ ascii ": is read only"
  | .notInFunction => ascii "not in a function"

/-- The message of an error goes with it. -/
inductive Exn where
  | exerror (message : Option Bytes)
  | exexit
  deriving DecidableEq

inductive Stop where
  | raised (e : Exn)
  | undefined
  deriving DecidableEq

abbrev Vr := Program Vartab Stop

def raiseError {σ α : Type} (why : VarError) : Program σ Stop α :=
  Program.stop (.raised (.exerror (some why.message)))

def varAt (vp : ℕ) : Vr Var := do
  let st ← Program.read
  match st.vars.get vp with
  | none => Program.stop .undefined
  | some v => pure v

def textAt (s : ℕ) : Vr Bytes := do
  let st ← Program.read
  match st.texts.get s with
  | none => Program.stop .undefined
  | some text => pure text

def free (s : ℕ) : Vr Unit := do
  let _ ← textAt s
  Program.modify fun st => { st with texts := st.texts.set s none }

def freeIf (c : Bool) (s : ℕ) : Vr Unit := if c then free s else pure ()

/-- `ckstrdup`; also a string that the expansion of a word has left on the stack. -/
def strdup (m : Malloc) (text : Bytes) : Vr ℕ := do
  let st ← Program.read
  Program.modify fun st => { st with texts := st.texts.set (m.text st.texts) (some text) }
  pure (m.text st.texts)

/-! ## Setting -/

/-- The variable of the name among those of its chain. -/
def findvar (name : Bytes) : List ℕ → Vr (Option ℕ)
  | [] => pure none
  | vp :: rest => do
    let v ← varAt vp
    let text ← textAt v.text
    if nameOf text = nameOf name then pure (some vp) else findvar name rest

def lookupvar (name : Bytes) : Vr (Option Bytes) := do
  let st ← Program.read
  let v ← findvar name (st.vartab (hashvar name))
  match v with
  | none => pure none
  | some vp => do
    let v ← varAt vp
    let text ← textAt v.text
    pure (if v.flags.vunset then none else some (varEnd text))

/-- `if (!(flags & (VTEXTFIXED|VSTACK|VNOSAVE))) s = ckstrdup(s);`. -/
def keepText (m : Malloc) (s : ℕ) (text : Bytes) (flags : Flags) : Vr ℕ :=
  if flags.vtextfixed || flags.vnosave then pure s else strdup m text

/-- `setvareq` for a variable that is there. -/
def setOld (m : Malloc) (s : ℕ) (text : Bytes) (flags : Flags) (vp : ℕ) :
    Vr (Option ℕ) := do
  let v ← varAt vp
  if v.flags.vreadonly then do
    freeIf flags.vnosave s
    raiseError (.readOnly (nameOf text))
  else do
    freeIf (!v.flags.vtextfixed) v.text
    if { flags with vstrfixed := flags.vstrfixed || v.flags.vstrfixed }.onlyUnset then do
      Program.modify fun st =>
        { st with
          vartab := Function.update st.vartab (hashvar text) ((st.vartab (hashvar text)).erase vp)
          vars := st.vars.set vp none }
      freeIf (flags.vnosave && !flags.vtextfixed) s
      pure (some vp)
    else do
      -- all but `VTEXTFIXED`, `VUNSET` and `VNOSAVE` stays set
      let flags :=
        { flags with
          vexport := flags.vexport || v.flags.vexport
          vreadonly := flags.vreadonly || v.flags.vreadonly
          vstrfixed := flags.vstrfixed || v.flags.vstrfixed }
      let s' ← keepText m s text flags
      Program.modify fun st => { st with vars := st.vars.set vp (some ⟨flags, s'⟩) }
      pure (some vp)

/-- `setvareq` for a variable that is not there. -/
def setNew (m : Malloc) (s : ℕ) (text : Bytes) (flags : Flags) : Vr (Option ℕ) :=
  if flags.onlyUnset then do
    freeIf (flags.vnosave && !flags.vtextfixed) s
    pure none
  else do
    let s' ← keepText m s text flags
    let st ← Program.read
    let vp := m.var st.vars
    Program.modify fun st =>
      { st with
        vars := st.vars.set vp (some ⟨flags, s'⟩)
        vartab := Function.update st.vartab (hashvar text) (vp :: st.vartab (hashvar text)) }
    pure (some vp)

def setvareq (m : Malloc) (s : ℕ) (flags : Flags) : Vr (Option ℕ) := do
  let st ← Program.read
  let text ← textAt s
  let flags := { flags with vexport := flags.vexport || st.aflag }
  let vpp ← findvar text (st.vartab (hashvar text))
  vpp.elim (setNew m s text flags) (setOld m s text flags)

/-- Where `setvar` takes the name to end. -/
def namelen (name : Bytes) : ℕ :=
  endofname name + ((name.drop (endofname name)).takeWhile (· != 61)).length

/-- `!namelen || p != q`. -/
def badName (name : Bytes) : Bool := namelen name = 0 || namelen name ≠ endofname name

/-- `val` is `NULL` to unset. -/
def setvar (m : Malloc) (name : Bytes) (val : Option Bytes) (flags : Flags) : Vr (Option ℕ) :=
  if badName name then raiseError (.badName (name.take (namelen name)))
  else do
    let flags := { flags with vunset := flags.vunset || val.isNone, vnosave := true }
    let nameeq := name.take (namelen name) ++ val.elim [] (61 :: ·)
    let s ← strdup m nameeq
    setvareq m s flags

/-- `setvar` where the variable that it returns is not used. -/
def setvar0 (m : Malloc) (name : Bytes) (val : Option Bytes) (flags : Flags) : Vr Unit := do
  let _ ← setvar m name val flags
  pure ()

def unsetvar (m : Malloc) (name : Bytes) : Vr Unit := setvar0 m name none {}

/-- `flag & flag_off`; `readonly` ignores `-n`. -/
def exportFlag (readonly optN : Bool) : Flags :=
  if readonly then { vreadonly := true } else { vexport := !optN }

/-- `(vp->flags | flag) & flag_off`. -/
def Flags.mark (flags : Flags) (readonly optN : Bool) : Flags :=
  if readonly then { flags with vreadonly := true } else { flags with vexport := !optN }

/-- One name given to `export` or to `readonly`. -/
def exportcmd (m : Malloc) (readonly optN : Bool) (name : Bytes) : Vr Unit :=
  if 61 ∈ name then setvar0 m name (some (varEnd name)) (exportFlag readonly optN)
  else do
    let st ← Program.read
    let vpp ← findvar name (st.vartab (hashvar name))
    match vpp with
    | some vp => do
      let v ← varAt vp
      Program.modify fun st =>
        { st with vars := st.vars.set vp (some { v with flags := v.flags.mark readonly optN }) }
    | none => setvar0 m name none (exportFlag readonly optN)

/-! ## Local variables -/

/-- The variable is one of those already made local. -/
def isLocal (name : Bytes) : List Localvar → Vr Bool
  | [] => pure false
  | lv :: lvs => do
    let v ← varAt lv.vp
    let text ← textAt v.text
    if nameOf text = nameOf name then pure true else isLocal name lvs

/-- A variable that was not there before. -/
def mklocalNew (m : Malloc) (name : Bytes) (flags : Flags) : Vr Localvar := do
  let vp ←
    (if 61 ∈ name then do
      let s ← strdup m name
      setvareq m s { flags with vstrfixed := true }
    else setvar m name none { flags with vstrfixed := true })
  match vp with
  | none => Program.stop .undefined
  | some vp => pure ⟨vp, { vunset := true }, none⟩

/-- `local VAR` unsets the variable. -/
def setLocal (m : Malloc) (name : Bytes) (flags : Flags) : Vr (Option ℕ) :=
  if 61 ∈ name then do
    let s ← strdup m name
    setvareq m s flags
  else setvar m name none {}

/-- A variable that was: neither it nor its text is to be freed while it is set or unset. -/
def mklocalOld (m : Malloc) (name : Bytes) (flags : Flags) (vp : ℕ) : Vr Localvar := do
  let v ← varAt vp
  Program.modify fun st =>
    { st with
      vars := st.vars.set vp
        (some { v with flags := { v.flags with vstrfixed := true, vtextfixed := true } }) }
  let _ ← setLocal m name flags
  pure ⟨vp, v.flags, some v.text⟩

/-- All but `local -`, which is about options. -/
def mklocal (m : Malloc) (name : Bytes) (flags : Flags) : Vr Unit := do
  let st ← Program.read
  match st.localvars with
  | [] => Program.stop .undefined
  | lvs :: rest => do
    let duplicate ← isLocal name lvs
    if duplicate then
      if 61 ∈ name then do
        let s ← strdup m name
        let _ ← setvareq m s {}
        pure ()
      else pure ()
    else do
      let vpp ← findvar name (st.vartab (hashvar name))
      let lv ← vpp.elim (mklocalNew m name flags) (mklocalOld m name flags)
      Program.modify fun st => { st with localvars := (lv :: lvs) :: rest }

def pushlocalvars : Vr Unit := Program.modify fun st => { st with localvars := [] :: st.localvars }

/-- One round of the loop of `poplocalvars`, which is only ever called with `keep` zero. -/
def poplocalvar (m : Malloc) (lv : Localvar) : Vr Unit := do
  let v ← varAt lv.vp
  if lv.flags = { vunset := true } then do
    Program.modify fun st =>
      { st with
        vars := st.vars.set lv.vp
          (some { v with flags := { v.flags with vstrfixed := false, vreadonly := false } }) }
    let text ← textAt v.text
    unsetvar m text
  else
    match lv.text with
    | none => Program.stop .undefined
    | some text => do
      freeIf (!v.flags.vtextfixed) v.text
      Program.modify fun st => { st with vars := st.vars.set lv.vp (some ⟨lv.flags, text⟩) }

def poplocalvarsLoop (m : Malloc) : List Localvar → Vr Unit
  | [] => pure ()
  | lv :: lvs => do
    poplocalvar m lv
    poplocalvarsLoop m lvs

def poplocalvars (m : Malloc) : Vr Unit := do
  let st ← Program.read
  match st.localvars with
  | [] => Program.stop .undefined
  | lvs :: rest => do
    Program.modify fun st => { st with localvars := rest }
    poplocalvarsLoop m lvs

def popN (m : Malloc) : ℕ → Vr Unit
  | 0 => pure ()
  | n + 1 => do
    poplocalvars m
    popN m n

/-- `stop` is how many frames there are below. -/
def unwindlocalvars (m : Malloc) (stop : ℕ) : Vr Unit := do
  let st ← Program.read
  if st.localvars.length < stop then Program.stop .undefined else popN m (st.localvars.length - stop)

/-! ## The environment -/

/-- What a chain has for `listvars(VEXPORT, VUNSET, lp)`. -/
def listchain (lp : List Bytes) : List ℕ → Vr (List Bytes)
  | [] => pure []
  | vp :: rest => do
    let v ← varAt vp
    let text ← textAt v.text
    let more ← listchain lp rest
    if v.flags.vexport && !v.flags.vunset && !lp.contains text then pure (text :: more) else pure more

def listchains (lp : List Bytes) : List (List ℕ) → Vr (List Bytes)
  | [] => pure []
  | chain :: chains => do
    let first ← listchain lp chain
    let more ← listchains lp chains
    pure (first ++ more)

/-- The exported variables that are set, and then the assignments of the command itself. -/
def listvars (lp : List Bytes) : Vr (List Bytes) := do
  let st ← Program.read
  let vars ← listchains lp ((List.range vtabsize).map st.vartab)
  pure (vars ++ lp)

/-- What the program that is started finds under a name: the first entry counts. -/
def getenv (env : List Bytes) (name : Bytes) : Option Bytes :=
  (env.find? fun text => nameOf text == name && text.contains 61).map varEnd

/-! ## The beginning -/

def defifsvar : Bytes := ascii "IFS= " ++ [9, 10]

def defoptindvar : Bytes := ascii "OPTIND=1"

/-- `varinit_data`; the user is not root. -/
def varinit : List (Flags × Bytes) :=
  let fixed : Flags := { vstrfixed := true, vtextfixed := true }
  [(fixed, defifsvar), (fixed, ascii "PATH=/sbin:/usr/sbin:/bin:/usr/bin"), (fixed, ascii "PS1=$ "),
    (fixed, ascii "PS2=> "), (fixed, ascii "PS4=+ "), (fixed, ascii "LINENO="),
    (fixed, ascii "FUNCNAME="), ({ fixed with vunset := true }, ascii "HISTFILE")]

/-- The blocks are static, and have a place of their own all the same. -/
def initvar (m : Malloc) : List (Flags × Bytes) → Vr Unit
  | [] => pure ()
  | (flags, text) :: rest => do
    let s ← strdup m text
    Program.modify fun st =>
      { st with
        vars := st.vars.set (m.var st.vars) (some ⟨flags, s⟩)
        vartab := Function.update st.vartab (hashvar text)
          (m.var st.vars :: st.vartab (hashvar text)) }
    initvar m rest

/-- `setvareq` of a text that is there to stay. -/
def setFixed (m : Malloc) (text : Bytes) (flags : Flags) : Vr Unit := do
  let s ← strdup m text
  let _ ← setvareq m s { flags with vtextfixed := true }
  pure ()

/-- Entries without a sign are left out. -/
def importEnviron (m : Malloc) : List Bytes → Vr Unit
  | [] => pure ()
  | text :: rest => do
    (if 61 ∈ text then setFixed m text { vexport := true } else pure ())
    importEnviron m rest

/-- What `init` does to variables; the directory is found by `setpwd`. -/
def init (m : Malloc) (environ : List Bytes) (ppid pwd : Bytes) : Vr Unit := do
  initvar m varinit
  importEnviron m environ
  setFixed m defifsvar {}
  setFixed m defoptindvar {}
  setvar0 m (ascii "PPID") (some ppid) {}
  setvar0 m (ascii "PWD") (some pwd) { vexport := true }

/-! ## Commands -/

/-- A name that the parser takes for one. -/
def GoodName (name : Bytes) : Prop := name ≠ [] ∧ endofname name = name.length

instance (name : Bytes) : Decidable (GoodName name) := inferInstanceAs (Decidable (_ ∧ _))

/-- The name of an assignment before a command. -/
abbrev AssignName := { name : Bytes // GoodName name }

/-- An argument of `local`, which does not check the name of `NAME=VALUE`. -/
abbrev LocalArg := { arg : Bytes // 61 ∈ arg → GoodName (nameOf arg) }

mutual

/-- What is done with variables, up to what comes of it; the rest may depend on what a variable
holds. -/
inductive Acts where
  | done (result : Bytes)
  | raise (e : Exn)
  | lookupvar (name : Bytes) (next : Option Bytes → Acts)
  | setvar (name : Bytes) (val : Option Bytes) (next : Acts)
  | exportcmd (readonly optN : Bool) (name : Bytes) (next : Acts)
  | localcmd (arg : LocalArg) (next : Acts)
  | evalcommand (redirFails vexport : Bool) (assigns : Assigns) (command : Command)
      (next : Option Bytes → Acts)
  | backquote (body : Acts) (next : Except Exn Bytes → Acts)

/-- The assignments before a command, the values as they are expanded. -/
inductive Assigns where
  | nil
  | cons (name : AssignName) (value : Acts) (rest : Assigns)

/-- What has been found under the name of a command. -/
inductive Command where
  | unknown
  /-- An applet or a program; what comes of it depends on its environment. -/
  | external (status : (Bytes → Option Bytes) → Bytes)
  | builtin (special : Bool) (body : Acts)
  | function (body : Acts)

end

/-- `spclbltin > 0`; a command without a name is one as well. -/
def Command.spclbltin : Command → Bool
  | .builtin special _ => special
  | _ => false

/-- The operations on variables. -/
structure Store (σ : Type) where
  lookupvar (name : Bytes) : Program σ Stop (Option Bytes)
  setvar (name : Bytes) (val : Option Bytes) : Program σ Stop Unit
  setvareq (text : Bytes) (vexport : Bool) : Program σ Stop Unit
  exportcmd (readonly optN : Bool) (name : Bytes) : Program σ Stop Unit
  mklocal (text : Bytes) (vexport : Bool) : Program σ Stop Unit
  pushlocalvars : Program σ Stop Unit
  /-- How many frames there are. -/
  localvarStack : Program σ Stop ℕ
  unwindlocalvars (stop : ℕ) : Program σ Stop Unit
  environ (lp : List Bytes) : Program σ Stop (Bytes → Option Bytes)

/-- `setjmp`: what is raised in the body comes back as its result. -/
def attempt {σ α : Type} (body : Program σ Stop α) : Program σ Stop (Except Exn α) := fun s =>
  match body s with
  | (.ok a, s') => (.ok (.ok a), s')
  | (.error (.raised e), s') => (.ok (.error e), s')
  | (.error .undefined, s') => (.error .undefined, s')

section

variable {σ : Type} (S : Store σ)

/-- `localvar_stop = pushlocalvars(vlocal)`. -/
def Store.pushIf (vlocal : Bool) : Program σ Stop ℕ := do
  let localvarStop ← S.localvarStack
  if vlocal then do
    S.pushlocalvars
    pure localvarStop
  else pure localvarStop

mutual

def Acts.run : Acts → Program σ Stop Bytes
  | .done result => pure result
  | .raise e => Program.stop (.raised e)
  | .lookupvar name next => do
    let val ← S.lookupvar name
    (next val).run
  | .setvar name val next => do
    S.setvar name val
    next.run
  | .exportcmd readonly optN name next => do
    S.exportcmd readonly optN name
    next.run
  | .localcmd arg next => do
    let localvarStack ← S.localvarStack
    if localvarStack = 0 then raiseError .notInFunction
    else do
      S.mklocal arg.1 false
      next.run
  | .evalcommand redirFails vexport assigns command next => do
    let localvarStop ← S.pushIf (!command.spclbltin)
    let result ←
      (if redirFails then
        if command.spclbltin then Program.stop (.raised (.exerror none)) else pure none
      else do
        let varlist ← assigns.run (!command.spclbltin) vexport
        command.run varlist)
    S.unwindlocalvars localvarStop
    (next result).run
  | .backquote body next => do
    -- `osd_evalbackcmd_inproc` leaves the local variables as they are
    let result ← attempt body.run
    (next result).run

def Assigns.run (vlocal vexport : Bool) : Assigns → Program σ Stop (List Bytes)
  | .nil => pure []
  | .cons name value rest => do
    let v ← value.run
    (if vlocal then S.mklocal (name.1 ++ 61 :: v) true else S.setvareq (name.1 ++ 61 :: v) vexport)
    let varlist ← rest.run vlocal vexport
    pure ((name.1 ++ 61 :: v) :: varlist)

def Command.run (varlist : List Bytes) : Command → Program σ Stop (Option Bytes)
  | .unknown => pure none
  | .external status => do
    let env ← S.environ varlist
    pure (some (status env))
  | .builtin special body => do
    let result ← attempt body.run
    match result with
    | .ok status => pure (some status)
    | .error (.exerror message) =>
      if special then Program.stop (.raised (.exerror message)) else pure none
    | .error .exexit => Program.stop (.raised .exexit)
  | .function body => do
    let status ← body.run
    pure (some status)

end

/-- The commands that are typed.  What is raised comes to `ash_main`, where `reset` takes everything
that is local away. -/
def session : List Acts → Program σ Stop (List (Except Exn Bytes))
  | [] => pure []
  | command :: commands => do
    let result ← attempt (command.run S)
    match result with
    | .ok status => do
      let results ← session commands
      pure (.ok status :: results)
    | .error (.exerror message) => do
      S.unwindlocalvars 0
      let results ← session commands
      pure (.error (.exerror message) :: results)
    | .error .exexit => do
      S.unwindlocalvars 0
      pure [.error .exexit]

end

/-- The shell's own. -/
def vartab (m : Malloc) : Store Vartab where
  lookupvar := lookupvar
  setvar name val := setvar0 m name val {}
  setvareq text vexport := do
    let s ← strdup m text
    let _ ← setvareq m s { vexport := vexport }
    pure ()
  exportcmd := exportcmd m
  mklocal text vexport := mklocal m text { vexport := vexport }
  pushlocalvars := pushlocalvars
  localvarStack := do
    let st ← Program.read
    pure st.localvars.length
  unwindlocalvars := unwindlocalvars m
  environ lp := do
    let env ← listvars lp
    pure (getenv env)

/-- A shell that is started with an environment. -/
def ash (m : Malloc) (environ : List Bytes) (ppid pwd : Bytes) (commands : List Acts) :
    Vr (List (Except Exn Bytes)) := do
  init m environ ppid pwd
  session (vartab m) commands

def noVariables : Vartab := ⟨⟨[]⟩, ⟨[]⟩, fun _ => [], [], false⟩

end OsMoap.Shell.Vars
