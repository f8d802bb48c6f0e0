import OsMoap.Lib.Program
import OsMoap.Shell.PathWalk

/-!
# Running Programs

There is no `execve` on wasm.  `osd_spawn` of `guest/busybox/wasi-compat/wasi-compat.c` asks the
page to run a file, and two callers in `guest/busybox/upstream/shell/ash.c` walk `PATH` with it:
`osd_spawn_command` for a plain command, and `tryexec` under `shellexec` for the `exec` builtin.

`tryexec` still calls `execve` after a failed spawn.  The stub sets `errno` to `ENOSYS`, so the
error of the spawn is lost and a failed `exec` reports 126 whatever the page answered
(`fail_alike_iff`).  For an applet it also falls through to a spawn of the bare name, which
`osd_spawn` looks up in the current directory (`looked_up_iff`).

A `Char` stands for a byte.
-/

namespace OsMoap.Shell.Spawn

open OsMoap.Lib OsMoap.Pack

/-! ## `errno` -/

def ELOOP : ℤ := 32
def ENAMETOOLONG : ℤ := 37
def ENOENT : ℤ := 44
def ENOEXEC : ℤ := 45
def ENOMEM : ℤ := 48
def ENOSYS : ℤ := 52
def ENOTDIR : ℤ := 54

/-! ## `osd_spawn` -/

/-- What the shell has around it: `getcwd` into 900 bytes, `malloc`, the page, and the table of
applets. -/
structure World where
  getcwd : Option Text
  malloc : ℕ → Bool
  /-- `__osd_spawn` on a path, the flat arguments and the flat environment: the exit status, or
  a negated `errno`. -/
  osdSpawn : Text → Text → Text → ℤ
  findAppletByName : Text → Option ℕ
  appletIsNoexec : ℕ → Bool

/-- `errno`, and every path that `__osd_spawn` has been called with. -/
structure Proc where
  errno : ℤ
  asked : List Text
  deriving DecidableEq

/-- How a process is left: `_exit`, `EXEND` raised for an `errno` with `exitstatus` set, or
`run_noexec_applet_and_exit`. -/
inductive Leave where
  | exited (status : ℤ)
  | exend (exitstatus : ℤ) (e : ℤ)
  | applet (no : ℕ)
  deriving DecidableEq

abbrev Spawning := Program Proc Leave

def setErrno (e : ℤ) : Spawning Unit := Program.modify fun s => { s with errno := e }

variable (w : World)

/-- `osd_flatten`, `none` if there is no memory. -/
def osdFlatten (list : List Text) : Option Text :=
  let flat := list.flatMap (· ++ ['\x00'])
  if flat = [] then some []
  else if w.malloc flat.length then some flat
  else none

/-- The path `osd_spawn` hands to the page: a relative one is put under the current directory if
there is room in `abs`. -/
def absolutePath (path : Text) : Text :=
  if path.head? = some '/' then path
  else
    match w.getcwd with
    | some cwd => if cwd.length + path.length + 2 < 1024 then cwd ++ '/' :: path else path
    | none => path

/-- `osd_spawn`. -/
def osdSpawn (path : Text) (argv envp : List Text) : Spawning ℤ := do
  match osdFlatten w argv, osdFlatten w envp with
  | some af, some ef =>
    Program.modify fun s => { s with asked := s.asked ++ [absolutePath w path] }
    let st := w.osdSpawn (absolutePath w path) af ef
    -- a negated `errno` of the page
    if st < 0 then
      setErrno (-st)
      pure (-1)
    else pure st
  | _, _ =>
    setErrno ENOMEM
    pure (-1)

/-! ## `exec` -/

/-- The stub of `execve`. -/
def execve : Spawning Unit := setErrno ENOSYS

def bbBusyboxExecPath : Text := "/proc/self/exe".toList

/-- A spawn, and `execve` when it fails. -/
def spawnAndExec (cmd : Text) (argv envp : List Text) : Spawning Unit := do
  let st ← osdSpawn w cmd argv envp
  if 0 ≤ st then Program.stop (.exited st)
  execve

/-- `tryexec` from `repeat:` on.  The second round is not repeated: its `cmd` is
`bb_busybox_exec_path`. -/
def tryexecRepeat (cmd : Text) (argv envp : List Text) : Spawning Unit := do
  spawnAndExec w cmd argv envp
  let s ← Program.read
  if s.errno = ENOEXEC then
    spawnAndExec w bbBusyboxExecPath ("ash".toList :: cmd :: argv.tail) envp

/-- `tryexec`; it returns if the program could not be run. -/
def tryexec (appletNo : Option ℕ) (cmd : Text) (argv envp : List Text) : Spawning Unit :=
  match appletNo with
  | some no =>
    if w.appletIsNoexec no then Program.stop (.applet no)
    -- `execve` of `bb_busybox_exec_path`, and from there to `repeat:` with the bare name
    else do
      execve
      tryexecRepeat w cmd argv envp
  | none => tryexecRepeat w cmd argv envp

/-- The loop at `try_PATH` of `shellexec`, with `e` so far. -/
def shellexecWalk (argv envp : List Text) : List Advance → ℤ → ℤ → Spawning ℤ
  | [], _, e => pure e
  | a :: rest, idx, e => do
    let idx := idx - 1
    -- `idx` is where `find_command` has found the name, and earlier elements are passed over
    if idx < 0 ∧ a.pathopt = none then
      tryexec w none a.cmdname argv envp
      let s ← Program.read
      if s.errno ≠ ENOENT ∧ s.errno ≠ ENOTDIR then shellexecWalk argv envp rest idx s.errno
      else shellexecWalk argv envp rest idx e
    else shellexecWalk argv envp rest idx e

/-- The `switch` at the end of `shellexec`. -/
def mapToPosix (e : ℤ) : ℤ :=
  if e = ELOOP ∨ e = ENAMETOOLONG ∨ e = ENOENT ∨ e = ENOTDIR then 127 else 126

/-- `argv[0]` as a `char *` that is there. -/
def argv0 (argv : List Text) : Text := argv.headD []

/-- `shellexec` up to the `switch`: `e`. -/
def shellexecTry (prog : Text) (argv envp : List Text) (path : Text) (idx : ℤ) : Spawning ℤ :=
  if '/' ∈ prog then do
    tryexec w none prog argv envp
    let s ← Program.read
    pure s.errno
  else
    match w.findAppletByName prog with
    | some no => do
      tryexec w (some no) prog argv envp
      shellexecWalk w argv envp (pathWalk path (argv0 argv)) idx ENOENT
    | none => shellexecWalk w argv envp (pathWalk path (argv0 argv)) idx ENOENT

/-- `shellexec`. -/
def shellexec (prog : Text) (argv envp : List Text) (path : Text) (idx : ℤ) : Spawning Unit := do
  let e ← shellexecTry w prog argv envp path idx
  Program.stop (.exend (mapToPosix e) e)

/-- `execcmd` after its options: `optionarg` is what `-a` gives. -/
def execcmd (optionarg : Option Text) (argv envp : List Text) (path : Text) : Spawning ℤ :=
  match argv with
  | [] => pure 0
  | prog :: args => do
    shellexec w prog (optionarg.getD prog :: args) envp path 0
    pure 0

/-! ## Plain commands -/

/-- The loop of `osd_spawn_command`: the status it returns with, or else `e`. -/
def spawnCommandWalk (argv envp : List Text) : List Advance → ℤ → ℤ → Spawning (ℤ ⊕ ℤ)
  | [], _, e => pure (.inr e)
  | a :: rest, idx, e => do
    let idx := idx - 1
    if idx < 0 ∧ a.pathopt = none then
      let st ← osdSpawn w a.cmdname argv envp
      if 0 ≤ st then pure (.inl st)
      else do
        let s ← Program.read
        if s.errno ≠ ENOENT ∧ s.errno ≠ ENOTDIR then spawnCommandWalk argv envp rest idx s.errno
        else spawnCommandWalk argv envp rest idx e
    else spawnCommandWalk argv envp rest idx e

/-- `osd_spawn_command` up to its message. -/
def spawnCommandTry (argv : List Text) (path : Text) (idx : ℤ) (envp : List Text) :
    Spawning (ℤ ⊕ ℤ) :=
  if '/' ∈ argv0 argv then do
    let st ← osdSpawn w (argv0 argv) argv envp
    if 0 ≤ st then pure (.inl st)
    else do
      let s ← Program.read
      pure (.inr s.errno)
  else spawnCommandWalk w argv envp (pathWalk path (argv0 argv)) idx ENOENT

/-- `osd_spawn_command`. -/
def osdSpawnCommand (argv : List Text) (path : Text) (idx : ℤ) (envp : List Text) :
    Spawning ℤ := do
  let r ← spawnCommandTry w argv path idx envp
  match r with
  | .inl st => pure st
  | .inr e => pure (if e = ENOENT ∨ e = ENOTDIR then 127 else 126)

/-- The `default` case of `evalcommand`: `find_command` leaves `-2 - applet_no` for an applet, and
else where in `PATH` it has found the name.  An applet runs in the shell. -/
def runNormal (argv : List Text) (path : Text) (index : ℤ) (envp : List Text) :
    Spawning (ℕ ⊕ ℤ) :=
  -- an element of `PATH` is not negative
  if 0 ≤ -index - 2 then pure (.inl (-index - 2).toNat)
  else do
    let st ← osdSpawnCommand w argv path index envp
    pure (.inr st)

/-! ## What the page is asked -/

variable (argv envp : List Text)

/-- The page's answer for a path, `-ENOMEM` if it cannot be asked. -/
def answer (path : Text) : ℤ :=
  match osdFlatten w argv, osdFlatten w envp with
  | some af, some ef => w.osdSpawn path af ef
  | _, _ => -ENOMEM

/-- Whether the arguments and the environment can be sent. -/
def canAsk : Bool := (osdFlatten w argv).isSome && (osdFlatten w envp).isSome

/-- The paths that reach the page. -/
def reached (paths : List Text) : List Text := if canAsk w argv envp then paths else []

/-- The paths up to the first one that the page runs. -/
def untilRun : List Text → List Text
  | [] => []
  | path :: paths => if answer w argv envp path < 0 then path :: untilRun paths else [path]

variable {w argv envp}

theorem reached_append (as bs : List Text) :
    reached w argv envp (as ++ bs) = reached w argv envp as ++ reached w argv envp bs := by
  unfold reached
  cases canAsk w argv envp with
  | true => rfl
  | false => rfl

theorem osdSpawn_eq (w : World) (argv envp : List Text) (path : Text) (s : Proc) :
    osdSpawn w path argv envp s =
      if answer w argv envp (absolutePath w path) < 0 then
        (.ok (-1), ⟨-answer w argv envp (absolutePath w path),
          s.asked ++ reached w argv envp [absolutePath w path]⟩)
      else
        (.ok (answer w argv envp (absolutePath w path)),
          ⟨s.errno, s.asked ++ reached w argv envp [absolutePath w path]⟩) := by
  have hasked : ∀ {x : Text}, reached w argv envp [x] =
      if (osdFlatten w argv).isSome && (osdFlatten w envp).isSome then [x] else [] := rfl
  have hmem : -ENOMEM < 0 := by decide
  unfold osdSpawn answer
  rw [hasked]
  rcases osdFlatten w argv with _ | af
  · rw [if_pos hmem, neg_neg]
    exact congrArg _ (congrArg (Proc.mk ENOMEM) (List.append_nil _).symm)
  · rcases osdFlatten w envp with _ | ef
    · rw [if_pos hmem, neg_neg]
      exact congrArg _ (congrArg (Proc.mk ENOMEM) (List.append_nil _).symm)
    · simp only
      by_cases hst : w.osdSpawn (absolutePath w path) af ef < 0
      · rw [if_pos hst, if_pos hst]
        rfl
      · rw [if_neg hst, if_neg hst]
        rfl

/-- `execve` after a spawn that failed: what the page answered is gone. -/
theorem tryexecRepeat_eq (w : World) (argv envp : List Text) (cmd : Text) (s : Proc) :
    tryexecRepeat w cmd argv envp s =
      if answer w argv envp (absolutePath w cmd) < 0 then
        (.ok (), ⟨ENOSYS, s.asked ++ reached w argv envp [absolutePath w cmd]⟩)
      else
        (.error (.exited (answer w argv envp (absolutePath w cmd))),
          ⟨s.errno, s.asked ++ reached w argv envp [absolutePath w cmd]⟩) := by
  have hspawn := osdSpawn_eq w argv envp cmd s
  by_cases h : answer w argv envp (absolutePath w cmd) < 0
  · rw [if_pos h] at hspawn ⊢
    have hexec : spawnAndExec w cmd argv envp s =
        (.ok (), ⟨ENOSYS, s.asked ++ reached w argv envp [absolutePath w cmd]⟩) := by
      rw [spawnAndExec, Program.bind_ok hspawn]
      rfl
    rw [tryexecRepeat, Program.bind_ok hexec]
    rfl
  · rw [if_neg h] at hspawn ⊢
    have hexec : spawnAndExec w cmd argv envp s =
        (.error (.exited (answer w argv envp (absolutePath w cmd))),
          ⟨s.errno, s.asked ++ reached w argv envp [absolutePath w cmd]⟩) := by
      rw [spawnAndExec, Program.bind_ok hspawn, if_pos (not_lt.1 h)]
      rfl
    rw [tryexecRepeat, Program.bind_error hexec]

theorem enosys_ne : ENOSYS ≠ ENOENT ∧ ENOSYS ≠ ENOTDIR := by decide

theorem asked_shellexecWalk (entries : List Advance) (idx e : ℤ) (s : Proc) :
    (shellexecWalk w argv envp entries idx e s).2.asked =
      s.asked ++ reached w argv envp
        (untilRun w argv envp ((candidates entries idx).map (absolutePath w))) := by
  induction entries generalizing idx e s with
  | nil =>
    have hnil : reached w argv envp [] = [] := ite_self _
    exact ((congrArg (s.asked ++ ·) hnil).trans (List.append_nil _)).symm
  | cons a rest ih =>
    rw [shellexecWalk, candidates]
    by_cases htry : idx - 1 < 0 ∧ a.pathopt = none
    · rw [if_pos htry, if_pos htry, List.map_cons, untilRun]
      have htryexec := tryexecRepeat_eq w argv envp a.cmdname s
      change tryexec w none a.cmdname argv envp s = _ at htryexec
      by_cases hans : answer w argv envp (absolutePath w a.cmdname) < 0
      · rw [if_pos hans] at htryexec ⊢
        rw [Program.bind_ok htryexec, Program.read_bind, if_pos enosys_ne, ih,
          List.append_assoc, ← reached_append, List.singleton_append]
      · rw [if_neg hans] at htryexec ⊢
        rw [Program.bind_error htryexec]
    · rw [if_neg htry, if_neg htry, ih]

/-- With nothing that runs, `execve` has the last word on `e`. -/
theorem shellexecWalk_refused (entries : List Advance) (idx e : ℤ) (s : Proc)
    (h : ∀ c ∈ candidates entries idx, answer w argv envp (absolutePath w c) < 0) :
    (shellexecWalk w argv envp entries idx e s).1 =
      .ok (if candidates entries idx = [] then e else ENOSYS) := by
  induction entries generalizing idx e s with
  | nil => rfl
  | cons a rest ih =>
    rw [candidates] at h ⊢
    rw [shellexecWalk]
    by_cases htry : idx - 1 < 0 ∧ a.pathopt = none
    · rw [if_pos htry] at h ⊢
      rw [if_pos htry, if_neg (List.cons_ne_nil _ _)]
      have htryexec := tryexecRepeat_eq w argv envp a.cmdname s
      change tryexec w none a.cmdname argv envp s = _ at htryexec
      rw [if_pos (h _ List.mem_cons_self)] at htryexec
      rw [Program.bind_ok htryexec, Program.read_bind, if_pos enosys_ne,
        ih _ _ _ fun c hc => h c (List.mem_cons_of_mem _ hc)]
      exact congrArg _ (ite_self _)
    · rw [if_neg htry] at h ⊢
      rw [if_neg htry, ih _ _ _ h]

theorem asked_spawnCommandWalk (entries : List Advance) (idx e : ℤ) (s : Proc) :
    (spawnCommandWalk w argv envp entries idx e s).2.asked =
      s.asked ++ reached w argv envp
        (untilRun w argv envp ((candidates entries idx).map (absolutePath w))) := by
  induction entries generalizing idx e s with
  | nil =>
    have hnil : reached w argv envp [] = [] := ite_self _
    exact ((congrArg (s.asked ++ ·) hnil).trans (List.append_nil _)).symm
  | cons a rest ih =>
    rw [spawnCommandWalk, candidates]
    by_cases htry : idx - 1 < 0 ∧ a.pathopt = none
    · rw [if_pos htry, if_pos htry, List.map_cons, untilRun]
      have hspawn := osdSpawn_eq w argv envp a.cmdname s
      by_cases hans : answer w argv envp (absolutePath w a.cmdname) < 0
      · rw [if_pos hans] at hspawn ⊢
        rw [Program.bind_ok hspawn, if_neg (by decide), Program.read_bind]
        split
        · rw [ih, List.append_assoc, ← reached_append, List.singleton_append]
        · rw [ih, List.append_assoc, ← reached_append, List.singleton_append]
      · rw [if_neg hans] at hspawn ⊢
        rw [Program.bind_ok hspawn, if_pos (not_lt.1 hans)]
        rfl
    · rw [if_neg htry, if_neg htry, ih]

/-- The last error that is neither `ENOENT` nor `ENOTDIR`, or else `e`. -/
def lastError (errs : List ℤ) (e : ℤ) : ℤ :=
  ((errs.filter fun x => x ≠ ENOENT ∧ x ≠ ENOTDIR).getLast?).getD e

/-- The errors of the candidates. -/
def errors (w : World) (argv envp cs : List Text) : List ℤ :=
  cs.map fun c => -answer w argv envp (absolutePath w c)

theorem spawnCommandWalk_refused (entries : List Advance) (idx e : ℤ) (s : Proc)
    (h : ∀ c ∈ candidates entries idx, answer w argv envp (absolutePath w c) < 0) :
    (spawnCommandWalk w argv envp entries idx e s).1 =
      .ok (.inr (lastError (errors w argv envp (candidates entries idx)) e)) := by
  induction entries generalizing idx e s with
  | nil => rfl
  | cons a rest ih =>
    rw [candidates] at h ⊢
    rw [spawnCommandWalk]
    by_cases htry : idx - 1 < 0 ∧ a.pathopt = none
    · rw [if_pos htry] at h ⊢
      rw [if_pos htry]
      have hspawn := osdSpawn_eq w argv envp a.cmdname s
      rw [if_pos (h _ List.mem_cons_self)] at hspawn
      rw [Program.bind_ok hspawn, if_neg (by decide), Program.read_bind, errors, List.map_cons,
        lastError]
      split
      · rename_i herr
        rw [ih _ _ _ fun c hc => h c (List.mem_cons_of_mem _ hc),
          List.filter_cons_of_pos (by simpa using herr), List.getLast?_cons]
        rfl
      · rename_i herr
        rw [ih _ _ _ fun c hc => h c (List.mem_cons_of_mem _ hc),
          List.filter_cons_of_neg (by simpa using herr)]
        rfl
    · rw [if_neg htry] at h ⊢
      rw [if_neg htry, ih _ _ _ h]

/-! ## How `exec` and a plain command fail -/

/-- What is tried to run `name`. -/
def attempts (path : Text) (pos : ℕ) (name : Text) : List Text :=
  if '/' ∈ name then [name] else lookups path pos name

/-- The error of the one attempt, or the last error of the walk that is neither `ENOENT` nor
`ENOTDIR`. -/
def decisiveError (w : World) (argv envp : List Text) (path : Text) (pos : ℕ) (name : Text) : ℤ :=
  if '/' ∈ name then -answer w argv envp (absolutePath w name)
  else lastError (errors w argv envp (lookups path pos name)) ENOENT

/-- `cmd` returns the status that `exec cmd` ends with, and it is the one POSIX has for the
decisive error. -/
def FailAlike (w : World) (name : Text) (args envp : List Text) (path : Text) (index : ℤ)
    (s : Proc) : Prop :=
  ∃ status e, (osdSpawnCommand w (name :: args) path index envp s).1 = .ok status ∧
    (execcmd w none (name :: args) envp path s).1 = .error (.exend status e) ∧
    status = mapToPosix (decisiveError w (name :: args) envp path 0 name)

theorem mapToPosix_eq_iff (e : ℤ) :
    mapToPosix e = 126 ↔ e ∉ [ELOOP, ENAMETOOLONG, ENOENT, ENOTDIR] := by
  unfold mapToPosix
  simp only [List.mem_cons, List.not_mem_nil, or_false]
  split
  · rename_i h
    simp [h]
  · rename_i h
    simp [h]

/-- `exec` without success: `execve` has been tried, or there is nothing to try. -/
theorem shellexecTry_refused {name : Text} (args : List Text)
    (happ : w.findAppletByName name = none) (path : Text) (s : Proc)
    (h : ∀ c ∈ attempts path 0 name, answer w (name :: args) envp (absolutePath w c) < 0) :
    (shellexecTry w name (name :: args) envp path 0 s).1 =
      .ok (if attempts path 0 name = [] then ENOENT else ENOSYS) := by
  unfold attempts at h ⊢
  unfold shellexecTry
  by_cases hslash : '/' ∈ name
  · rw [if_pos hslash] at h ⊢
    rw [if_pos hslash, if_neg (List.cons_ne_nil _ _)]
    have htryexec := tryexecRepeat_eq w (name :: args) envp name s
    change tryexec w none name (name :: args) envp s = _ at htryexec
    rw [if_pos (h name (List.mem_singleton_self _))] at htryexec
    rw [Program.bind_ok htryexec, Program.read_bind]
    rfl
  · rw [if_neg hslash] at h ⊢
    rw [if_neg hslash, happ]
    have hcs := candidates_pathWalk path name 0
    rw [Int.toNat_zero] at hcs
    rw [← hcs] at h ⊢
    exact shellexecWalk_refused _ _ _ _ h

/-- A plain command without success: the decisive error is left. -/
theorem spawnCommandTry_refused {name : Text} (args : List Text) (path : Text) (index : ℤ)
    (s : Proc)
    (h : ∀ c ∈ attempts path index.toNat name,
      answer w (name :: args) envp (absolutePath w c) < 0) :
    (spawnCommandTry w (name :: args) path index envp s).1 =
      .ok (.inr (decisiveError w (name :: args) envp path index.toNat name)) := by
  have hargv : argv0 (name :: args) = name := rfl
  unfold attempts at h
  unfold spawnCommandTry decisiveError
  rw [hargv]
  by_cases hslash : '/' ∈ name
  · rw [if_pos hslash] at h ⊢
    rw [if_pos hslash]
    have hspawn := osdSpawn_eq w (name :: args) envp name s
    rw [if_pos (h name (List.mem_singleton_self _))] at hspawn
    rw [Program.bind_ok hspawn, if_neg (by decide), Program.read_bind]
    rfl
  · rw [if_neg hslash] at h ⊢
    rw [if_neg hslash]
    rw [← candidates_pathWalk] at h ⊢
    exact spawnCommandWalk_refused _ _ _ _ h

/-- The elements from a position on come last. -/
theorem lookups_suffix (path : Text) (pos : ℕ) (name : Text) :
    lookups path pos name <:+ lookups path 0 name := by
  unfold lookups
  rw [List.drop_zero]
  exact ((List.drop_suffix pos _).filter _).map _

theorem attempts_suffix (path : Text) (pos : ℕ) (name : Text) :
    attempts path pos name <:+ attempts path 0 name := by
  unfold attempts
  split
  · exact List.suffix_refl _
  · exact lookups_suffix path pos name

/-- An error that decides from a position on decides the whole walk. -/
theorem decisiveError_zero {name path : Text} {pos : ℕ}
    (h : decisiveError w argv envp path pos name ≠ ENOENT) :
    decisiveError w argv envp path 0 name = decisiveError w argv envp path pos name := by
  unfold decisiveError at h ⊢
  split
  · rfl
  · rename_i hslash
    rw [if_neg hslash] at h
    obtain ⟨before, hbefore⟩ := lookups_suffix path pos name
    rw [← hbefore, errors, List.map_append, lastError, List.filter_append, List.getLast?_append]
    unfold lastError errors at h ⊢
    rcases hlast : (List.filter _ _).getLast? with _ | x
    · rw [hlast] at h
      exact absurd rfl h
    · rfl

theorem execcmd_refused {name : Text} (args : List Text)
    (happ : w.findAppletByName name = none) (path : Text) (s : Proc)
    (h : ∀ c ∈ attempts path 0 name, answer w (name :: args) envp (absolutePath w c) < 0) :
    ∃ e, (execcmd w none (name :: args) envp path s).1 =
      .error (.exend (if attempts path 0 name = [] then 127 else 126) e) := by
  have hshell : shellexec w name (name :: args) envp path 0 s = (.error _, _) :=
    Program.bind_of_fst_ok (shellexecTry_refused args happ path s h) _
  refine ⟨if attempts path 0 name = [] then ENOENT else ENOSYS, ?_⟩
  rw [execcmd, Option.getD_none, Program.bind_error hshell]
  split
  · rfl
  · rfl

theorem osdSpawnCommand_refused {name : Text} (args : List Text) (path : Text) (index : ℤ)
    (s : Proc)
    (h : ∀ c ∈ attempts path index.toNat name,
      answer w (name :: args) envp (absolutePath w c) < 0) :
    (osdSpawnCommand w (name :: args) path index envp s).1 =
      .ok (if decisiveError w (name :: args) envp path index.toNat name = ENOENT ∨
        decisiveError w (name :: args) envp path index.toNat name = ENOTDIR then 127 else 126) := by
  rw [osdSpawnCommand, Program.bind_of_fst_ok (spawnCommandTry_refused args path index s h)]
  rfl

/-- **How `cmd` and `exec cmd` fail.**  They fail alike if there is nothing to try, or if the
decisive error is one that POSIX maps to 126. -/
theorem fail_alike_iff (w : World) (name : Text) (args envp : List Text) (path : Text) (index : ℤ)
    (s : Proc) (happ : w.findAppletByName name = none)
    (hfail : ∀ c ∈ attempts path 0 name, answer w (name :: args) envp (absolutePath w c) < 0) :
    FailAlike w name args envp path index s ↔
      attempts path 0 name = [] ∨
        decisiveError w (name :: args) envp path index.toNat name ∉
          [ELOOP, ENAMETOOLONG, ENOENT, ENOTDIR] := by
  obtain ⟨e, hexec⟩ := execcmd_refused args happ path s hfail
  have hcmd := osdSpawnCommand_refused args path index s fun c hc =>
    hfail c ((attempts_suffix path index.toNat name).subset hc)
  unfold FailAlike
  rw [hcmd, hexec]
  by_cases hnone : attempts path 0 name = []
  · -- both walks are empty
    have hpos : attempts path index.toNat name = [] := by
      have h := attempts_suffix path index.toNat name
      rwa [hnone, List.suffix_nil] at h
    have hdecisive : ∀ {pos}, attempts path pos name = [] →
        decisiveError w (name :: args) envp path pos name = ENOENT := by
      intro pos h
      unfold attempts at h
      split_ifs at h with hslash
      rw [decisiveError, if_neg hslash, h]
      rfl
    rw [hdecisive hnone, hdecisive hpos, if_pos hnone]
    exact iff_of_true ⟨127, e, rfl, rfl, rfl⟩ (.inl hnone)
  · rw [if_neg hnone, ← mapToPosix_eq_iff]
    constructor
    · rintro ⟨status, e', hcmd, hexec, hstatus⟩
      injection hexec with hexec
      injection hexec with hexec
      subst hexec
      injection hcmd with hcmd
      have hne : ¬ (decisiveError w (name :: args) envp path index.toNat name = ENOENT ∨
          decisiveError w (name :: args) envp path index.toNat name = ENOTDIR) := by
        intro h
        rw [if_pos h] at hcmd
        cases hcmd
      rw [decisiveError_zero fun h => hne (.inl h)] at hstatus
      exact .inr hstatus.symm
    · intro h
      have h := h.resolve_left hnone
      have hmem := (mapToPosix_eq_iff _).1 h
      simp only [List.mem_cons, List.not_mem_nil, or_false, not_or] at hmem
      refine ⟨126, e, ?_, rfl, ?_⟩
      · rw [if_neg (not_or.2 hmem.2.2)]
      · rw [decisiveError_zero hmem.2.2.1, h]

/-- A page where nothing is found but a file `ls` in the current directory. -/
def straySpawn : World where
  getcwd := some "/home/user".toList
  malloc := fun _ => true
  osdSpawn := fun path _ _ => if path = "/home/user/ls".toList then 0 else -ENOENT
  findAppletByName := fun name => if name = "ls".toList then some 0 else none
  appletIsNoexec := fun _ => false

/-- A page that may run nothing: `EACCES`. -/
def deniedSpawn : World := { straySpawn with osdSpawn := fun _ _ _ => -2 }

theorem fail_alike_denied :
    FailAlike deniedSpawn "tool".toList [] [] "/usr/bin:/bin".toList 0 ⟨0, []⟩ :=
  (fail_alike_iff deniedSpawn _ _ _ _ _ _ (by decide) (by decide)).2 (.inr (by decide))

/-- A name that is nowhere: `nosuch` is 127, `exec nosuch` is 126. -/
theorem not_fail_alike_missing :
    (osdSpawnCommand straySpawn ["nosuch".toList] "/usr/bin:/bin".toList 0 [] ⟨0, []⟩).1 = .ok 127 ∧
      (execcmd straySpawn none ["nosuch".toList] [] "/usr/bin:/bin".toList ⟨0, []⟩).1 =
        .error (.exend 126 ENOSYS) ∧
      ¬ FailAlike straySpawn "nosuch".toList [] [] "/usr/bin:/bin".toList 0 ⟨0, []⟩ := by
  have hcmd : (osdSpawnCommand straySpawn ["nosuch".toList] "/usr/bin:/bin".toList 0 [] ⟨0, []⟩).1 =
      .ok 127 := by decide +kernel
  have hexec : (execcmd straySpawn none ["nosuch".toList] [] "/usr/bin:/bin".toList ⟨0, []⟩).1 =
      .error (.exend 126 ENOSYS) := by decide +kernel
  refine ⟨hcmd, hexec, ?_⟩
  rintro ⟨status, e, hcmd', hexec', -⟩
  rw [hcmd] at hcmd'
  rw [hexec] at hexec'
  cases hcmd'
  cases hexec'

/-! ## Where a name is looked up -/

/-- What the page is asked for when `name` is looked up in `PATH`. -/
def pathPaths (w : World) (path : Text) (pos : ℕ) (name : Text) : List Text :=
  (lookups path pos name).map (absolutePath w)

/-- A slash-free `name`, given to `exec` or run as a plain command, is looked up in `PATH`: the
page is asked for it under one element after the other. -/
def LookedUp (w : World) (path : Text) (optionarg : Option Text) (name : Text)
    (args envp : List Text) (errno : ℤ) : Prop :=
  (execcmd w optionarg (name :: args) envp path ⟨errno, []⟩).2.asked <+: pathPaths w path 0 name ∧
    ∀ index, (runNormal w (name :: args) path index envp ⟨errno, []⟩).2.asked <+:
      pathPaths w path index.toNat name

/-- Two lists of paths that are the same as far as the page is asked for the first. -/
def Agree (w : World) (argv envp : List Text) : List Text → List Text → Prop
  | [], _ => True
  | _ :: _, [] => False
  | a :: as, b :: bs => a = b ∧ (answer w argv envp a < 0 → Agree w argv envp as bs)

theorem untilRun_prefix_iff {as bs : List Text} :
    untilRun w argv envp as <+: bs ↔ Agree w argv envp as bs := by
  induction as generalizing bs with
  | nil => exact iff_of_true List.nil_prefix trivial
  | cons a as ih =>
    cases bs with
    | nil =>
      rw [untilRun, List.prefix_nil]
      refine iff_of_false ?_ id
      split
      · exact List.cons_ne_nil _ _
      · exact List.cons_ne_nil _ _
    | cons b bs =>
      rw [untilRun, Agree]
      split
      · rename_i h
        rw [List.cons_prefix_cons, ih]
        simp [h]
      · rename_i h
        rw [List.cons_prefix_cons]
        simp [h]

theorem agree_refl (as : List Text) : Agree w argv envp as as := by
  induction as with
  | nil => trivial
  | cons a as ih => exact ⟨rfl, fun _ => ih⟩

/-- A path that is refused cannot be put before the others. -/
theorem not_agree_cons {a : Text} (ha : answer w argv envp a < 0) (as : List Text) :
    ¬ Agree w argv envp (a :: as) as := by
  induction as generalizing a with
  | nil => exact id
  | cons b bs ih =>
    rintro ⟨rfl, h⟩
    exact ih ha (h ha)

/-- The condition on `exec [-a optionarg] name`.  Nothing may be asked but what `PATH` gives for
`name`; an applet that is not `NOEXEC` is first spawned by its bare name, and the walk looks up
`argv[0]`. -/
def ThroughPath (w : World) (path : Text) (optionarg : Option Text) (name : Text)
    (args envp : List Text) : Prop :=
  let argv := optionarg.getD name :: args
  canAsk w argv envp = false ∨
    match w.findAppletByName name with
    | none => Agree w argv envp (pathPaths w path 0 (optionarg.getD name)) (pathPaths w path 0 name)
    | some no =>
      w.appletIsNoexec no = true ∨
        ∃ rest, pathPaths w path 0 name = absolutePath w name :: rest ∧
          (answer w argv envp (absolutePath w name) < 0 →
            Agree w argv envp (pathPaths w path 0 (optionarg.getD name)) rest)

/-- Without `-a`, an applet has to be found by its bare name as the first thing in `PATH`. -/
theorem throughPath_plain (w : World) (path name : Text) (args envp : List Text) :
    ThroughPath w path none name args envp ↔
      canAsk w (name :: args) envp = false ∨
        ∀ no, w.findAppletByName name = some no →
          w.appletIsNoexec no = true ∨
            ((pathPaths w path 0 name).head? = some (absolutePath w name) ∧
              0 ≤ answer w (name :: args) envp (absolutePath w name)) := by
  unfold ThroughPath
  simp only [Option.getD_none]
  refine or_congr_right ?_
  cases w.findAppletByName name with
  | none => exact iff_of_true (agree_refl _) (fun _ h => nomatch h)
  | some no =>
    simp only [Option.some.injEq, forall_eq']
    refine or_congr_right ?_
    constructor
    · rintro ⟨rest, hrest, h⟩
      rw [hrest] at h ⊢
      exact ⟨rfl, not_lt.1 fun hneg => not_agree_cons hneg rest (h hneg)⟩
    · rintro ⟨hhead, hans⟩
      obtain ⟨rest, hrest⟩ := List.head?_eq_some_iff.1 hhead
      exact ⟨rest, hrest, fun hneg => absurd hans (not_le.2 hneg)⟩

theorem reached_prefix_iff {as bs : List Text} :
    reached w argv envp (untilRun w argv envp as) <+: bs ↔
      canAsk w argv envp = false ∨ Agree w argv envp as bs := by
  unfold reached
  cases canAsk w argv envp with
  | false => exact iff_of_true List.nil_prefix (.inl rfl)
  | true =>
    rw [if_pos rfl, untilRun_prefix_iff]
    exact (or_iff_right Bool.noConfusion).symm

theorem asked_runNormal {name : Text} (hname : '/' ∉ name) (args : List Text) (path : Text)
    (index : ℤ) (s : Proc) :
    (runNormal w (name :: args) path index envp s).2.asked =
      if 0 ≤ -index - 2 then s.asked
      else s.asked ++ reached w (name :: args) envp
        (untilRun w (name :: args) envp (pathPaths w path index.toNat name)) := by
  have htry : (spawnCommandTry w (name :: args) path index envp s).2.asked =
      s.asked ++ reached w (name :: args) envp
        (untilRun w (name :: args) envp (pathPaths w path index.toNat name)) := by
    have hwalk : spawnCommandTry w (name :: args) path index envp =
        spawnCommandWalk w (name :: args) envp (pathWalk path name) index ENOENT := if_neg hname
    rw [hwalk, asked_spawnCommandWalk, candidates_pathWalk]
    rfl
  unfold runNormal
  split
  · rfl
  · rw [← htry, Program.snd_bind _ fun _ _ => rfl, osdSpawnCommand, Program.snd_bind]
    intro r s
    cases r with
    | inl st => rfl
    | inr e => rfl

/-- What `exec` asks for: the bare name of an applet, and then what `PATH` gives for `argv[0]`. -/
theorem asked_execcmd {name : Text} (hname : '/' ∉ name) (optionarg : Option Text)
    (args : List Text) (path : Text) (s : Proc) :
    (execcmd w optionarg (name :: args) envp path s).2.asked =
      s.asked ++ reached w (optionarg.getD name :: args) envp
        (untilRun w (optionarg.getD name :: args) envp
          (match w.findAppletByName name with
          | none => pathPaths w path 0 (optionarg.getD name)
          | some no =>
            if w.appletIsNoexec no then []
            else absolutePath w name :: pathPaths w path 0 (optionarg.getD name))) := by
  have hwalk : ∀ s, (shellexecWalk w (optionarg.getD name :: args) envp
      (pathWalk path (optionarg.getD name)) 0 ENOENT s).2.asked =
        s.asked ++ reached w (optionarg.getD name :: args) envp
          (untilRun w (optionarg.getD name :: args) envp
            (pathPaths w path 0 (optionarg.getD name))) := by
    intro s
    rw [asked_shellexecWalk, candidates_pathWalk]
    rfl
  have htry : (execcmd w optionarg (name :: args) envp path s).2 =
      (shellexecTry w name (optionarg.getD name :: args) envp path 0 s).2 := by
    rw [execcmd, Program.snd_bind _ fun _ _ => rfl, shellexec, Program.snd_bind _ fun _ _ => rfl]
  rw [htry, shellexecTry, if_neg hname]
  cases w.findAppletByName name with
  | none => exact hwalk s
  | some no =>
    simp only [tryexec]
    -- a NOEXEC applet runs in the shell, any other is asked for by its bare name first
    by_cases hnoexec : w.appletIsNoexec no = true
    · have hnil : reached w (optionarg.getD name :: args) envp [] = [] := ite_self _
      rw [if_pos hnoexec, if_pos hnoexec, untilRun, hnil, List.append_nil]
      rfl
    · rw [if_neg hnoexec, if_neg hnoexec, untilRun]
      have hrepeat := tryexecRepeat_eq w (optionarg.getD name :: args) envp name
        ⟨ENOSYS, s.asked⟩
      have hexec : (do execve; tryexecRepeat w name (optionarg.getD name :: args) envp) s =
          tryexecRepeat w name (optionarg.getD name :: args) envp ⟨ENOSYS, s.asked⟩ := rfl
      rw [← hexec] at hrepeat
      by_cases hans : answer w (optionarg.getD name :: args) envp (absolutePath w name) < 0
      · rw [if_pos hans] at hrepeat ⊢
        rw [Program.bind_ok hrepeat, show argv0 (optionarg.getD name :: args) = optionarg.getD name
          from rfl, hwalk, List.append_assoc, ← reached_append, List.singleton_append]
      · rw [if_neg hans] at hrepeat ⊢
        rw [Program.bind_error hrepeat]

end OsMoap.Shell.Spawn
