import Mathlib.Data.Nat.Notation
import Mathlib.Data.Option.Basic
import Mathlib.Tactic.SplitIfs

/-!
# The No-Fork Flag of `zsh`

`guest/pkgs/zsh/patches/osmoap-nofork.patch`, the part that runs external commands.  Without
`fork` the shell asks the host to run a file and goes on when it has ended; `osd_nofork` tells
`execute` and `zexecve` so.  Without the flag a file that has run ends the shell, which is what
`exec` means.

A `Run` is what happens when a command is run: whether its redirections and assignments
succeed, what the host says to each file that is tried, and the commands a
`command_not_found_handler` runs.  `Run.exec` is what the patched shell makes of it.

The flag is set in `execcmd_exec` long before it is cleared there.  A failed redirection leaves
in between, and a handler that runs an external command clears the flag of the command it
handles.  In runs without the two the flag is kept well (`nofork_discipline`).
-/

namespace OsMoap.Guest

/-! ## Looking for the file -/

/-- The errors that `execute` tells apart: `EACCES` and `ENOEXEC`, and all others. -/
inductive Errno where
  | access
  | other
  deriving DecidableEq

/-- What the host says to a file: it ran and ended with a status, or an error, which `isgooderr`
keeps or not. -/
inductive Try where
  | spawned (st : ℕ)
  | failed (errno : Errno) (good : Bool)
  deriving DecidableEq

/-- How `execute` looks for its file. -/
structure Search where
  /-- Refused by the `RESTRICTED` option. -/
  restricted : Bool
  /-- The name is longer than `PATH_MAX`. -/
  tooLong : Bool
  /-- The name has a slash: what becomes of it, and whether that decides. -/
  slash : Option (Try × Bool)
  /-- With `command -p`: what `search_defpath` finds. -/
  defpath : Option (Option Try)
  /-- The files tried along the path. -/
  tries : List Try

structure ZState where
  /-- `osd_nofork`. -/
  nofork : Bool
  /-- `osd_spawn_st`, if it is not `-1`. -/
  spawnSt : Option ℕ
  lastval : ℕ
  /-- The status the shell has ended with. -/
  exited : Option ℕ
  deriving DecidableEq

/-- `zexecve`: the error, if there is one. -/
def zexecve (t : Try) (s : ZState) : Option (Errno × Bool) × ZState :=
  match t with
  | .spawned st =>
    if s.nofork then (none, { s with spawnSt := some st }) else (none, { s with exited := some st })
  | .failed errno good => (some (errno, good), s)

/-- `zexecve` and `OSD_SPAWNED`: `execute` is left with a state, or goes on with an error. -/
def attempt (t : Try) (s : ZState) : Except ZState (Option (Errno × Bool)) :=
  let (err, s') := zexecve t s
  if s'.exited.isSome then .error s'
  else
    match s'.nofork, s'.spawnSt with
    | true, some st => .error { s' with lastval := st, spawnSt := none }
    | _, _ => .ok err

/-- `OSD_EXIT`. -/
def osdExit (n : ℕ) (s : ZState) : ZState :=
  if s.nofork then { s with lastval := n } else { s with exited := some n }

def Errno.status : Errno → ℕ
  | .access => 126
  | .other => 127

/-- Try files in turn and keep the last error that counts. -/
def attempts : List Try → Option Errno → ZState → Except ZState (Option Errno)
  | [], eno, _ => .ok eno
  | t :: ts, eno, s =>
    match attempt t s with
    | .error s' => .error s'
    | .ok (some (errno, true)) => attempts ts (some errno) s
    | .ok _ => attempts ts eno s

/-- How the search ends: `execute` is done, or calls `commandnotfound`. -/
inductive Found where
  | done (s : ZState)
  | missing (s : ZState)

/-- The files along the path; with `command -p` the one in the default path, if there is one. -/
def Search.alongPath (c : Search) : List Try := (c.defpath.map Option.toList).getD c.tries

/-- `execute` behind the loop over the name. -/
def searchPath (c : Search) (s : ZState) : Found :=
  match attempts c.alongPath none s with
  | .error s' => .done s'
  | .ok (some errno) => .done (osdExit errno.status s)
  | .ok none => .missing s

/-- `execute` up to its calls of `commandnotfound`. -/
def search (c : Search) (s : ZState) : Found :=
  if c.restricted || c.tooLong then .done (osdExit 1 s)
  else
    match c.slash with
    | none => searchPath c s
    | some (t, decides) =>
      match attempt t s with
      | .error s' => .done s'
      | .ok err =>
        if decides then .done (osdExit (err.elim 127 fun e => e.1.status) s) else searchPath c s

/-- `execute`, given what the handler does. -/
def execute (c : Search) (handler : Option (ZState → ZState)) (s : ZState) : ZState :=
  match search c s with
  | .done s' => s'
  | .missing s' =>
    match handler with
    | none => osdExit 127 s'
    | some run =>
      let s'' := run s'
      if s''.exited.isSome then s''
      else if s''.nofork then s''
      else { s'' with exited := some s''.lastval }

/-! ## Commands -/

/-- An external command. -/
structure External where
  /-- Started with `exec`. -/
  isExec : Bool
  /-- The last command of a shell that has nothing left to do (`last1 == 1`). -/
  isTail : Bool
  redirFails : Bool
  assignFails : Bool
  search : Search

mutual

/-- What happens when a command is run. -/
inductive Run where
  | internal (status : ℕ)
  | quit (status : ℕ)
  | group (body : Runs)
  | external (c : External) (handled : Bool) (handler : Runs)

/-- Commands one after the other. -/
inductive Runs where
  | nil
  | cons (r : Run) (rest : Runs)

end

/-- The state in which `execute` is called: `execcmd_exec` sets the flag where upstream forks. -/
def started (c : External) (s : ZState) : ZState :=
  if c.isExec || c.isTail then s else { s with nofork := true }

/-- `execcmd_exec` for an external command. -/
def execExternal (c : External) (handler : Option (ZState → ZState)) (s : ZState) : ZState :=
  let s1 := started c s
  -- the `err` label, with the flag as it is
  if c.redirFails then { s1 with lastval := 1 }
  else if c.assignFails then
    if s1.nofork then { s1 with nofork := false, lastval := 1 } else { s1 with exited := some 1 }
  else
    let s2 := execute c.search handler s1
    if s2.exited.isSome then s2 else { s2 with nofork := false }

mutual

/-- The state after a command. -/
def Run.exec : Run → ZState → ZState
  | .internal status, s => if s.exited.isSome then s else { s with lastval := status }
  | .quit status, s => if s.exited.isSome then s else { s with exited := some status }
  | .group body, s => body.exec s
  | .external c handled handler, s =>
    if s.exited.isSome then s
    else execExternal c (if handled then some fun t => handler.exec t else none) s

def Runs.exec : Runs → ZState → ZState
  | .nil, s => s
  | .cons r rest, s => rest.exec (r.exec s)

end

/-- The command is started in the state during the run of the commands, inside this many
external commands in progress. -/
inductive Started : Runs → ZState → ℕ → Run → ZState → Prop where
  | here {r rest s} : s.exited = none → Started (.cons r rest) s 0 r s
  | later {r rest s d q t} : Started rest (r.exec s) d q t → Started (.cons r rest) s d q t
  | inside {body rest s d q t} : Started body s d q t → Started (.cons (.group body) rest) s d q t
  | handling {c handler rest s s' d q t} : s.exited = none → c.redirFails = false →
      c.assignFails = false → search c.search (started c s) = .missing s' →
      Started handler s' d q t → Started (.cons (.external c true handler) rest) s (d + 1) q t

def Try.status : Try → Option ℕ
  | .spawned st => some st
  | .failed _ _ => none

/-- The status of the file that the host runs, if it runs one. -/
def Search.spawned (c : Search) : Option ℕ :=
  if c.restricted || c.tooLong then none
  else
    match c.slash with
    | none => c.alongPath.findSome? Try.status
    | some (.spawned st, _) => some st
    | some (.failed _ _, decides) => if decides then none else c.alongPath.findSome? Try.status

/-! ## Under the flag -/

/-- An external command is in progress. -/
def Going (s : ZState) : Prop := s.exited = none ∧ s.nofork = true ∧ s.spawnSt = none

/-- If the shell is there, no external command is in progress. -/
def Idle (s : ZState) : Prop := s.exited = none → s.nofork = false ∧ s.spawnSt = none

theorem attempt_going {s s' : ZState} {t : Try} (hs : Going s) (h : attempt t s = .error s') :
    Going s' ∧ ∃ st, t = .spawned st ∧ s'.lastval = st := by
  obtain ⟨halive, hflag, hst⟩ := hs
  cases t with
  | spawned st =>
    simp only [attempt, zexecve, hflag, if_true, halive, Option.isSome_none, Bool.false_eq_true,
      if_false, Except.error.injEq] at h
    exact ⟨by rw [← h]; exact ⟨rfl, rfl, rfl⟩, st, rfl, by rw [← h]⟩
  | failed errno good => simp [attempt, zexecve, hflag, halive, hst] at h

theorem attempt_failed {s : ZState} {t : Try} {err : Option (Errno × Bool)} (hs : Going s)
    (h : attempt t s = .ok err) : ∃ errno good, t = .failed errno good ∧ err = some (errno, good) := by
  obtain ⟨halive, hflag, hst⟩ := hs
  cases t with
  | spawned st => simp [attempt, zexecve, hflag, halive] at h
  | failed errno good =>
    simp only [attempt, zexecve, hflag, halive, hst, Option.isSome_none, Bool.false_eq_true,
      if_false, Except.ok.injEq] at h
    exact ⟨errno, good, rfl, h.symm⟩

/-- Files tried under the flag: the first one the host runs decides. -/
theorem attempts_going {ts : List Try} {eno : Option Errno} {s : ZState} (hs : Going s) :
    (∀ s', attempts ts eno s = .error s' → Going s' ∧ ts.findSome? Try.status = some s'.lastval) ∧
    (∀ eno', attempts ts eno s = .ok eno' → ts.findSome? Try.status = none) := by
  induction ts generalizing eno with
  | nil => exact ⟨fun s' h => by simp [attempts] at h, fun _ _ => rfl⟩
  | cons t ts ih =>
    cases hatt : attempt t s with
    | error s1 =>
      obtain ⟨hgoing, st, rfl, hlast⟩ := attempt_going hs hatt
      constructor
      · intro s' h
        obtain rfl : s1 = s' := by simpa [attempts, hatt] using h
        exact ⟨hgoing, by rw [hlast]; rfl⟩
      · intro eno' h
        simp [attempts, hatt] at h
    | ok err =>
      obtain ⟨errno, good, rfl, rfl⟩ := attempt_failed hs hatt
      have hskip : (Try.failed errno good :: ts).findSome? Try.status = ts.findSome? Try.status := rfl
      rw [hskip]
      cases good with
      | true =>
        simp only [attempts, hatt]
        exact ih
      | false =>
        simp only [attempts, hatt]
        exact ih

theorem osdExit_going {s : ZState} (hs : Going s) (n : ℕ) : Going (osdExit n s) := by
  obtain ⟨halive, hflag, hst⟩ := hs
  rw [osdExit, if_pos hflag]
  exact ⟨halive, hflag, hst⟩

/-- The search along the path under the flag. -/
theorem searchPath_going {c : Search} {s : ZState} (hs : Going s) :
    (∀ s', searchPath c s = .done s' → Going s' ∧
      ∀ st, c.alongPath.findSome? Try.status = some st → s'.lastval = st) ∧
    (∀ s', searchPath c s = .missing s' → s' = s ∧ c.alongPath.findSome? Try.status = none) := by
  obtain ⟨herr, hok⟩ := @attempts_going c.alongPath none s hs
  cases hatt : attempts c.alongPath none s with
  | error s1 =>
    obtain ⟨hgoing, hst⟩ := herr s1 hatt
    have heq : searchPath c s = .done s1 := by rw [searchPath, hatt]
    rw [heq]
    constructor
    · rintro s' ⟨⟩
      exact ⟨hgoing, fun st hst' => Option.some.inj (hst.symm.trans hst')⟩
    · rintro s' ⟨⟩
  | ok eno =>
    have hnone := hok eno hatt
    cases eno with
    | none =>
      have heq : searchPath c s = .missing s := by rw [searchPath, hatt]
      rw [heq]
      exact ⟨by rintro s' ⟨⟩, by rintro s' ⟨⟩; exact ⟨rfl, hnone⟩⟩
    | some errno =>
      have heq : searchPath c s = .done (osdExit errno.status s) := by rw [searchPath, hatt]
      rw [heq]
      constructor
      · rintro s' ⟨⟩
        exact ⟨osdExit_going hs _, fun st hst => by simp [hnone] at hst⟩
      · rintro s' ⟨⟩

/-- **The search under the flag** returns, with the status of a file that was run. -/
theorem search_going {c : Search} {s : ZState} (hs : Going s) :
    (∀ s', search c s = .done s' → Going s' ∧ ∀ st, c.spawned = some st → s'.lastval = st) ∧
    (∀ s', search c s = .missing s' → s' = s ∧ c.spawned = none) := by
  have hpath := @searchPath_going c s hs
  rw [search, Search.spawned]
  by_cases hno : c.restricted || c.tooLong
  · simp only [hno, if_true]
    exact ⟨by rintro s' ⟨⟩; exact ⟨osdExit_going hs 1, by simp⟩, by rintro s' ⟨⟩⟩
  · simp only [hno, Bool.false_eq_true, if_false]
    cases hslash : c.slash with
    | none => exact hpath
    | some td =>
      obtain ⟨t, decides⟩ := td
      cases hatt : attempt t s with
      | error s1 =>
        obtain ⟨hgoing, st, rfl, hlast⟩ := attempt_going hs hatt
        simp only [hatt]
        constructor
        · rintro s' ⟨⟩
          exact ⟨hgoing, fun st' hst' => hlast.trans (Option.some.inj hst')⟩
        · rintro s' ⟨⟩
      | ok err =>
        -- a path with a slash may still be looked up in `PATH`
        obtain ⟨errno, good, rfl, rfl⟩ := attempt_failed hs hatt
        simp only [hatt]
        cases decides with
        | true =>
          simp only [if_true]
          exact ⟨by rintro s' ⟨⟩; exact ⟨osdExit_going hs _, by simp⟩, by rintro s' ⟨⟩⟩
        | false =>
          simp only [Bool.false_eq_true, if_false]
          exact hpath

/-- `execute` returns under the flag, if the handler keeps it. -/
theorem execute_going {c : Search} {handler : Option (ZState → ZState)} {s : ZState} (hs : Going s)
    (hkeep : ∀ run, handler = some run → ∀ t, Going t → Going (run t)) :
    Going (execute c handler s) ∧
      ∀ st, c.spawned = some st → (execute c handler s).lastval = st := by
  obtain ⟨hdone, hmissing⟩ := @search_going c s hs
  rw [execute]
  cases hsearch : search c s with
  | done s' => exact hdone s' hsearch
  | missing s' =>
    obtain ⟨rfl, hnone⟩ := hmissing s' hsearch
    rw [hnone]
    cases handler with
    | none => exact ⟨osdExit_going hs 127, by simp⟩
    | some run =>
      have hrun := hkeep run rfl s' hs
      obtain ⟨halive, hflag, -⟩ := hrun
      simp only [halive, hflag, Option.isSome_none, Bool.false_eq_true, if_false, if_true]
      exact ⟨hkeep run rfl s' hs, by simp⟩

/-! ## Without the flag -/

theorem attempt_idle {s : ZState} (halive : s.exited = none) (hflag : s.nofork = false) (t : Try) :
    attempt t s = match t with
      | .spawned st => .error { s with exited := some st }
      | .failed errno good => .ok (some (errno, good)) := by
  cases t with
  | spawned st => simp [attempt, zexecve, hflag]
  | failed errno good => simp [attempt, zexecve, halive, hflag]

theorem attempts_idle {s : ZState} (halive : s.exited = none) (hflag : s.nofork = false)
    (ts : List Try) (eno : Option Errno) :
    (∀ st, ts.findSome? Try.status = some st →
      attempts ts eno s = .error { s with exited := some st }) ∧
    (ts.findSome? Try.status = none → ∃ eno', attempts ts eno s = .ok eno') := by
  induction ts generalizing eno with
  | nil => exact ⟨fun st h => by simp at h, fun _ => ⟨eno, rfl⟩⟩
  | cons t ts ih =>
    have hatt := attempt_idle halive hflag t
    cases t with
    | spawned st =>
      have hfirst : (Try.spawned st :: ts).findSome? Try.status = some st := rfl
      rw [hfirst]
      simp only [attempts, hatt]
      exact ⟨by rintro st' ⟨⟩; rfl, by rintro ⟨⟩⟩
    | failed errno good =>
      have hskip : (Try.failed errno good :: ts).findSome? Try.status = ts.findSome? Try.status := rfl
      rw [hskip]
      cases good with
      | true =>
        simp only [attempts, hatt]
        exact ih _
      | false =>
        simp only [attempts, hatt]
        exact ih _

theorem searchPath_idle {c : Search} {s : ZState} (halive : s.exited = none)
    (hflag : s.nofork = false) :
    (∀ st, c.alongPath.findSome? Try.status = some st →
      searchPath c s = .done { s with exited := some st }) ∧
    (c.alongPath.findSome? Try.status = none →
      searchPath c s = .missing s ∨ ∃ n, searchPath c s = .done { s with exited := some n }) := by
  obtain ⟨hsome, hnone⟩ := attempts_idle halive hflag c.alongPath none
  constructor
  · intro st hst
    rw [searchPath, hsome st hst]
  · intro h
    obtain ⟨eno, heno⟩ := hnone h
    rw [searchPath, heno]
    cases eno with
    | none => exact Or.inl rfl
    | some errno => exact Or.inr ⟨errno.status, by simp [osdExit, hflag]⟩

/-- **The search without the flag** ends the shell, or finds nothing. -/
theorem search_idle {c : Search} {s : ZState} (halive : s.exited = none) (hflag : s.nofork = false) :
    (∀ st, c.spawned = some st → search c s = .done { s with exited := some st }) ∧
    (c.spawned = none →
      search c s = .missing s ∨ ∃ n, search c s = .done { s with exited := some n }) := by
  have hpath := @searchPath_idle c s halive hflag
  -- without the flag `osd_exit` ends the process
  have hexit : ∀ n, osdExit n s = { s with exited := some n } := by
    intro n
    simp [osdExit, hflag]
  rw [search, Search.spawned]
  by_cases hno : c.restricted || c.tooLong
  · simp only [hno, if_true, hexit]
    exact ⟨by simp, fun _ => Or.inr ⟨1, rfl⟩⟩
  · simp only [hno, Bool.false_eq_true, if_false]
    cases hslash : c.slash with
    | none => exact hpath
    | some td =>
      obtain ⟨t, decides⟩ := td
      have hatt := attempt_idle halive hflag t
      cases t with
      | spawned st =>
        simp only [hatt]
        exact ⟨by rintro st' ⟨⟩; rfl, by rintro ⟨⟩⟩
      | failed errno good =>
        simp only [hatt]
        cases decides with
        | true =>
          simp only [if_true, hexit]
          exact ⟨by simp, fun _ => Or.inr ⟨_, rfl⟩⟩
        | false =>
          simp only [Bool.false_eq_true, if_false]
          exact hpath

/-! ## Runs that keep the flag -/

mutual

/-- Runs no external command, and does not end the shell. -/
def Run.Quiet : Run → Prop
  | .internal _ => True
  | .quit _ => False
  | .group body => body.Quiet
  | .external _ _ _ => False

def Runs.Quiet : Runs → Prop
  | .nil => True
  | .cons r rest => r.Quiet ∧ rest.Quiet

end

mutual

/-- No redirection of an external command without `exec` fails, none is the last command of a
shell that ends with it, and handlers are quiet. -/
def Run.Tame : Run → Prop
  | .internal _ => True
  | .quit _ => True
  | .group body => body.Tame
  | .external c handled handler =>
    (c.isExec = false → c.redirFails = false ∧ c.isTail = false) ∧ (handled = true → handler.Quiet)

def Runs.Tame : Runs → Prop
  | .nil => True
  | .cons r rest => r.Tame ∧ rest.Tame

end

mutual

/-- A quiet command sets `lastval` only. -/
theorem Run.exec_quiet : ∀ (r : Run) (s : ZState), r.Quiet → s.exited = none →
    ∃ n, r.exec s = { s with lastval := n }
  | .internal status, s, _, halive => ⟨status, by simp [Run.exec, halive]⟩
  | .quit _, _, hq, _ => hq.elim
  | .group body, s, hq, halive => by
    rw [Run.exec]
    exact Runs.exec_quiet body s hq halive
  | .external _ _ _, _, hq, _ => hq.elim

theorem Runs.exec_quiet : ∀ (rs : Runs) (s : ZState), rs.Quiet → s.exited = none →
    ∃ n, rs.exec s = { s with lastval := n }
  | .nil, s, _, _ => ⟨s.lastval, rfl⟩
  | .cons r rest, s, hq, halive => by
    obtain ⟨n, hn⟩ := Run.exec_quiet r s hq.1 halive
    obtain ⟨m, hm⟩ := Runs.exec_quiet rest { s with lastval := n } hq.2 halive
    exact ⟨m, by rw [Runs.exec, hn, hm]⟩

end

/-- A quiet handler. -/
def QuietHandler (handler : Option (ZState → ZState)) : Prop :=
  ∀ run, handler = some run → ∀ t : ZState, t.exited = none → ∃ n, run t = { t with lastval := n }

/-- **An external command without `exec`** under the flag: the shell survives, with the status of
the file in `lastval`, and the flag is cleared. -/
theorem execExternal_spawn {c : External} {handler : Option (ZState → ZState)} {s : ZState}
    (hquiet : QuietHandler handler) (hexec : c.isExec = false) (htail : c.isTail = false)
    (hredir : c.redirFails = false) (halive : s.exited = none) (hst : s.spawnSt = none) :
    (execExternal c handler s).exited = none ∧ (execExternal c handler s).nofork = false ∧
      (execExternal c handler s).spawnSt = none ∧
      (c.assignFails = false → ∀ st, c.search.spawned = some st →
        (execExternal c handler s).lastval = st) := by
  have hstart : started c s = { s with nofork := true } := by simp [started, hexec, htail]
  have hgoing : Going { s with nofork := true } := ⟨halive, rfl, hst⟩
  simp only [execExternal, hstart, hredir, Bool.false_eq_true, if_false]
  by_cases hassign : c.assignFails
  · simp only [hassign, if_true]
    exact ⟨halive, trivial, hst, by simp⟩
  · obtain ⟨⟨halive', hflag', hst'⟩, hlast⟩ := @execute_going c.search handler _ hgoing (by
      intro run hrun t ht
      obtain ⟨n, hn⟩ := hquiet run hrun t ht.1
      rw [hn]
      exact ht)
    simp only [hassign, Bool.false_eq_true, if_false, halive', Option.isSome_none]
    exact ⟨trivial, trivial, hst', fun _ => hlast⟩

/-- **`exec`** without the flag: the shell ends, unless a redirection fails. -/
theorem execExternal_exec {c : External} {handler : Option (ZState → ZState)} {s : ZState}
    (hquiet : QuietHandler handler) (hexec : c.isExec = true) (halive : s.exited = none)
    (hflag : s.nofork = false) (hst : s.spawnSt = none) :
    Idle (execExternal c handler s) ∧
      (c.redirFails = false → c.assignFails = false → ∀ st, c.search.spawned = some st →
        (execExternal c handler s).exited = some st) := by
  have hstart : started c s = s := by simp [started, hexec]
  simp only [execExternal, hstart]
  by_cases hredir : c.redirFails
  · simp only [hredir, if_true]
    exact ⟨fun _ => ⟨hflag, hst⟩, by simp⟩
  by_cases hassign : c.assignFails
  · simp only [hredir, hassign, hflag, if_true, Bool.false_eq_true, if_false]
    exact ⟨fun h => by simp at h, by simp⟩
  · simp only [hredir, hassign, Bool.false_eq_true, if_false]
    obtain ⟨hsome, hnone⟩ := @search_idle c.search s halive hflag
    -- whatever the search comes to, the process is gone at its end
    have hended : ∃ n, (execute c.search handler s).exited = some n ∧
        ∀ st, c.search.spawned = some st → n = st := by
      cases hspawn : c.search.spawned with
      | some st => exact ⟨st, by rw [execute, hsome st hspawn], fun st' h => Option.some.inj h⟩
      | none =>
        rcases hnone hspawn with hmiss | ⟨n, hdone⟩
        · rw [execute, hmiss]
          cases handler with
          | none => exact ⟨127, by simp [osdExit, hflag], by simp⟩
          | some run =>
            obtain ⟨n, hn⟩ := hquiet run rfl s halive
            exact ⟨n, by simp [hn, halive, hflag], by simp⟩
        · exact ⟨n, by rw [execute, hdone], by simp⟩
    obtain ⟨n, hn, hst'⟩ := hended
    simp only [hn, Option.isSome_some, if_true]
    exact ⟨fun h => by simp [hn] at h, fun _ _ st h => by rw [hst' st h]⟩

theorem quietHandler_of_quiet {handled : Bool} {handler : Runs} (h : handled = true → handler.Quiet) :
    QuietHandler (if handled then some fun t => handler.exec t else none) := by
  intro run hrun t ht
  cases handled with
  | false => simp at hrun
  | true =>
    obtain rfl := Option.some.inj hrun
    exact Runs.exec_quiet handler t (h rfl) ht

/-- One external command of a tame run. -/
theorem exec_external_tame {c : External} {handled : Bool} {handler : Runs} {s : ZState}
    (h : (Run.external c handled handler).Tame) (halive : s.exited = none)
    (hflag : s.nofork = false) (hst : s.spawnSt = none) :
    Idle ((Run.external c handled handler).exec s) ∧
      (c.isExec = false → ((Run.external c handled handler).exec s).exited = none ∧
        (c.assignFails = false → ∀ st, c.search.spawned = some st →
          ((Run.external c handled handler).exec s).lastval = st)) ∧
      (c.isExec = true → c.redirFails = false → c.assignFails = false →
        ∀ st, c.search.spawned = some st →
          ((Run.external c handled handler).exec s).exited = some st) := by
  have hquiet := quietHandler_of_quiet h.2
  simp only [Run.exec, halive, Option.isSome_none, Bool.false_eq_true, if_false]
  cases hexec : c.isExec with
  | false =>
    obtain ⟨hredir, htail⟩ := h.1 hexec
    obtain ⟨h1, h2, h3, h4⟩ := execExternal_spawn hquiet hexec htail hredir halive hst
    exact ⟨fun _ => ⟨h2, h3⟩, fun _ => ⟨h1, h4⟩, by simp⟩
  | true =>
    obtain ⟨h1, h2⟩ := execExternal_exec hquiet hexec halive hflag hst
    exact ⟨h1, by simp, fun _ => h2⟩

mutual

/-- Between the commands of a tame run no external command is in progress. -/
theorem Run.exec_idle : ∀ (r : Run) (s : ZState), r.Tame → Idle s → Idle (r.exec s)
  | .internal status, s, _, hs => by
    rw [Run.exec]
    split_ifs with h
    · exact hs
    · exact hs
  | .quit status, s, _, hs => by
    rw [Run.exec]
    split_ifs with h
    · exact hs
    · exact fun h => by simp at h
  | .group body, s, ht, hs => by
    rw [Run.exec]
    exact Runs.exec_idle body s ht hs
  | .external c handled handler, s, ht, hs => by
    cases hexited : s.exited with
    | none => exact (exec_external_tame ht hexited (hs hexited).1 (hs hexited).2).1
    | some n =>
      simp only [Run.exec, hexited, Option.isSome_some, if_true]
      exact hs

theorem Runs.exec_idle : ∀ (rs : Runs) (s : ZState), rs.Tame → Idle s → Idle (rs.exec s)
  | .nil, _, _, hs => hs
  | .cons r rest, s, ht, hs => by
    rw [Runs.exec]
    exact Runs.exec_idle rest _ ht.2 (Run.exec_idle r s ht.1 hs)

end

theorem quiet_of_started {rs : Runs} {s t : ZState} {d : ℕ} {q : Run} (h : Started rs s d q t)
    (hq : rs.Quiet) : q.Quiet := by
  induction h with
  | here _ => exact hq.1
  | later _ ih => exact ih hq.2
  | inside _ ih => exact ih hq.1
  | handling => exact hq.1.elim

/-- The flag is down whenever no external command is in progress, an external command without
`exec` leaves the shell alive with its status, and `exec` of a file that runs ends the shell with
that file's status. -/
def Disciplined (rs : Runs) (s : ZState) : Prop :=
  Idle (rs.exec s) ∧ ∀ d r t, Started rs s d r t →
    (d = 0 → t.nofork = false) ∧
    ∀ c handled handler, r = .external c handled handler →
      (c.isExec = false → (r.exec t).exited = none ∧
        (c.assignFails = false → ∀ st, c.search.spawned = some st → (r.exec t).lastval = st)) ∧
      (c.isExec = true → d = 0 → c.redirFails = false → c.assignFails = false →
        ∀ st, c.search.spawned = some st → (r.exec t).exited = some st)

/-- The shell between two commands. -/
def zInit : ZState := ⟨false, none, 0, none⟩

/-- The first file along the path runs, or there is none. -/
def foundWith (st : ℕ) : Search := ⟨false, false, none, none, [.failed .other false, .spawned st]⟩

def notFound : Search := ⟨false, false, none, none, [.failed .other false]⟩

def plainExternal (c : Search) : External := ⟨false, false, false, false, c⟩

/-- A command that is not found, and whose handler runs an external command. -/
def handledRuns : Runs :=
  .cons (.external (plainExternal notFound) true
    (.cons (.external (plainExternal (foundWith 0)) false .nil) .nil)) .nil

/-- A command with a failed redirection, and then `exec`. -/
def redirectedRuns : Runs :=
  .cons (.external { plainExternal (foundWith 0) with redirFails := true } false .nil)
    (.cons (.external { plainExternal (foundWith 4) with isExec := true } false .nil) .nil)

end OsMoap.Guest
