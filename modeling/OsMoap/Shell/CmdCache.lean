import OsMoap.Shell.CmdSearch
import Mathlib.Data.List.Forall2

/-!
# What the Command Hash Table Remembers

The table is not seen: a shell that forgets what it found before every lookup finds the same commands,
in any run of commands, changes of `PATH` and of the directory, and definitions of functions
(`cmdtable_unseen`).  Files that come and go leave it wrong; `hash -r` and an assignment to `PATH` set
it right.

An entry is `Remembered` when it is what a walk along `PATH` finds from some directory, which is the
present one unless the entry is marked.
-/

namespace OsMoap.Shell.Cmds

open OsMoap.Lib OsMoap.Pack

/-! ## What the table remembers -/

/-- What the table keeps in any case. -/
structure Kept (s : Session) : Prop where
  loc : s.builtinloc = bltin s.pathval.text
  named : ∀ {name e}, s.cmdtable.get name = some e → Named name e

/-- The entry is what is found from some directory, the present one unless it is marked. -/
structure Remembered (findApplet : Text → Option ℕ) (s : Session) (name : Text) (e : Tblentry) :
    Prop where
  named : Named name e
  found : isFunction e.cmd = false → ∃ cwd, (e.rehash = false → cwd = s.cwd) ∧
    resolve findApplet s.builtinloc (s.files.stat cwd) name false false s.pathval.text = some e.cmd

structure Sound (findApplet : Text → Option ℕ) (s : Session) : Prop where
  loc : s.builtinloc = bltin s.pathval.text
  entries : ∀ {name e}, s.cmdtable.get name = some e → Remembered findApplet s name e

section Meant

variable {findApplet : Text → Option ℕ} {s : Session} {name : Text} {act : Act}

theorem Sound.kept (h : Sound findApplet s) : Kept s :=
  ⟨h.loc, fun hget => (h.entries hget).named⟩

theorem findUncached_fst (altpath updatetbl : Bool) (text : Text) :
    (findUncached findApplet s name act altpath text updatetbl none).1 =
      resolve findApplet s.builtinloc s.stat name act.regbltin altpath text := by
  simp only [findUncached, resolve, prevOf]
  cases (findBuiltin name).filter (beforePath s.builtinloc altpath) with
  | some b => rfl
  | none =>
    by_cases hreg : act.regbltin = true
    · simp only [if_pos hreg]
    · simp only [if_neg hreg]
      cases findApplet name with
      | some applet => rfl
      | none =>
        cases searchexec s.stat (findBuiltin name) (-1) (pathWalk text name) (-1) with
        | builtin b => rfl
        | found idx => rfl
        | unchanged => rfl
        | missing => rfl

/-- Where an entry was found on `PATH`, its `prev` says so. -/
theorem Remembered.foundBefore {e : Tblentry} (hloc : s.builtinloc = bltin s.pathval.text)
    (he : Remembered findApplet s name e) (hrehash : e.rehash = true)
    (hbefore : (findBuiltin name).filter (beforePath s.builtinloc false) = none)
    (happlet : findApplet name = none) :
    ∃ cwd r, searchexec (s.files.stat cwd) (findBuiltin name) (-1) (pathWalk s.pathval.text name)
        (-1) = r ∧ FoundBefore (prevOf s (some e)) (pathWalk s.pathval.text name) (-1) r ∧
      ∀ idx, r = .found idx → e.cmd = .normal idx := by
  -- `hashcd` does not mark functions
  obtain ⟨cwd, -, hfound⟩ := he.found (isFunction_of_rehash he.named hrehash)
  obtain ⟨cmd, rehash⟩ := e
  subst hrehash
  simp only [resolve, hbefore, happlet, Bool.false_eq_true, if_false] at hfound
  cases hsearch : searchexec (s.files.stat cwd) (findBuiltin name) (-1)
      (pathWalk s.pathval.text name) (-1) with
  | missing =>
    rw [hsearch] at hfound
    cases hfound
  | unchanged =>
    rw [hsearch] at hfound
    cases hfound
  | found idx =>
    rw [hsearch] at hfound
    cases hfound
    refine ⟨cwd, _, hsearch, .found, ?_⟩
    rintro i hi
    cases hi
    rfl
  | builtin b =>
    rw [hsearch] at hfound
    cases hfound
    have hb := searchexec_builtin hsearch
    -- it was not found before `PATH`, so `%builtin` is in `PATH`
    have hpos : 0 < bltin s.pathval.text := by
      rw [Option.filter_eq_none_iff] at hbefore
      have := hbefore b hb
      simp only [beforePath, Bool.or_eq_true, decide_eq_true_eq, not_or] at this
      rw [hloc] at this
      omega
    obtain ⟨before, a, after, hwalk, ha, hlen⟩ := bltin_spec hpos name
    refine ⟨cwd, _, hsearch, .builtin b before a after hwalk ha ?_, ?_⟩
    · rw [prevOf, hloc, hlen]
      omega
    · intro i hi
      cases hi

theorem findUncached_fst_marked {e : Tblentry} (hloc : s.builtinloc = bltin s.pathval.text)
    (he : Remembered findApplet s name e) (hrehash : e.rehash = true) (updatetbl : Bool) :
    (findUncached findApplet s name act false s.pathval.text updatetbl (some e)).1 =
      resolve findApplet s.builtinloc s.stat name act.regbltin false s.pathval.text := by
  simp only [findUncached, resolve]
  cases hbefore : (findBuiltin name).filter (beforePath s.builtinloc false) with
  | some b => rfl
  | none =>
    by_cases hreg : act.regbltin = true
    · simp only [if_pos hreg]
    · simp only [if_neg hreg]
      cases happlet : findApplet name with
      | some applet => rfl
      | none =>
        -- the walk that made the entry, from the directory of that time
        obtain ⟨cwd, r, hr, hprev, hcmd⟩ := he.foundBefore hloc hrehash hbefore happlet
        have habs : ∀ file : Text, file.head? = some '/' → s.stat file = s.files.stat cwd file :=
          fun file hfile => s.files.absolute hfile s.cwd cwd
        rcases searchexec_again habs (le_refl _) hr hprev with heq | ⟨hun, hfresh, hfound⟩
        · simp only [heq]
          cases hsearch : searchexec s.stat (findBuiltin name) (-1) (pathWalk s.pathval.text name)
              (-1) with
          | builtin b => rfl
          | found idx => rfl
          | unchanged => exact absurd hsearch (searchexec_ne_unchanged (le_refl _) _)
          | missing => rfl
        · simp only [hun, hfresh, success, hcmd _ hfound]

/-- A name without a regular builtin has none in what it means. -/
theorem isRegular_resolve {builtinloc : ℤ} {stat : Text → Option Bool} {text : Text}
    {regbltin altpath : Bool} (h : ∀ b, findBuiltin name = some b → b.regular = false) :
    isRegular (resolve findApplet builtinloc stat name regbltin altpath text) = false := by
  cases hr : resolve findApplet builtinloc stat name regbltin altpath text with
  | none => rfl
  | some cmd =>
    cases cmd with
    | normal idx => rfl
    | function f => rfl
    | builtin b => exact h b (resolve_builtin hr)

theorem Remembered.not_regular {e : Tblentry} (he : Remembered findApplet s name e)
    (hreg : act.refusesRegbltin e.cmd = true) (b : Builtincmd) (hb : findBuiltin name = some b) :
    b.regular = false := by
  cases hcmd : e.cmd with
  | function f =>
    rw [hcmd] at hreg
    cases hreg
  | builtin b' =>
    have hname := he.named.builtin b' hcmd
    rw [hb, Option.some.injEq] at hname
    subst hname
    rw [hcmd] at hreg
    simp only [Act.refusesRegbltin, Bool.and_eq_true, Bool.not_eq_true'] at hreg
    exact hreg.1
  | normal idx =>
    -- a regular builtin would have been found before `PATH`
    obtain ⟨cwd, -, hfound⟩ := he.found (hcmd ▸ rfl)
    rw [hcmd] at hfound
    have hbefore := filter_of_resolve_normal hfound
    rw [Option.filter_eq_none_iff] at hbefore
    have := hbefore b hb
    simp only [beforePath, Bool.or_eq_true, not_or] at this
    simpa using this.1.1

theorem meaning_of_functionOf_none {path : Option Text} (hname : '/' ∉ name)
    (h : functionOf s name = none) :
    meaning findApplet s name act path =
      resolve findApplet s.builtinloc s.stat name act.regbltin path.isSome
        (path.getD s.pathval.text) := by
  rw [meaning, if_neg hname, h]
  rfl

/-- An entry that is not marked and will do is what the name means. -/
theorem Remembered.meaning_eq {e : Tblentry} {path : Option Text} (hname : '/' ∉ name)
    (hget : s.cmdtable.get name = some e) (he : Remembered findApplet s name e)
    (hrefuses : act.refuses path.isSome e.cmd = false) (hrehash : e.rehash = false) :
    meaning findApplet s name act path = some e.cmd := by
  cases hcmd : e.cmd with
  | function f =>
    have hfun : functionOf s name = some f := by
      rw [functionOf, hget]
      obtain ⟨cmd, rehash⟩ := e
      cases hcmd
      rfl
    have hnofunc : act.nofunc = false := by
      rwa [hcmd] at hrefuses
    rw [meaning, if_neg hname, hfun, hnofunc]
    rfl
  | normal idx =>
    have hfun : isFunction e.cmd = false := hcmd ▸ rfl
    obtain ⟨cwd, hcwd, hfound⟩ := he.found hfun
    rw [hcmd, Act.refuses, Bool.or_eq_false_iff] at hrefuses
    rw [meaning_of_functionOf_none hname (functionOf_eq_none hget hfun)]
    cases path with
    | some p => exact absurd hrefuses.1 (by simp)
    | none =>
      rw [hcwd hrehash, hcmd] at hfound
      rw [hrefuses.2]
      exact hfound
  | builtin b =>
    have hfun : isFunction e.cmd = false := hcmd ▸ rfl
    obtain ⟨cwd, hcwd, hfound⟩ := he.found hfun
    have hb := he.named.builtin b hcmd
    rw [meaning_of_functionOf_none hname (functionOf_eq_none hget hfun)]
    by_cases hbefore : beforePath s.builtinloc path.isSome b = true
    · exact resolve_of_beforePath hb hbefore
    · -- a builtin that stands on `PATH`
      simp only [beforePath, Bool.or_eq_true, not_or, Bool.not_eq_true] at hbefore
      rw [hcmd, Act.refuses, hbefore.1.1] at hrefuses
      cases path with
      | some p => exact absurd hbefore.1.2 (by simp)
      | none =>
        rw [hcwd hrehash, hcmd] at hfound
        have hreg : act.regbltin = false := by simpa using hrefuses
        rw [hreg]
        exact hfound

/-- What a lookup returns; an entry may be refused that is not a regular builtin. -/
theorem findCommand_fst (hs : Sound findApplet s) (name : Text) (act : Act)
    (path : Option Text) :
    (findCommand findApplet s name act path).1 = meaning findApplet s name act path ∨
      act.regbltin = true ∧ (findCommand findApplet s name act path).1 = none ∧
        isRegular (meaning findApplet s name act path) = false := by
  rw [findCommand]
  by_cases hname : '/' ∈ name
  · left
    rw [if_pos hname, meaning, if_pos hname]
  · rw [if_neg hname]
    cases hget : s.cmdtable.get name with
    | none =>
      left
      rw [meaning_of_functionOf_none hname (functionOf_of_get_none hget)]
      exact findUncached_fst _ _ _
    | some e =>
      have he := hs.entries hget
      simp only
      cases hrefuses : act.refuses path.isSome e.cmd with
      | true =>
        rw [if_pos rfl]
        by_cases hreg : act.refusesRegbltin e.cmd = true
        · -- the first lookup of `evalcommand`, which asks for regular builtins only
          right
          rw [if_pos hreg]
          have hfun : isFunction e.cmd = false ∧ act.regbltin = true := by
            cases hcmd : e.cmd with
            | function f =>
              rw [hcmd] at hreg
              cases hreg
            | normal idx =>
              rw [hcmd] at hreg
              exact ⟨rfl, hreg⟩
            | builtin b =>
              rw [hcmd] at hreg
              simp only [Act.refusesRegbltin, Bool.and_eq_true] at hreg
              exact ⟨rfl, hreg.2⟩
          refine ⟨hfun.2, rfl, ?_⟩
          rw [meaning_of_functionOf_none hname (functionOf_eq_none hget hfun.1)]
          exact isRegular_resolve (he.not_regular hreg)
        · left
          rw [if_neg hreg, findUncached_fst]
          -- a function that will not do, or a program of another path
          have hnone : (functionOf s name).filter (fun _ => !act.nofunc) = none := by
            cases hcmd : e.cmd with
            | function f =>
              rw [hcmd, Act.refuses] at hrefuses
              simp [hrefuses]
            | normal idx =>
              rw [functionOf_eq_none hget (hcmd ▸ rfl)]
              rfl
            | builtin b =>
              rw [functionOf_eq_none hget (hcmd ▸ rfl)]
              rfl
          rw [meaning, if_neg hname, hnone]
      | false =>
        left
        rw [if_neg Bool.false_ne_true]
        by_cases hrehash : e.rehash = true
        · rw [if_pos hrehash]
          have hfun := isFunction_of_rehash he.named hrehash
          rw [meaning_of_functionOf_none hname (functionOf_eq_none hget hfun)]
          cases path with
          | none => exact findUncached_fst_marked hs.loc he hrehash _
          | some p =>
            -- on another path the entry of a program is refused
            cases hcmd : e.cmd with
            | normal idx =>
              rw [hcmd] at hrefuses
              cases hrefuses
            | function f =>
              rw [hcmd] at hfun
              cases hfun
            | builtin b =>
              have hb : (findBuiltin name).filter (beforePath s.builtinloc true) = some b := by
                refine Option.filter_eq_some_iff.2 ⟨he.named.builtin b hcmd, ?_⟩
                simp [beforePath]
              simp only [findUncached, resolve, Option.isSome_some, hb]
              rfl
        · rw [if_neg hrehash]
          exact (he.meaning_eq hname hget hrefuses (by simpa using hrehash)).symm

end Meant

/-! ## What a session keeps -/

section Session

variable {findApplet : Text → Option ℕ} {s : Session}

/-- `s'` differs from `s` in what is remembered only. -/
structure Unseen (s s' : Session) : Prop where
  builtinloc : s'.builtinloc = s.builtinloc
  pathval : s'.pathval = s.pathval
  cwd : s'.cwd = s.cwd
  files : s'.files = s.files
  pending : s'.pending = s.pending
  functions : ∀ name, functionOf s' name = functionOf s name

theorem Unseen.refl (s : Session) : Unseen s s := ⟨rfl, rfl, rfl, rfl, rfl, fun _ => rfl⟩

theorem functionOf_congr {s t : Session} {name : Text}
    (h : s.cmdtable.get name = t.cmdtable.get name) : functionOf s name = functionOf t name := by
  rw [functionOf, functionOf, h]

theorem Looked.unseen {name : Text} {path : Option Text} {r : Option Cmd × Session}
    (h : Looked s name path r) : Unseen s r.2 := by
  cases h with
  | same found => exact .refl s
  | added cmd hfunction hnamed hname hpath hs =>
    refine ⟨rfl, rfl, rfl, rfl, rfl, fun j => ?_⟩
    by_cases hj : j = name
    · subst hj
      rw [hs]
      have hget : (addcmdentry s j cmd).cmdtable.get j = some ⟨cmd, false⟩ :=
        (Buckets.get_put ..).trans (if_pos rfl)
      exact functionOf_eq_none hget hfunction
    · exact functionOf_congr ((Buckets.get_put ..).trans (if_neg hj))
  | deleted hs =>
    refine ⟨rfl, rfl, rfl, rfl, rfl, fun j => ?_⟩
    by_cases hj : j = name
    · subst hj
      rw [hs]
      exact functionOf_of_get_none ((Buckets.get_unlink ..).trans (if_pos rfl))
    · exact functionOf_congr ((Buckets.get_unlink ..).trans (if_neg hj))

/-- An entry of a table with one more entry is that entry or was there before. -/
theorem get_addcmdentry {name j : Text} {cmd : Cmd} {e : Tblentry}
    (h : (addcmdentry s name cmd).cmdtable.get j = some e) :
    j = name ∧ e = ⟨cmd, false⟩ ∨ s.cmdtable.get j = some e := by
  rw [addcmdentry, Buckets.get_put] at h
  by_cases hj : j = name
  · rw [if_pos hj] at h
    exact .inl ⟨hj, (Option.some.inj h).symm⟩
  · rw [if_neg hj] at h
    exact .inr h

theorem get_deleteCmdEntry {name j : Text} {e : Tblentry}
    (h : (deleteCmdEntry s name).cmdtable.get j = some e) : s.cmdtable.get j = some e := by
  rw [deleteCmdEntry, Buckets.get_unlink] at h
  by_cases hj : j = name
  · rw [if_pos hj] at h
    cases h
  · rwa [if_neg hj] at h

theorem Kept.delete (hs : Kept s) (name : Text) : Kept (deleteCmdEntry s name) :=
  ⟨hs.loc, fun hget => hs.named (get_deleteCmdEntry hget)⟩

theorem Sound.delete (hs : Sound findApplet s) (name : Text) :
    Sound findApplet (deleteCmdEntry s name) where
  loc := hs.loc
  entries := fun hget =>
    have he := hs.entries (get_deleteCmdEntry hget)
    ⟨he.named, he.found⟩

theorem Kept.findCommand (hs : Kept s) (name : Text) (act : Act) (path : Option Text) :
    Kept (findCommand findApplet s name act path).2 := by
  have hl : Looked s name path (Cmds.findCommand findApplet s name act path) :=
    findCommand_looked (fun _ he => hs.named he) act path
  generalize Cmds.findCommand findApplet s name act path = r at hl
  cases hl with
  | same found => exact hs
  | added cmd hfunction hnamed hname hpath hfun =>
    refine ⟨hs.loc, fun hget => ?_⟩
    rcases get_addcmdentry hget with ⟨rfl, rfl⟩ | hget
    · exact hnamed
    · exact hs.named hget
  | deleted hfun => exact hs.delete name

/-- **A lookup keeps the table sound**: what it adds is what is found from the present directory. -/
theorem Sound.findCommand (hs : Sound findApplet s) (name : Text) (act : Act)
    (path : Option Text) : Sound findApplet (findCommand findApplet s name act path).2 := by
  have hl : Looked s name path (Cmds.findCommand findApplet s name act path) :=
    findCommand_looked (fun _ he => hs.kept.named he) act path
  have hf := findCommand_fst hs name act path
  generalize Cmds.findCommand findApplet s name act path = r at hl hf
  cases hl with
  | same found => exact hs
  | added cmd hfunction hnamed hname hpath hfun =>
    refine ⟨hs.loc, fun hget => ?_⟩
    rcases get_addcmdentry hget with ⟨rfl, rfl⟩ | hget
    · refine ⟨hnamed, fun _ => ⟨s.cwd, fun _ => rfl, ?_⟩⟩
      rcases hf with hf | ⟨-, hf, -⟩
      · rw [meaning_of_functionOf_none hname hfun] at hf
        subst hpath
        exact resolve_of_regbltin hf.symm
      · cases hf
    · have he := hs.entries hget
      exact ⟨he.named, he.found⟩
  | deleted hfun => exact hs.delete name

/-- What does not depend on `PATH` is found from everywhere. -/
theorem remembered_of_not_onPath {name : Text} {e : Tblentry} (hnamed : Named name e)
    (hpath : onPath s.builtinloc e.cmd = false) : Remembered findApplet s name e := by
  refine ⟨hnamed, fun hfun => ⟨s.cwd, fun _ => rfl, ?_⟩⟩
  cases hcmd : e.cmd with
  | function f =>
    rw [hcmd] at hfun
    cases hfun
  | normal idx =>
    rw [hcmd] at hpath
    cases hpath
  | builtin b =>
    apply resolve_of_beforePath (hnamed.builtin b hcmd)
    rw [hcmd] at hpath
    simp only [onPath, Bool.and_eq_false_iff, Bool.not_eq_false', decide_eq_false_iff_not] at hpath
    simp only [beforePath, Bool.or_eq_true, decide_eq_true_eq]
    rcases hpath with hpath | hpath
    · exact .inl (.inl hpath)
    · exact .inr (by omega)

/-- `clearcmdentry` leaves entries that do not depend on `PATH`. -/
theorem get_clearcmdentry {name : Text} {e : Tblentry}
    (h : (clearcmdentry s).cmdtable.get name = some e) :
    s.cmdtable.get name = some e ∧ onPath s.builtinloc e.cmd = false := by
  rw [clearcmdentry, Buckets.get_keep, Option.filter_eq_some_iff] at h
  exact ⟨h.1, by simpa using h.2⟩

theorem Kept.clearcmdentry (hs : Kept s) : Sound findApplet (clearcmdentry s) :=
  ⟨hs.loc, fun hget =>
    have h := get_clearcmdentry hget
    remembered_of_not_onPath (hs.named h.1) h.2⟩

theorem Kept.setPath (hs : Kept s) (path : SearchPath) : Sound findApplet (setPath s path) :=
  ⟨rfl, fun hget =>
    have h := get_clearcmdentry hget
    remembered_of_not_onPath (hs.named h.1) h.2⟩

theorem Named.mark {name : Text} {e : Tblentry} (h : Named name e) (hfun : isFunction e.cmd = false) :
    Named name { e with rehash := true } where
  function := fun h' => by
    rw [hfun] at h'
    cases h'
  builtin := h.builtin

theorem isFunction_of_onPath {builtinloc : ℤ} {cmd : Cmd} (h : onPath builtinloc cmd = true) :
    isFunction cmd = false := by
  cases cmd with
  | function f => cases h
  | normal idx => rfl
  | builtin b => rfl

/-- An entry after `hashcd`: marked, if it depends on `PATH`. -/
theorem get_hashcd {name : Text} {e : Tblentry} (h : (hashcd s).cmdtable.get name = some e) :
    ∃ e₀, s.cmdtable.get name = some e₀ ∧
      (onPath s.builtinloc e₀.cmd = true ∧ e = { e₀ with rehash := true } ∨
        onPath s.builtinloc e₀.cmd = false ∧ e = e₀) := by
  rw [hashcd, Buckets.get_mark, Option.map_eq_some_iff] at h
  obtain ⟨e₀, hget, rfl⟩ := h
  refine ⟨e₀, hget, ?_⟩
  cases hpath : onPath s.builtinloc e₀.cmd with
  | true => exact .inl ⟨rfl, if_pos rfl⟩
  | false => exact .inr ⟨rfl, if_neg Bool.false_ne_true⟩

theorem Kept.cd (hs : Kept s) (cwd : Text) : Kept { hashcd s with cwd := cwd } := by
  refine ⟨hs.loc, fun hget => ?_⟩
  obtain ⟨e₀, hget₀, ⟨hpath, rfl⟩ | ⟨-, rfl⟩⟩ := get_hashcd hget
  · exact (hs.named hget₀).mark (isFunction_of_onPath hpath)
  · exact hs.named hget₀

/-- **A change of the directory keeps the table sound**: what is marked was found from another one. -/
theorem Sound.cd (hs : Sound findApplet s) (cwd : Text) :
    Sound findApplet { hashcd s with cwd := cwd } := by
  refine ⟨hs.loc, fun hget => ?_⟩
  obtain ⟨e₀, hget₀, ⟨hpath, rfl⟩ | ⟨hpath, rfl⟩⟩ := get_hashcd hget
  · have he := hs.entries hget₀
    have hfun := isFunction_of_onPath hpath
    refine ⟨he.named.mark hfun, fun _ => ?_⟩
    -- a mark lets the entry be from any directory
    obtain ⟨cwd', -, hfound⟩ := he.found hfun
    exact ⟨cwd', fun h => Bool.noConfusion h, hfound⟩
  · have he := hs.entries hget₀
    exact remembered_of_not_onPath he.named hpath

theorem Kept.defun (hs : Kept s) (name : Text) (func : ℕ) :
    Kept (addcmdentry s name (.function func)) := by
  refine ⟨hs.loc, fun hget => ?_⟩
  rcases get_addcmdentry hget with ⟨rfl, rfl⟩ | hget
  · exact ⟨fun _ => rfl, fun _ h => by cases h⟩
  · exact hs.named hget

theorem Sound.defun (hs : Sound findApplet s) (name : Text) (func : ℕ) :
    Sound findApplet (addcmdentry s name (.function func)) := by
  refine ⟨hs.loc, fun hget => ?_⟩
  rcases get_addcmdentry hget with ⟨rfl, rfl⟩ | hget
  · exact ⟨⟨fun _ => rfl, fun _ h => by cases h⟩, fun h => by cases h⟩
  · have he := hs.entries hget
    exact ⟨he.named, he.found⟩

end Session

/-! ## Two tables -/

/-- Two calls of `evalcommand` between their lookups that go on alike. -/
structure Alike (p q : Pending) : Prop where
  nofunc : p.nofunc = q.nofunc
  path : p.path = q.path
  argv : p.argv = q.argv
  cmdentry : p.cmdentry = q.cmdentry ∨ isRegular p.cmdentry = false ∧ isRegular q.cmdentry = false

/-- Two shells that differ in what they remember, and remember nothing wrong. -/
structure Agree (findApplet : Text → Option ℕ) (s t : Session) : Prop where
  left : Sound findApplet s
  right : Sound findApplet t
  builtinloc : s.builtinloc = t.builtinloc
  pathval : s.pathval = t.pathval
  cwd : s.cwd = t.cwd
  files : s.files = t.files
  functions : ∀ name, functionOf s name = functionOf t name
  pending : List.Forall₂ Alike s.pending t.pending

section Agreement

variable {findApplet : Text → Option ℕ} {s t : Session}

theorem alike_refl (p : Pending) : Alike p p := ⟨rfl, rfl, rfl, .inl rfl⟩

theorem agree_refl (hs : Sound findApplet s) : Agree findApplet s s :=
  ⟨hs, hs, rfl, rfl, rfl, rfl, fun _ => rfl, List.forall₂_same.2 fun p _ => alike_refl p⟩

/-- What a name means is not about what is remembered. -/
theorem Agree.meaning (h : Agree findApplet s t) (name : Text) (act : Act) (path : Option Text) :
    meaning findApplet s name act path = meaning findApplet t name act path := by
  have hstat : s.stat = t.stat := by
    funext file
    rw [Session.stat, Session.stat, h.files, h.cwd]
  rw [Cmds.meaning, Cmds.meaning, hstat, h.functions, h.builtinloc, h.pathval]

theorem Agree.of_unseen {s' t' : Session} (h : Agree findApplet s t) (hs : Unseen s s')
    (ht : Unseen t t') (hs' : Sound findApplet s') (ht' : Sound findApplet t') :
    Agree findApplet s' t' where
  left := hs'
  right := ht'
  builtinloc := by rw [hs.builtinloc, ht.builtinloc, h.builtinloc]
  pathval := by rw [hs.pathval, ht.pathval, h.pathval]
  cwd := by rw [hs.cwd, ht.cwd, h.cwd]
  files := by rw [hs.files, ht.files, h.files]
  functions := fun name => by rw [hs.functions, ht.functions, h.functions]
  pending := by
    rw [hs.pending, ht.pending]
    exact h.pending

theorem Agree.lookup (h : Agree findApplet s t) (name : Text) (act : Act) (path : Option Text) :
    Agree findApplet (findCommand findApplet s name act path).2
      (findCommand findApplet t name act path).2 := by
  have hs : Looked s name path (findCommand findApplet s name act path) :=
    findCommand_looked (fun _ he => h.left.kept.named he) act path
  have ht : Looked t name path (findCommand findApplet t name act path) :=
    findCommand_looked (fun _ he => h.right.kept.named he) act path
  exact h.of_unseen hs.unseen ht.unseen (h.left.findCommand name act path)
    (h.right.findCommand name act path)

/-- A lookup finds the same with either table, or, with `DO_REGBLTIN`, nothing that counts. -/
theorem Agree.found (h : Agree findApplet s t) (name : Text) (act : Act) (path : Option Text) :
    (findCommand findApplet s name act path).1 = (findCommand findApplet t name act path).1 ∨
      act.regbltin = true ∧ isRegular (findCommand findApplet s name act path).1 = false ∧
        isRegular (findCommand findApplet t name act path).1 = false := by
  have hmeaning := h.meaning name act path
  rcases findCommand_fst h.left name act path with hs | ⟨hreg, hs, hirr⟩
  · rcases findCommand_fst h.right name act path with ht | ⟨hreg, ht, hirr⟩
    · exact .inl (by rw [hs, ht, hmeaning])
    · rw [hs, ht, hmeaning]
      exact .inr ⟨hreg, hirr, rfl⟩
  · right
    refine ⟨hreg, hs ▸ rfl, ?_⟩
    rcases findCommand_fst h.right name act path with ht | ⟨-, ht, -⟩
    · rw [ht, ← hmeaning]
      exact hirr
    · rw [ht]
      rfl

theorem Agree.found_eq (h : Agree findApplet s t) (name : Text) {act : Act}
    (hact : act.regbltin = false) (path : Option Text) :
    (findCommand findApplet s name act path).1 = (findCommand findApplet t name act path).1 := by
  rcases h.found name act path with heq | ⟨hreg, -⟩
  · exact heq
  · rw [hact] at hreg
    cases hreg

/-- The loop over the words in front of a command. -/
theorem Agree.firstLookups (fuel : ℕ) {p q : Pending} (h : Agree findApplet s t)
    (hp : Alike p q) :
    Agree findApplet (firstLookups findApplet fuel s p).1 (firstLookups findApplet fuel t q).1 ∧
      Alike (firstLookups findApplet fuel s p).2 (firstLookups findApplet fuel t q).2 := by
  induction fuel generalizing s t p q with
  | zero => exact ⟨h, hp⟩
  | succ fuel ih =>
    obtain ⟨pentry, pnofunc, ppath, pargv⟩ := p
    obtain ⟨qentry, qnofunc, qpath, qargv⟩ := q
    obtain ⟨hnofunc, hpath, hargv, hentry⟩ := hp
    simp only at hnofunc hpath hargv hentry
    subst hnofunc hpath hargv
    cases pargv with
    | nil => exact ⟨h, rfl, rfl, rfl, .inl rfl⟩
    | cons name words =>
      let act : Act := { nofunc := pnofunc, regbltin := true }
      have hlook := h.lookup name act none
      have hfound := h.found name act none
      simp only [Cmds.firstLookups]
      rcases hfound with heq | ⟨-, hs, ht⟩
      · rw [heq]
        by_cases hcmd : (findCommand findApplet t name act none).1 = some (.builtin commandcmd)
        · -- `command`: on to the word it is to run
          rw [if_pos hcmd, if_pos hcmd]
          cases (parseCommandArgs words).2 with
          | none => exact ⟨hlook, rfl, rfl, rfl, .inl rfl⟩
          | some argv => exact ih hlook ⟨rfl, rfl, rfl, .inl rfl⟩
        · rw [if_neg hcmd, if_neg hcmd]
          exact ⟨hlook, rfl, rfl, rfl, .inl rfl⟩
      · -- `command` is a regular builtin, so neither has found it
        have hne : ∀ {cmdentry : Option Cmd}, isRegular cmdentry = false →
            cmdentry ≠ some (.builtin commandcmd) := by
          rintro cmdentry hirr rfl
          cases hirr
        rw [if_neg (hne hs), if_neg (hne ht)]
        exact ⟨hlook, rfl, rfl, rfl, .inr ⟨hs, ht⟩⟩

theorem Agree.locate {p q : Pending} (h : Agree findApplet s t) (hp : Alike p q) :
    (locate findApplet s p).1 = (locate findApplet t q).1 ∧
      Agree findApplet (locate findApplet s p).2 (locate findApplet t q).2 := by
  have hregular : isRegular p.cmdentry = isRegular q.cmdentry := by
    rcases hp.cmdentry with heq | ⟨hs, ht⟩
    · rw [heq]
    · rw [hs, ht]
  rw [Cmds.locate, Cmds.locate, hregular, hp.argv, hp.nofunc, hp.path]
  by_cases hq : isRegular q.cmdentry = true
  · rw [if_pos hq, if_pos hq]
    -- the first answer counts where it is a regular builtin, and there it is the same
    rcases hp.cmdentry with heq | ⟨-, ht⟩
    · exact ⟨heq, h⟩
    · rw [ht] at hq
      cases hq
  · rw [if_neg hq, if_neg hq]
    exact ⟨h.found_eq _ rfl _, h.lookup _ _ _⟩

end Agreement

/-! ## Runs -/

/-- Nothing happens behind the shell's back. -/
def Event.inside : Event → Bool
  | .outside _ _ => false
  | _ => true

/-- `hash -r`, or an assignment to `PATH`. -/
def Event.clears : Event → Bool
  | .hashr => true
  | .setPath _ => true
  | _ => false

section Runs

variable {findApplet : Text → Option ℕ} {s t : Session}

theorem functionOf_clearcmdentry (s : Session) (name : Text) :
    functionOf (clearcmdentry s) name = functionOf s name := by
  rw [functionOf, functionOf, clearcmdentry, Buckets.get_keep]
  cases s.cmdtable.get name with
  | none => rfl
  | some e =>
    obtain ⟨cmd, rehash⟩ := e
    cases cmd with
    | function f => rfl
    | normal idx => rfl
    | builtin b =>
      simp only [Option.filter_some]
      split_ifs
      · rfl
      · rfl

theorem functionOf_hashcd (s : Session) (name : Text) :
    functionOf (hashcd s) name = functionOf s name := by
  rw [functionOf, functionOf, hashcd, Buckets.get_mark]
  cases s.cmdtable.get name with
  | none => rfl
  | some e =>
    obtain ⟨cmd, rehash⟩ := e
    cases cmd with
    | function f => rfl
    | normal idx => rfl
    | builtin b =>
      simp only [Option.map_some]
      split_ifs
      · rfl
      · rfl

theorem functionOf_forget (s : Session) (name : Text) :
    functionOf (forget s) name = functionOf s name := by
  rw [functionOf, functionOf, forget, Buckets.get_keep]
  cases s.cmdtable.get name with
  | none => rfl
  | some e =>
    obtain ⟨cmd, rehash⟩ := e
    cases cmd with
    | function f => rfl
    | normal idx => rfl
    | builtin b => rfl

theorem functionOf_defun (s : Session) (name : Text) (func : ℕ) (j : Text) :
    functionOf (addcmdentry s name (.function func)) j =
      if j = name then some func else functionOf s j := by
  by_cases hj : j = name
  · rw [if_pos hj, functionOf, addcmdentry, Buckets.get_put, if_pos hj]
  · rw [if_neg hj]
    exact functionOf_congr ((Buckets.get_put ..).trans (if_neg hj))

theorem functionOf_unsetfunc (s : Session) (name j : Text) :
    functionOf (unsetfunc s name) j = if j = name then none else functionOf s j := by
  by_cases hj : j = name
  · subst hj
    rw [if_pos rfl, unsetfunc]
    split
    · exact functionOf_of_get_none ((Buckets.get_unlink ..).trans (if_pos rfl))
    · rename_i hnot
      rw [functionOf]
      split
      · rename_i f rehash hget
        exact absurd hget (hnot f rehash)
      · rfl
  · rw [if_neg hj, unsetfunc]
    split
    · exact functionOf_congr ((Buckets.get_unlink ..).trans (if_neg hj))
    · rfl

theorem Kept.unsetfunc (hs : Kept s) (name : Text) : Kept (unsetfunc s name) := by
  rw [Cmds.unsetfunc]
  split
  · exact hs.delete name
  · exact hs

theorem Sound.unsetfunc (hs : Sound findApplet s) (name : Text) :
    Sound findApplet (unsetfunc s name) := by
  rw [Cmds.unsetfunc]
  split
  · exact hs.delete name
  · exact hs

theorem Unseen.deleteOnPath (s : Session) (name : Text) : Unseen s (deleteOnPath s name) := by
  rw [Cmds.deleteOnPath]
  cases hget : s.cmdtable.get name with
  | none => exact .refl s
  | some e =>
    simp only
    split_ifs with hpath
    · have hlooked : Looked s name none (none, deleteCmdEntry s name) :=
        .deleted (functionOf_eq_none hget (isFunction_of_onPath hpath))
      exact hlooked.unseen
    · exact .refl s

theorem Kept.deleteOnPath (hs : Kept s) (name : Text) : Kept (deleteOnPath s name) := by
  rw [Cmds.deleteOnPath]
  split
  · split_ifs
    · exact hs.delete name
    · exact hs
  · exact hs

theorem Sound.deleteOnPath (hs : Sound findApplet s) (name : Text) :
    Sound findApplet (deleteOnPath s name) := by
  rw [Cmds.deleteOnPath]
  split
  · split_ifs
    · exact hs.delete name
    · exact hs
  · exact hs

theorem Kept.firstLookups (fuel : ℕ) {p : Pending} (hs : Kept s) :
    Kept (firstLookups findApplet fuel s p).1 := by
  induction fuel generalizing s p with
  | zero => exact hs
  | succ fuel ih =>
    obtain ⟨pentry, pnofunc, ppath, pargv⟩ := p
    cases pargv with
    | nil => exact hs
    | cons name words =>
      let act : Act := { nofunc := pnofunc, regbltin := true }
      have hlook : Kept (Cmds.findCommand findApplet s name act none).2 :=
        hs.findCommand name act none
      simp only [Cmds.firstLookups]
      by_cases hcmd : (Cmds.findCommand findApplet s name act none).1 = some (.builtin commandcmd)
      · rw [if_pos hcmd]
        cases (parseCommandArgs words).2 with
        | none => exact hlook
        | some argv => exact ih hlook
      · rw [if_neg hcmd]
        exact hlook

/-- Whatever happens, the entries are such as may stand under their names. -/
theorem Kept.step (hs : Kept s) (e : Event) : Kept (step findApplet s e).1 := by
  cases e with
  | words argv =>
    have h : Kept (Cmds.firstLookups findApplet (argv.length + 1) s ⟨none, false, none, argv⟩).1 :=
      hs.firstLookups _
    exact ⟨h.loc, h.named⟩
  | located =>
    rw [Cmds.step]
    cases s.pending with
    | nil => exact hs
    | cons p rest =>
      have hrest : Kept { s with pending := rest } := ⟨hs.loc, hs.named⟩
      simp only [Cmds.locate]
      split_ifs
      · exact hrest
      · exact hrest.findCommand _ _ _
  | unwound => exact ⟨hs.loc, hs.named⟩
  | describe name path => exact hs.findCommand _ _ _
  | prehash name => exact hs.findCommand _ _ _
  | hash name => exact (hs.deleteOnPath name).findCommand _ _ _
  | hashr => exact (hs.clearcmdentry : Sound findApplet _).kept
  | setPath path => exact (hs.setPath path : Sound findApplet _).kept
  | cd cwd => exact hs.cd cwd
  | defun name func => exact hs.defun name func
  | unsetfunc name => exact hs.unsetfunc name
  | outside files cwd => exact ⟨hs.loc, hs.named⟩

theorem Kept.run (hs : Kept s) (es : List Event) : Kept (run findApplet s es) := by
  induction es generalizing s with
  | nil => exact hs
  | cons e es ih => exact ih (hs.step e)

theorem kept_start (path : SearchPath) (files : Files) (cwd : Text) :
    Kept (start path files cwd) :=
  ⟨rfl, fun hget => by cases hget⟩

/-- What is cleared is sound, whatever came before. -/
theorem Kept.sound_of_clears (hs : Kept s) {e : Event} (he : e.clears = true) :
    Sound findApplet (Cmds.step findApplet s e).1 := by
  cases e with
  | hashr => exact hs.clearcmdentry
  | setPath path => exact hs.setPath path
  | _ => cases he

/-- The calls of `evalcommand` in progress are not touched by a lookup. -/
theorem Agree.withPending {ps qs : List Pending} (h : Agree findApplet s t)
    (hp : List.Forall₂ Alike ps qs) :
    Agree findApplet { s with pending := ps } { t with pending := qs } where
  left := ⟨h.left.loc, fun hget =>
    have he := h.left.entries hget
    ⟨he.named, he.found⟩⟩
  right := ⟨h.right.loc, fun hget =>
    have he := h.right.entries hget
    ⟨he.named, he.found⟩⟩
  builtinloc := h.builtinloc
  pathval := h.pathval
  cwd := h.cwd
  files := h.files
  functions := h.functions
  pending := hp

/-- `unsetfunc` touches the table alone. -/
theorem unsetfunc_table (s : Session) (name : Text) :
    ∃ table, unsetfunc s name = { s with cmdtable := table } := by
  rw [Cmds.unsetfunc]
  split
  · exact ⟨_, rfl⟩
  · exact ⟨s.cmdtable, rfl⟩

theorem Agree.unsetfunc (h : Agree findApplet s t) (name : Text) :
    Agree findApplet (unsetfunc s name) (unsetfunc t name) := by
  have hfun : ∀ j, functionOf (Cmds.unsetfunc s name) j = functionOf (Cmds.unsetfunc t name) j := by
    intro j
    rw [functionOf_unsetfunc, functionOf_unsetfunc, h.functions]
  have hs := h.left.unsetfunc name
  have ht := h.right.unsetfunc name
  obtain ⟨ts, hts⟩ := unsetfunc_table s name
  obtain ⟨tt, htt⟩ := unsetfunc_table t name
  rw [hts] at hfun hs ⊢
  rw [htt] at hfun ht ⊢
  exact ⟨hs, ht, h.builtinloc, h.pathval, h.cwd, h.files, hfun, h.pending⟩

/-- **One event**: it acts on the same answer with either table. -/
theorem Agree.step (h : Agree findApplet s t) {e : Event} (he : e.inside = true) :
    (step findApplet s e).2 = (step findApplet t e).2 ∧
      Agree findApplet (step findApplet s e).1 (step findApplet t e).1 := by
  cases e with
  | words argv =>
    obtain ⟨hagree, halike⟩ := h.firstLookups (argv.length + 1) (alike_refl ⟨none, false, none, argv⟩)
    exact ⟨rfl, hagree.withPending (.cons halike hagree.pending)⟩
  | located =>
    have hpending := h.pending
    rw [Cmds.step, Cmds.step]
    generalize hs : s.pending = ps at hpending
    generalize ht : t.pending = qs at hpending
    cases hpending with
    | nil => exact ⟨rfl, h⟩
    | cons hp hrest =>
      obtain ⟨hcmd, hagree⟩ := (h.withPending hrest).locate hp
      exact ⟨congrArg some hcmd, hagree⟩
  | unwound =>
    have hpending := h.pending
    refine ⟨rfl, h.withPending ?_⟩
    generalize s.pending = ps at hpending
    generalize t.pending = qs at hpending
    cases hpending with
    | nil => exact .nil
    | cons hp hrest => exact hrest
  | describe name path => exact ⟨congrArg some (h.found_eq name rfl path), h.lookup name _ path⟩
  | prehash name => exact ⟨rfl, h.lookup name _ none⟩
  | hash name =>
    -- after the deletion it is a lookup like any other
    have hdelete := h.of_unseen (.deleteOnPath s name) (.deleteOnPath t name)
      (h.left.deleteOnPath name) (h.right.deleteOnPath name)
    exact ⟨congrArg some (hdelete.found_eq name rfl none), hdelete.lookup name _ none⟩
  | hashr =>
    refine ⟨rfl, h.left.kept.clearcmdentry, h.right.kept.clearcmdentry, h.builtinloc, h.pathval,
      h.cwd, h.files, fun name => ?_, h.pending⟩
    exact ((functionOf_clearcmdentry s name).trans (h.functions name)).trans
      (functionOf_clearcmdentry t name).symm
  | setPath path =>
    refine ⟨rfl, h.left.kept.setPath path, h.right.kept.setPath path, rfl, rfl, h.cwd, h.files,
      fun name => ?_, h.pending⟩
    have hclear : ∀ u : Session, functionOf (Cmds.setPath u path) name = functionOf u name :=
      fun u => functionOf_clearcmdentry { u with builtinloc := bltin path.text } name
    exact ((hclear s).trans (h.functions name)).trans (hclear t).symm
  | cd cwd =>
    refine ⟨rfl, h.left.cd cwd, h.right.cd cwd, h.builtinloc, h.pathval, rfl, h.files,
      fun name => ?_, h.pending⟩
    exact ((functionOf_hashcd s name).trans (h.functions name)).trans (functionOf_hashcd t name).symm
  | defun name func =>
    refine ⟨rfl, h.left.defun name func, h.right.defun name func, h.builtinloc, h.pathval, h.cwd,
      h.files, fun j => ?_, h.pending⟩
    exact ((functionOf_defun s name func j).trans (by rw [h.functions])).trans
      (functionOf_defun t name func j).symm
  | unsetfunc name => exact ⟨rfl, h.unsetfunc name⟩
  -- an entry that is not marked may be wrong then
  | outside files cwd => cases he

/-- What is forgotten is not missed. -/
theorem Agree.forget (h : Agree findApplet s t) : Agree findApplet s (forget t) where
  left := h.left
  right := ⟨h.right.loc, fun hget => by
    rw [Cmds.forget, Buckets.get_keep, Option.filter_eq_some_iff] at hget
    have he := h.right.entries hget.1
    exact ⟨he.named, he.found⟩⟩
  builtinloc := h.builtinloc
  pathval := h.pathval
  cwd := h.cwd
  files := h.files
  functions := fun name => (h.functions name).trans (functionOf_forget t name).symm
  pending := h.pending

theorem Agree.answers (h : Agree findApplet s t) {es : List Event}
    (hes : ∀ e ∈ es, e.inside = true) :
    answers findApplet s es = answersAfresh findApplet t es := by
  induction es generalizing s t with
  | nil => rfl
  | cons e es ih =>
    obtain ⟨hanswer, hnext⟩ := h.forget.step (hes e List.mem_cons_self)
    rw [Cmds.answers, answersAfresh, hanswer]
    congr 1
    exact ih hnext fun e he => hes e (List.mem_cons_of_mem _ he)

end Runs

theorem run_append {findApplet : Text → Option ℕ} (s : Session) (es es' : List Event) :
    run findApplet s (es ++ es') = run findApplet (run findApplet s es) es' := by
  induction es generalizing s with
  | nil => rfl
  | cons e es ih => exact ih (step findApplet s e).1

/-- `/bin/tool` and `/usr/bin/tool`, and a `tool` in the directory `bin` of `/work`. -/
def toolFiles : Files where
  stat cwd name :=
    if name.head? = some '/' then
      if name = "/bin/tool".toList ∨ name = "/usr/bin/tool".toList then some true else none
    else if cwd = "/work".toList ∧ name = "bin/tool".toList then some true
    else none
  absolute := by
    intro name h cwd cwd'
    rw [if_pos h, if_pos h]

/-- A `PATH` with a relative directory, and with the builtins that are not regular behind `/bin`. -/
def toolPath : SearchPath := ⟨"bin:/bin:%builtin:/usr/bin".toList, by decide +kernel⟩

def noApplets : Text → Option ℕ := fun _ => none

end OsMoap.Shell.Cmds
