import OsMoap.Shell.CmdTable
import Mathlib.Data.List.TakeWhile

/-!
# How a Command Is Searched

What a name means is `meaning`, which reads the functions of the table and no other entry; what is
found on `PATH` is `resolve`.

`searchexec_again` is why a marked entry need not be searched for from the start: the walk may leave
out the absolute directories that another walk has settled.  `Looked` is all that a lookup does to the
table.
-/

namespace OsMoap.Shell.Cmds

open OsMoap.Lib OsMoap.Pack

/-! ## The walk along `PATH` -/

section Walk

variable {stat stat' : Text → Option Bool} {bcmd : Option Builtincmd}

/-- An element with the option `%builtin`. -/
def BltinElement (a : Advance) : Prop := ∃ opt, a.pathopt = some opt ∧ opt.head? = some 'b'

theorem searchexec_builtin {prev idx : ℤ} {as : List Advance} {b : Builtincmd}
    (h : searchexec stat bcmd prev as idx = .builtin b) : bcmd = some b := by
  induction as generalizing idx with
  | nil => cases h
  | cons a as ih =>
    cases hopt : a.pathopt with
    | some opt =>
      simp only [searchexec, hopt] at h
      by_cases hb : opt.head? = some 'b'
      · rw [if_pos hb] at h
        cases bcmd with
        | some b' => exact congrArg some (Searched.builtin.inj h)
        | none => exact ih h
      · rw [if_neg hb] at h
        exact ih h
    | none =>
      simp only [searchexec, hopt] at h
      split_ifs at h
      · exact ih h
      · exact ih h

/-- A position found is one of those walked over. -/
theorem searchexec_found {prev idx i : ℤ} {as : List Advance}
    (h : searchexec stat bcmd prev as idx = .found i) : idx < i := by
  induction as generalizing idx with
  | nil => cases h
  | cons a as ih =>
    have hrest : searchexec stat bcmd prev as (idx + 1) = .found i → idx < i := by
      intro h
      have := ih h
      omega
    cases hopt : a.pathopt with
    | some opt =>
      simp only [searchexec, hopt] at h
      by_cases hb : opt.head? = some 'b'
      · rw [if_pos hb] at h
        cases bcmd with
        | some b => cases h
        | none => exact hrest h
      · rw [if_neg hb] at h
        exact hrest h
    | none =>
      simp only [searchexec, hopt] at h
      split_ifs at h
      · exact hrest h
      · cases h
        exact Int.lt_succ idx
      · exact hrest h

/-- Behind `prev` every element is looked at. -/
theorem searchexec_past {prev idx : ℤ} (h : prev ≤ idx) (hidx : -1 ≤ idx) (as : List Advance) :
    searchexec stat bcmd prev as idx = searchexec stat bcmd (-1) as idx := by
  induction as generalizing idx with
  | nil => rfl
  | cons a as ih =>
    have hrest : searchexec stat bcmd prev as (idx + 1) = searchexec stat bcmd (-1) as (idx + 1) :=
      ih (by omega) (by omega)
    have hprev : ¬ (a.cmdname.head? = some '/' ∧ idx + 1 ≤ prev) := by
      rintro ⟨-, hle⟩
      omega
    have hstart : ¬ (a.cmdname.head? = some '/' ∧ idx + 1 ≤ -1) := by
      rintro ⟨-, hle⟩
      omega
    -- neither walk leaves this element out
    simp only [searchexec, hrest, if_neg hprev, if_neg hstart]

theorem searchexec_ne_unchanged {idx : ℤ} (hidx : -1 ≤ idx) (as : List Advance) :
    searchexec stat bcmd (-1) as idx ≠ .unchanged := by
  intro h
  induction as generalizing idx with
  | nil => cases h
  | cons a as ih =>
    have hrest : searchexec stat bcmd (-1) as (idx + 1) ≠ .unchanged := fun h => ih (by omega) h
    cases hopt : a.pathopt with
    | some opt =>
      simp only [searchexec, hopt] at h
      by_cases hb : opt.head? = some 'b'
      · rw [if_pos hb] at h
        cases bcmd with
        | some b => cases h
        | none => exact hrest h
      · rw [if_neg hb] at h
        exact hrest h
    | none =>
      have hnot : ¬ (a.cmdname.head? = some '/' ∧ idx + 1 ≤ -1) := by
        rintro ⟨-, hle⟩
        omega
      simp only [searchexec, hopt, if_neg hnot] at h
      split_ifs at h
      exact hrest h

/-- What an entry with this `prev` was found as: a program at that position, or a builtin, with
`%builtin` at that position. -/
inductive FoundBefore (prev : ℤ) (as : List Advance) (idx : ℤ) : Searched → Prop where
  | found : FoundBefore prev as idx (.found prev)
  | builtin (b : Builtincmd) (before : List Advance) (a : Advance) (after : List Advance)
      (h : as = before ++ a :: after) (ha : BltinElement a)
      (hprev : prev = idx + 1 + before.length) : FoundBefore prev as idx (.builtin b)

/-- The walk goes on behind an element that has not `%builtin`. -/
theorem FoundBefore.tail {prev idx : ℤ} {a : Advance} {as : List Advance} {r : Searched}
    (h : FoundBefore prev (a :: as) idx r) (ha : ¬ BltinElement a) :
    FoundBefore prev as (idx + 1) r := by
  cases h with
  | found => exact .found
  | builtin b before a' after h ha' hprev =>
    cases before with
    | nil =>
      rw [List.nil_append, List.cons.injEq] at h
      exact absurd (h.1 ▸ ha') ha
    | cons c before =>
      rw [List.cons_append, List.cons.injEq] at h
      refine .builtin b before a' after h.2 ha' ?_
      rw [List.length_cons] at hprev
      push_cast at hprev
      omega

/-- An element that was passed over is in front of the position. -/
theorem FoundBefore.lt {prev idx : ℤ} {a : Advance} {as : List Advance} {r : Searched}
    (h : FoundBefore prev (a :: as) idx r) (ha : ¬ BltinElement a)
    (hr : searchexec stat bcmd (-1) as (idx + 1) = r) : idx + 1 < prev := by
  cases h with
  | found => exact searchexec_found hr
  | builtin b before a' after h ha' hprev =>
    cases before with
    | nil =>
      -- the element is not the `%builtin` at the position
      rw [List.nil_append, List.cons.injEq] at h
      exact absurd (h.1 ▸ ha') ha
    | cons c before =>
      rw [List.length_cons] at hprev
      push_cast at hprev
      omega

/-- **A walk that leaves out what another walk has settled.**  Only absolute names are left out, which
mean the same from every directory. -/
theorem searchexec_again {prev idx : ℤ} {as : List Advance} {r : Searched}
    (habs : ∀ name : Text, name.head? = some '/' → stat' name = stat name) (hidx : -1 ≤ idx)
    (hr : searchexec stat bcmd (-1) as idx = r) (hprev : FoundBefore prev as idx r) :
    searchexec stat' bcmd prev as idx = searchexec stat' bcmd (-1) as idx ∨
      searchexec stat' bcmd prev as idx = .unchanged ∧
        searchexec stat' bcmd (-1) as idx = .found prev ∧ r = .found prev := by
  induction as generalizing idx with
  | nil => exact .inl rfl
  | cons a as ih =>
    have hnot : ¬ (a.cmdname.head? = some '/' ∧ idx + 1 ≤ -1) := by
      rintro ⟨-, hle⟩
      omega
    cases hopt : a.pathopt with
    | some opt =>
      simp only [searchexec, hopt] at hr ⊢
      by_cases hb : opt.head? = some 'b'
      · simp only [if_pos hb] at hr ⊢
        cases bcmd with
        | some b => exact .inl rfl
        | none =>
          -- `%builtin` with no builtin to find
          cases hprev with
          | found => exact ih (by omega) hr .found
          | builtin b before a' after h ha' hpos => cases searchexec_builtin hr
      · simp only [if_neg hb] at hr ⊢
        have ha : ¬ BltinElement a := by
          rintro ⟨o, ho, hhead⟩
          rw [hopt] at ho
          exact hb (Option.some.inj ho ▸ hhead)
        exact ih (by omega) hr (hprev.tail ha)
    | none =>
      have ha : ¬ BltinElement a := by
        rintro ⟨o, ho, -⟩
        rw [hopt] at ho
        cases ho
      simp only [searchexec, hopt, if_neg hnot] at hr ⊢
      by_cases hskip : a.cmdname.head? = some '/' ∧ idx + 1 ≤ prev
      · rw [if_pos hskip, habs _ hskip.1]
        by_cases hstat : stat a.cmdname = some true
        · -- it is where the program was found
          rw [if_pos hstat] at hr
          subst hr
          have hpos : prev = idx + 1 := by
            cases hprev
            rfl
          right
          rw [if_neg (by omega), if_pos hstat, hpos]
          exact ⟨rfl, rfl, rfl⟩
        · -- there was no program here, and from an absolute name there is none now
          rw [if_neg hstat] at hr
          rw [if_pos (hprev.lt ha hr), if_neg hstat]
          exact ih (by omega) hr (hprev.tail ha)
      · rw [if_neg hskip]
        by_cases hstat' : stat' a.cmdname = some true
        · rw [if_pos hstat', if_pos hstat']
          exact .inl rfl
        · rw [if_neg hstat', if_neg hstat']
          by_cases hstat : stat a.cmdname = some true
          · -- the program is not at its position any more: the rest is looked at
            rw [if_pos hstat] at hr
            subst hr
            have hpos : prev = idx + 1 := by
              cases hprev
              rfl
            left
            exact searchexec_past (by omega) (by omega) as
          · rw [if_neg hstat] at hr
            exact ih (by omega) hr (hprev.tail ha)

end Walk

/-! ## `builtinloc` -/

theorem padvance_bltin {path : Text} (h : "%builtin".toList.isPrefixOf path = true) (name : Text) :
    BltinElement (padvance path name) := by
  obtain ⟨opt, rfl⟩ := List.isPrefixOf_iff_prefix.1 h
  have hcolon : ∀ {start : Text} {lpathopt : Option Text},
      (advanceFrom start lpathopt [':'] name 1).pathopt = lpathopt := by
    intro start lpathopt
    have hstop := List.head?_dropWhile_not (fun c => decide (c ∉ [':'])) start
    rw [advanceFrom]
    split
    · rename_i opt' hopt
      rw [hopt] at hstop
      simp at hstop
    · rfl
  have hbltin : afterPrefix ("builtin".toList ++ opt) "builtin".toList = some opt := by
    rw [afterPrefix, if_pos (List.isPrefixOf_iff_prefix.2 (List.prefix_append _ _)),
      List.drop_left]
  have hlegal : (legalPathopt ("builtin".toList ++ opt) ['%', ':'] 1).isSome := by
    simp only [legalPathopt, hbltin]
    rfl
  obtain ⟨p, hp⟩ := Option.isSome_iff_exists.1 hlegal
  have hstart : pathStart ("%builtin".toList ++ opt) 1 = (p, some ("builtin".toList ++ opt), [':']) := by
    rw [show "%builtin".toList ++ opt = '%' :: ("builtin".toList ++ opt) from rfl, pathStart, hp]
  refine ⟨"builtin".toList ++ opt, ?_, rfl⟩
  rw [padvance, padvanceMagic, hstart]
  exact hcolon

/-- Both loops go on behind the colon. -/
theorem padvance_path (path name : Text) :
    (padvance path name).path = afterColon (path.dropWhile (· ≠ ':')) := by
  have hmem : ':' ∉ path.takeWhile (· ≠ ':') := by
    intro h
    simpa using List.mem_takeWhile_imp h
  have hend : EndsElement (path.dropWhile (· ≠ ':')) := by
    have hstop := List.head?_dropWhile_not (fun c => decide (c ≠ ':')) path
    cases hdrop : path.dropWhile (· ≠ ':') with
    | nil => exact .inl rfl
    | cons c rest =>
      rw [hdrop] at hstop
      have hc : c = ':' := by simpa using hstop
      exact .inr ⟨rest, by rw [hc]⟩
  have helement := (padvance_element hmem hend name).1
  rwa [List.takeWhile_append_dropWhile] at helement

theorem bltinFrom_spec {fuel : ℕ} {path : Text} {idx : ℤ} (hidx : 0 ≤ idx)
    (h : 0 < bltinFrom fuel path idx) (name : Text) :
    ∃ before a after, padvances fuel path name = before ++ a :: after ∧ BltinElement a ∧
      bltinFrom fuel path idx = idx + before.length := by
  induction fuel generalizing path idx with
  | zero =>
    rw [bltinFrom] at h
    omega
  | succ fuel ih =>
    rw [bltinFrom] at h ⊢
    rw [padvances]
    by_cases hbltin : "%builtin".toList.isPrefixOf path = true
    · rw [if_pos hbltin]
      exact ⟨[], _, _, rfl, padvance_bltin hbltin name, by simp⟩
    · rw [if_neg hbltin] at h ⊢
      have hpath := padvance_path path name
      have hstop := List.head?_dropWhile_not (fun c => decide (c ≠ ':')) path
      cases hdrop : path.dropWhile (· ≠ ':') with
      | nil =>
        rw [hdrop] at h
        simp only at h
        omega
      | cons c rest =>
        rw [hdrop] at h hpath hstop
        have hc : c = ':' := by simpa using hstop
        subst hc
        rw [hpath]
        simp only [afterColon] at h ⊢
        -- both loops have passed the same colon
        obtain ⟨before, a, after, hwalk, ha, hpos⟩ := ih (by omega) h
        refine ⟨padvance path name :: before, a, after, ?_, ha, ?_⟩
        · rw [hwalk]
          rfl
        · rw [hpos, List.length_cons]
          push_cast
          omega

/-- `builtinloc` is the position of an element `%builtin` in the walk. -/
theorem bltin_spec {path : Text} (h : 0 < bltin path) (name : Text) :
    ∃ before a after, pathWalk path name = before ++ a :: after ∧ BltinElement a ∧
      bltin path = before.length := by
  obtain ⟨before, a, after, hwalk, ha, hpos⟩ := bltinFrom_spec (le_refl 0) h name
  refine ⟨before, a, after, hwalk, ha, ?_⟩
  rw [bltin, hpos, Int.zero_add]

/-! ## What a name means -/

/-- `cmdp->cmdtype == CMDFUNCTION`. -/
def functionOf (s : Session) (name : Text) : Option ℕ :=
  match s.cmdtable.get name with
  | some ⟨.function f, _⟩ => some f
  | _ => none

section Meaning

variable (findApplet : Text → Option ℕ)

/-- What is found when nothing is remembered. -/
def resolve (builtinloc : ℤ) (stat : Text → Option Bool) (name : Text) (regbltin altpath : Bool)
    (path : Text) : Option Cmd :=
  let bcmd := findBuiltin name
  match bcmd.filter (beforePath builtinloc altpath) with
  | some b => some (.builtin b)
  | none =>
    if regbltin then none
    else
      match findApplet name with
      | some applet => some (.normal (-2 - applet))
      | none =>
        match searchexec stat bcmd (-1) (pathWalk path name) (-1) with
        | .builtin b => some (.builtin b)
        | .found idx => some (.normal idx)
        | _ => none

/-- What `find_command` finds, from the functions in the table alone. -/
def meaning (s : Session) (name : Text) (act : Act) (path : Option Text) : Option Cmd :=
  if '/' ∈ name then if act.abs && (s.stat name).isNone then none else some (.normal (-1))
  else
    match (functionOf s name).filter fun _ => !act.nofunc with
    | some f => some (.function f)
    | none =>
      resolve findApplet s.builtinloc s.stat name act.regbltin path.isSome
        (path.getD s.pathval.text)

variable {findApplet} {builtinloc : ℤ} {stat : Text → Option Bool} {name path : Text}
  {regbltin altpath : Bool}

theorem filter_beforePath {b : Builtincmd}
    (h : (findBuiltin name).filter (beforePath builtinloc altpath) = some b) :
    findBuiltin name = some b :=
  (Option.filter_eq_some_iff.1 h).1

/-- A builtin found is the one of that name. -/
theorem resolve_builtin {b : Builtincmd}
    (h : resolve findApplet builtinloc stat name regbltin altpath path = some (.builtin b)) :
    findBuiltin name = some b := by
  rw [resolve] at h
  cases hb : (findBuiltin name).filter (beforePath builtinloc altpath) with
  | some b' =>
    simp only [hb, Option.some.injEq, Cmd.builtin.injEq] at h
    exact h ▸ filter_beforePath hb
  | none =>
    simp only [hb] at h
    split_ifs at h
    cases happlet : findApplet name with
    | some applet => simp [happlet] at h
    | none =>
      simp only [happlet] at h
      split at h
      · rename_i b' hsearch
        rw [Option.some.injEq, Cmd.builtin.injEq] at h
        exact h ▸ searchexec_builtin hsearch
      · cases h
      · cases h

/-- What is found with `DO_REGBLTIN` is found without. -/
theorem resolve_of_regbltin {cmd : Cmd}
    (h : resolve findApplet builtinloc stat name regbltin altpath path = some cmd) :
    resolve findApplet builtinloc stat name false altpath path = some cmd := by
  cases regbltin with
  | false => exact h
  | true =>
    simp only [resolve] at h ⊢
    cases hb : (findBuiltin name).filter (beforePath builtinloc altpath) with
    | some b =>
      rw [hb] at h
      exact h
    | none =>
      rw [hb] at h
      cases h

/-- A builtin that is found before `PATH`. -/
theorem resolve_of_beforePath {b : Builtincmd} (hb : findBuiltin name = some b)
    (hbefore : beforePath builtinloc altpath b = true) :
    resolve findApplet builtinloc stat name regbltin altpath path = some (.builtin b) := by
  have hfilter : (findBuiltin name).filter (beforePath builtinloc altpath) = some b :=
    Option.filter_eq_some_iff.2 ⟨hb, hbefore⟩
  simp only [resolve, hfilter]

/-- No builtin of the name is found before `PATH` where a program is found. -/
theorem filter_of_resolve_normal {idx : ℤ}
    (h : resolve findApplet builtinloc stat name regbltin altpath path = some (.normal idx)) :
    (findBuiltin name).filter (beforePath builtinloc altpath) = none := by
  cases hb : (findBuiltin name).filter (beforePath builtinloc altpath) with
  | none => rfl
  | some b =>
    rw [resolve, hb] at h
    cases h

end Meaning

/-! ## What a lookup does to the table -/

/-- An entry that may stand under the name. -/
structure Named (name : Text) (e : Tblentry) : Prop where
  function : isFunction e.cmd = true → e.rehash = false
  builtin : ∀ b, e.cmd = .builtin b → findBuiltin name = some b

/-- What a lookup returns and leaves.  The entry of a function stays. -/
inductive Looked (s : Session) (name : Text) (path : Option Text) :
    Option Cmd × Session → Prop where
  | same (found : Option Cmd) : Looked s name path (found, s)
  | added (cmd : Cmd) (hfunction : isFunction cmd = false) (hnamed : Named name ⟨cmd, false⟩)
      (hname : '/' ∉ name) (hpath : path = none) (hs : functionOf s name = none) :
      Looked s name path (some cmd, addcmdentry s name cmd)
  | deleted (hs : functionOf s name = none) : Looked s name path (none, deleteCmdEntry s name)

section Lookup

variable {findApplet : Text → Option ℕ} {s : Session} {name : Text} {act : Act}

theorem Looked.success {path : Option Text} {cmd : Cmd} {updatetbl : Bool}
    (hnamed : Named name ⟨cmd, false⟩) (hfunction : isFunction cmd = false) (hname : '/' ∉ name)
    (h : updatetbl = true → path = none ∧ functionOf s name = none) :
    Looked s name path (success s name cmd updatetbl) := by
  rw [Cmds.success]
  cases updatetbl with
  | false => exact .same _
  | true => exact .added cmd hfunction hnamed hname (h rfl).1 (h rfl).2

theorem named_builtin {b : Builtincmd} (h : findBuiltin name = some b) :
    Named name ⟨.builtin b, false⟩ where
  function := fun _ => rfl
  builtin := fun b' hb' => by
    rw [h, Cmd.builtin.inj hb']

theorem named_normal (idx : ℤ) : Named name ⟨.normal idx, false⟩ where
  function := fun _ => rfl
  builtin := fun _ h => by cases h

/-- An entry to check again is not that of a function. -/
theorem isFunction_of_rehash {e : Tblentry} (he : Named name e) (hrehash : e.rehash = true) :
    isFunction e.cmd = false := by
  by_contra h
  have hfalse := he.function (by simpa using h)
  rw [hrehash] at hfalse
  cases hfalse

theorem findUncached_looked {path : Option Text} {text : Text} {updatetbl : Bool}
    {cmdp : Option Tblentry} (hname : '/' ∉ name)
    (hcmdp : ∀ e, cmdp = some e → Named name e ∧ e.rehash = true ∧ path = none)
    (hupdate : updatetbl = true → path = none) (hs : cmdp.isSome ∨ updatetbl = true →
      functionOf s name = none) :
    Looked s name path
      (findUncached findApplet s name act path.isSome text updatetbl cmdp) := by
  have hadd : updatetbl = true → path = none ∧ functionOf s name = none :=
    fun h => ⟨hupdate h, hs (.inr h)⟩
  simp only [findUncached]
  cases hb : (findBuiltin name).filter (beforePath s.builtinloc path.isSome) with
  | some b => exact .success (named_builtin (filter_beforePath hb)) rfl hname hadd
  | none =>
    simp only
    by_cases hreg : act.regbltin = true
    · rw [if_pos hreg]
      exact .same _
    · rw [if_neg hreg]
      cases findApplet name with
      | some applet => exact .same _
      | none =>
        simp only
        cases hsearch : searchexec s.stat (findBuiltin name) (prevOf s cmdp) (pathWalk text name) (-1) with
        | builtin b => exact .success (named_builtin (searchexec_builtin hsearch)) rfl hname hadd
        | found idx => exact .success (named_normal idx) rfl hname hadd
        | unchanged =>
          cases cmdp with
          | none => exact .same _
          | some e =>
            -- the entry is put back without its mark
            obtain ⟨hnamed, hrehash, hpath⟩ := hcmdp e rfl
            have hfun := isFunction_of_rehash hnamed hrehash
            exact .success ⟨fun _ => rfl, hnamed.builtin⟩ hfun hname
              fun _ => ⟨hpath, hs (.inl rfl)⟩
        | missing =>
          by_cases hdelete : cmdp.isSome && updatetbl
          · simp only [if_pos hdelete]
            rw [Bool.and_eq_true] at hdelete
            exact .deleted (hs (.inl hdelete.1))
          · simp only [if_neg hdelete]
            exact .same _

theorem functionOf_eq_none {e : Tblentry} (h : s.cmdtable.get name = some e)
    (hfun : isFunction e.cmd = false) : functionOf s name = none := by
  rw [functionOf, h]
  obtain ⟨cmd, rehash⟩ := e
  cases cmd with
  | function f => cases hfun
  | normal idx => rfl
  | builtin b => rfl

theorem functionOf_of_get_none (h : s.cmdtable.get name = none) : functionOf s name = none := by
  rw [functionOf, h]

theorem findCommand_looked (hs : ∀ e, s.cmdtable.get name = some e → Named name e) (act : Act)
    (path : Option Text) : Looked s name path (findCommand findApplet s name act path) := by
  rw [findCommand]
  by_cases hname : '/' ∈ name
  · rw [if_pos hname]
    exact .same _
  · rw [if_neg hname]
    cases hget : s.cmdtable.get name with
    | none =>
      apply findUncached_looked hname
      · intro e he
        cases he
      · intro hpath
        simpa using hpath
      · intro _
        exact functionOf_of_get_none hget
    | some e =>
      simp only
      by_cases hrefuses : act.refuses path.isSome e.cmd = true
      · rw [if_pos hrefuses]
        by_cases hreg : act.refusesRegbltin e.cmd = true
        · rw [if_pos hreg]
          exact .same _
        · rw [if_neg hreg]
          -- nothing is updated then
          apply findUncached_looked hname
          · intro e he
            cases he
          · intro h
            cases h
          · rintro (h | h)
            · cases h
            · cases h
      · rw [if_neg hrefuses]
        by_cases hrehash : e.rehash = true
        · rw [if_pos hrehash]
          have hfun := isFunction_of_rehash (hs e hget) hrehash
          have hnone := functionOf_eq_none hget hfun
          cases path with
          | none =>
            apply findUncached_looked hname
            · intro e' he'
              cases he'
              exact ⟨hs e hget, hrehash, rfl⟩
            · intro _
              rfl
            · intro _
              exact hnone
          | some p =>
            -- on another path only a builtin passes, and it is found at once
            have hbefore : ∃ b, (findBuiltin name).filter (beforePath s.builtinloc true) = some b := by
              cases hcmd : e.cmd with
              | normal idx =>
                rw [hcmd] at hrefuses
                exact absurd rfl hrefuses
              | function f =>
                rw [hcmd] at hfun
                cases hfun
              | builtin b =>
                refine ⟨b, Option.filter_eq_some_iff.2 ⟨(hs e hget).builtin b hcmd, ?_⟩⟩
                simp [beforePath]
            obtain ⟨b, hb⟩ := hbefore
            simp only [findUncached, Option.isSome_some, hb]
            exact .same _
        · rw [if_neg hrehash]
          exact .same _

end Lookup

end OsMoap.Shell.Cmds
