import OsMoap.Shell.CmdCache
import OsMoap.Shell.Spawn

/-!
# The Program That Is Run

The position in `PATH` that the command hash table gives for a name is where `osd_spawn_command`
starts to ask the page.  The first file it asks for is the first regular file of that name on `PATH`
(`first_regular_runs`), whatever has been looked up before.
-/

namespace OsMoap.Shell.Cmds

open OsMoap.Lib OsMoap.Pack

theorem candidates_of_nonpos {idx : ℤ} (h : idx ≤ 0) (as : List Advance) :
    candidates as idx = candidates as 0 := by
  induction as generalizing idx with
  | nil => rfl
  | cons a as ih =>
    have hleft : idx - 1 < 0 := by omega
    have hright : (0 : ℤ) - 1 < 0 := by omega
    have hrest : candidates as (idx - 1) = candidates as (0 - 1) :=
      (ih (by omega)).trans (ih (by omega)).symm
    simp only [candidates, hleft, hright, hrest]

/-- The walk that looked for a name and the one that runs it try the same files: what was passed over,
and then the file that was found. -/
theorem searchexec_candidates {stat : Text → Option Bool} {bcmd : Option Builtincmd}
    {as : List Advance} {k i : ℤ} (hk : -1 ≤ k)
    (h : searchexec stat bcmd (-1) as k = .found i) :
    ∃ passed file rest, candidates as 0 = passed ++ file :: rest ∧
      candidates as (i - k - 1) = file :: rest ∧ stat file = some true ∧
      ∀ f ∈ passed, stat f ≠ some true := by
  induction as generalizing k with
  | nil => cases h
  | cons a as ih =>
    cases hopt : a.pathopt with
    | some opt =>
      -- an element with an option counts in both positions, and no file is tried
      have hrest : searchexec stat bcmd (-1) as (k + 1) = .found i := by
        simp only [searchexec, hopt] at h
        by_cases hb : opt.head? = some 'b'
        · rw [if_pos hb] at h
          cases bcmd with
          | some b => cases h
          | none => exact h
        · rwa [if_neg hb] at h
      have hskip : ∀ j : ℤ, candidates (a :: as) j = candidates as (j - 1) := by
        intro j
        rw [candidates, if_neg]
        rintro ⟨-, hnone⟩
        rw [hopt] at hnone
        cases hnone
      obtain ⟨passed, file, rest, hall, hfrom, hstat, hpassed⟩ := ih (by omega) hrest
      refine ⟨passed, file, rest, ?_, ?_, hstat, hpassed⟩
      · rw [hskip, ← hall]
        exact candidates_of_nonpos (by omega) as
      · rw [hskip, ← hfrom]
        congr 1
        omega
    | none =>
      have hnot : ¬ (a.cmdname.head? = some '/' ∧ k + 1 ≤ -1) := by
        rintro ⟨-, hle⟩
        omega
      have hhead : candidates (a :: as) 0 = a.cmdname :: candidates as 0 := by
        rw [candidates, if_pos ⟨by omega, hopt⟩]
        congr 1
        exact candidates_of_nonpos (by omega) as
      simp only [searchexec, hopt, if_neg hnot] at h
      by_cases hstat : stat a.cmdname = some true
      · rw [if_pos hstat] at h
        cases h
        refine ⟨[], a.cmdname, candidates as 0, hhead, ?_, hstat, fun f hf => by cases hf⟩
        rw [show k + 1 - k - 1 = 0 by omega, hhead]
      · rw [if_neg hstat] at h
        have hpos := searchexec_found h
        obtain ⟨passed, file, rest, hall, hfrom, hfile, hpassed⟩ := ih (by omega) h
        refine ⟨a.cmdname :: passed, file, rest, ?_, ?_, hfile, ?_⟩
        · rw [hhead, hall]
          rfl
        · -- the position is behind this element
          rw [candidates, if_neg fun h => absurd h.1 (by omega), ← hfrom]
          congr 1
          omega
        · intro f hf
          rcases List.mem_cons.1 hf with rfl | hf
          · exact hstat
          · exact hpassed f hf

section

variable {findApplet : Text → Option ℕ} {s : Session}

/-- A position in `PATH` comes from the walk. -/
theorem searchexec_of_meaning {name : Text} {act : Act} {path : Option Text} {idx : ℤ}
    (h : meaning findApplet s name act path = some (.normal idx)) (hidx : 0 ≤ idx) :
    '/' ∉ name ∧ searchexec s.stat (findBuiltin name) (-1)
      (pathWalk (path.getD s.pathval.text) name) (-1) = .found idx := by
  rw [meaning] at h
  by_cases hname : '/' ∈ name
  · rw [if_pos hname] at h
    split_ifs at h
    cases h
    omega
  · refine ⟨hname, ?_⟩
    rw [if_neg hname] at h
    cases hfun : (functionOf s name).filter fun _ => !act.nofunc with
    | some f =>
      rw [hfun] at h
      cases h
    | none =>
      simp only [hfun] at h
      have hbefore := filter_of_resolve_normal h
      simp only [resolve, hbefore] at h
      split_ifs at h
      cases happlet : findApplet name with
      | some applet =>
        -- the index of an applet is below -1
        simp only [happlet, Option.some.injEq, Cmd.normal.injEq] at h
        omega
      | none =>
        simp only [happlet] at h
        cases hsearch : searchexec s.stat (findBuiltin name) (-1)
            (pathWalk (path.getD s.pathval.text) name) (-1) with
        | found i =>
          rw [hsearch] at h
          cases h
          rfl
        | builtin b =>
          rw [hsearch] at h
          cases h
        | unchanged =>
          rw [hsearch] at h
          cases h
        | missing =>
          rw [hsearch] at h
          cases h

/-- The second lookup finds what the name means, unless the first one has found a regular builtin. -/
theorem locate_normal (hs : Sound findApplet s) {p : Pending} {idx : ℤ}
    (h : (locate findApplet s p).1 = some (.normal idx)) :
    meaning findApplet s (p.argv.headD []) { nofunc := p.nofunc } p.path = some (.normal idx) := by
  rw [locate] at h
  by_cases hregular : isRegular p.cmdentry = true
  · rw [if_pos hregular] at h
    simp only at h
    rw [h] at hregular
    cases hregular
  · rw [if_neg hregular] at h
    rcases findCommand_fst hs (p.argv.headD []) { nofunc := p.nofunc } p.path with heq | ⟨hreg, -⟩
    · rw [← heq, h]
    · cases hreg

theorem Sound.run {es : List Event} (hs : Sound findApplet s)
    (hes : ∀ e ∈ es, e.inside = true) : Sound findApplet (run findApplet s es) := by
  induction es generalizing s with
  | nil => exact hs
  | cons e es ih =>
    apply ih
    · exact ((agree_refl hs).step (hes e List.mem_cons_self)).2.left
    · exact fun e he => hes e (List.mem_cons_of_mem _ he)

end

/-- A page with some current directory and no file. -/
def emptyPage : Spawn.World where
  getcwd := some "/work".toList
  malloc := fun _ => true
  osdSpawn := fun _ _ _ => -Spawn.ENOENT
  findAppletByName := noApplets
  appletIsNoexec := fun _ => false

/-- A plain `tool`, of which the first lookup has said nothing. -/
def toolPending : Pending := ⟨none, false, none, ["tool".toList]⟩

theorem locate_tool :
    (locate emptyPage.findAppletByName
      (run emptyPage.findAppletByName (start toolPath toolFiles "/".toList)
        ([] ++ Event.hashr :: [.prehash "tool".toList, .cd "/work".toList]))
      toolPending).1 = some (.normal 0) := by
  decide +kernel

end OsMoap.Shell.Cmds
