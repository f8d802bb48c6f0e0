import OsMoap.Apk.World
import OsMoap.Apk.Files

/-!
# `apk`: What a Removal Takes Away

`do_del` looks for `<name>` and a line end in the world, takes the first hit, and gives up when the
hit is not at the start of a line; in the database it cuts the stanza up to its blank line and
unlinks what the `F:` lines record.

* `removed_exactly_iff`: when the world is left with exactly its other lines.
* `add_del_identity`: an installation and the removal after it leave the database and the files as
  they were.
-/

namespace OsMoap.Apk

open OsMoap.Lib
open OsMoap.Pack (Bytes addfile)

/-! ## The lines of the world -/

/-- A last line without a line end is never taken out. -/
theorem dropFromWorld_append_open {last : Bytes} (hlast : nl ∉ last) (w q : Bytes) :
    dropFromWorld (w ++ last) q = (dropFromWorld w q).map (· ++ last) := by
  unfold dropFromWorld
  rw [findSub_append_open nl q hlast]
  cases hfind : findSub (q ++ [nl]) w with
  | none => rfl
  | some hit =>
    obtain ⟨before, hit⟩ := hit
    obtain ⟨tail, rfl⟩ := (findSub_eq_some hfind).2
    have hdrop : ∀ rest : Bytes, (q ++ [nl] ++ rest).drop (q.length + 1) = rest := by
      intro rest
      exact List.drop_left' (by simp)
    simp only [Option.map_some]
    split_ifs
    · rw [Option.map_some, List.append_assoc (q ++ [nl]), hdrop, hdrop, List.append_assoc]
    · rfl

/-- The names of a world whose last line may lack its line end. -/
theorem tokens_unlines_append {ts : List Bytes} {last : Bytes} (hts : ∀ n ∈ ts, n ≠ [] ∧ nl ∉ n)
    (hlast : nl ∉ last) :
    tokens nl (unlines nl ts ++ last) = ts ++ [last].filter fun l => l ≠ [] := by
  rw [tokens, lines_unlines_append nl fun n hn => (hts n hn).2, lines_of_not_mem nl hlast,
    List.filter_append, List.filter_eq_self.mpr fun n hn => by simpa using (hts n hn).1]

/-- Unlinking the files that the stanza of a name records leaves the world as it is. -/
def KeepsWorld (host : Host) (q : Bytes) (s : State) : Prop :=
  ∀ before stanza after, located (readFileOrEmpty s dbPath) q = some (before, stanza, after) →
    ((doomed host stanza).foldl unlinkPath s.tree).file worldRef.key = s.tree.file worldRef.key

/-- After a removal the world has lost the lines of the name and no other. -/
def RemovedExactly (q : Bytes) (s s' : State) : Prop :=
  tokens nl (worldRaw s') = (tokens nl (worldRaw s)).filter fun l => l ≠ q

/-- What is left of a list once one occurrence was taken out has no other exactly when it was the
only one. -/
theorem filter_ne_eq_iff {as bs : List Bytes} {q : Bytes} :
    as ++ bs = (as ++ q :: bs).filter (fun l => l ≠ q) ↔ (as ++ q :: bs).count q = 1 := by
  have hfilter : (as ++ q :: bs).filter (fun l => l ≠ q) = (as ++ bs).filter fun l => l ≠ q := by
    simp
  have hcount : (as ++ q :: bs).count q = (as ++ bs).count q + 1 := by
    rw [List.count_append, List.count_append, List.count_cons_self]
    omega
  rw [hfilter, eq_comm, List.filter_eq_self, hcount, Nat.add_eq_right, List.count_eq_zero]
  constructor
  · intro h hmem
    simpa using h q hmem
  · intro h l hl
    simp only [ne_eq, decide_eq_true_eq]
    rintro rfl
    exact h hl

/-- A world that the package takes along does not come back. -/
theorem file_world_of_gone {host : Host} {q before stanza after : Bytes} {s s' : State}
    (h : doDel host q s = (some 0, s'))
    (hloc : located (readFileOrEmpty s dbPath) q = some (before, stanza, after))
    (hgone : ((doomed host stanza).foldl unlinkPath s.tree).file worldRef.key = none) :
    s'.tree.file worldRef.key = none := by
  rw [readFileOrEmpty_db] at hloc
  obtain ⟨-, ⟨-, hr, -⟩ | ⟨_, _, _, hloc', -, -, f, rfl, hfile⟩⟩ := doDel_cases h
  · simp at hr
  rw [hloc, Option.some.injEq, Prod.mk.injEq, Prod.mk.injEq] at hloc'
  obtain ⟨rfl, rfl, rfl⟩ := hloc'
  have hupdate : Function.update ((doomed host stanza).foldl unlinkPath s.tree).file dbRef.key
      (some (before ++ after)) worldRef.key = none := by
    rw [Function.update_of_ne dbRef_ne_worldRef.symm, hgone]
  have hdrop : dropFromWorld (cstr ((none : Option Bytes).getD [])) q = none := by
    simp [dropFromWorld, cstr, findSub]
  rw [textOf, hupdate, hdrop] at hfile
  simp only at hfile
  rw [hfile, hupdate]

section World

variable {host : Host} {s s' : State} {q last : Bytes} {ts : List Bytes}
  (hraw : worldRaw s = unlines nl ts ++ last) (hts : ∀ n ∈ ts, n ≠ [] ∧ Plain n)
  (hlast : Plain last) (hq : q ≠ [] ∧ nl ∉ q) (h : doDel host q s = (some 0, s'))

include hraw hts hlast in
theorem textOf_openWorld : textOf s.tree.file worldRef.key = worldRaw s := by
  have hplain : 0 ∉ worldRaw s := by
    rw [hraw, List.mem_append]
    rintro (h0 | h0)
    · obtain ⟨n, hn, hmem⟩ := List.mem_flatMap.mp h0
      rcases List.mem_append.mp hmem with hmem | hmem
      · exact (hts n hn).2.2 hmem
      · exact absurd (List.mem_singleton.mp hmem) (by decide)
    · exact hlast.2 h0
  rw [textOf, ← worldRaw, cstr_eq_self hplain]

include hraw hts hlast hq h in
/-- The world is rewritten without the line, left as it is, or gone. -/
theorem worldRaw_doDel :
    (KeepsWorld host q s ∧ ¬ TakesLine ts q ∧ worldRaw s' = worldRaw s) ∨
    (KeepsWorld host q s ∧ TakesLine ts q ∧
      ∃ as bs, ts = as ++ q :: bs ∧ worldRaw s' = unlines nl (as ++ bs) ++ last) ∨
    (¬ KeepsWorld host q s ∧ worldRaw s' = []) := by
  obtain ⟨-, ⟨-, hr, -⟩ | ⟨before, stanza, after, hloc, -, -, f, rfl, hfile⟩⟩ := doDel_cases h
  · simp at hr
  rw [← readFileOrEmpty_db] at hloc
  have hupdate : Function.update ((doomed host stanza).foldl unlinkPath s.tree).file dbRef.key
      (some (before ++ after)) worldRef.key
      = ((doomed host stanza).foldl unlinkPath s.tree).file worldRef.key :=
    Function.update_of_ne dbRef_ne_worldRef.symm _ _
  rw [textOf, hupdate] at hfile
  by_cases hkeep : ((doomed host stanza).foldl unlinkPath s.tree).file worldRef.key
      = s.tree.file worldRef.key
  · have hkeeps : KeepsWorld host q s := by
      intro before' stanza' after' hloc'
      rw [hloc] at hloc'
      obtain ⟨-, rfl, -⟩ : before = before' ∧ stanza = stanza' ∧ after = after' := by
        simpa using hloc'
      exact hkeep
    rw [hkeep, ← textOf, textOf_openWorld hraw hts hlast, hraw,
      dropFromWorld_append_open hlast.1] at hfile
    rcases dropFromWorld_unlines hq.2 fun n hn => (hts n hn).2.1 with
      ⟨hno, hdrop⟩ | ⟨hyes, as, bs, hsplit, hdrop⟩
    · rw [hdrop] at hfile
      simp only [Option.map_none] at hfile
      exact Or.inl ⟨hkeeps, hno, by rw [worldRaw, hfile, hupdate, hkeep, ← worldRaw]⟩
    · rw [hdrop] at hfile
      simp only [Option.map_some] at hfile
      refine Or.inr (Or.inl ⟨hkeeps, hyes, as, bs, hsplit, ?_⟩)
      rw [worldRaw, hfile, Function.update_self, Option.getD_some]
  · -- the world was one of the files
    have hgone : ((doomed host stanza).foldl unlinkPath s.tree).file worldRef.key = none :=
      (file_foldl_unlinkPath _ _ _).resolve_left hkeep
    refine Or.inr (Or.inr ⟨fun hkeeps => hkeep (hkeeps _ _ _ hloc), ?_⟩)
    rw [worldRaw, file_world_of_gone h hloc hgone]
    rfl

include hraw hts hlast hq h in
/-- **A removal takes a name out of the world, and nothing else,** exactly when, if the name is a
line at all, it is a line once and the first terminated line that ends in the name is that line;
and the world is not itself a file of the package, unless there is no other line in it. -/
theorem removed_exactly_iff : RemovedExactly q s s' ↔
    (KeepsWorld host q s ∧ (q ∈ tokens nl (worldRaw s) →
      TakesLine ts q ∧ (tokens nl (worldRaw s)).count q = 1)) ∨
    (¬ KeepsWorld host q s ∧ ∀ n ∈ tokens nl (worldRaw s), n = q) := by
  have hnames : ∀ n ∈ ts, n ≠ [] ∧ nl ∉ n := fun n hn => ⟨(hts n hn).1, (hts n hn).2.1⟩
  have htokens : tokens nl (worldRaw s) = ts ++ [last].filter fun l => l ≠ [] := by
    rw [hraw, tokens_unlines_append hnames hlast.1]
  unfold RemovedExactly
  rcases worldRaw_doDel hraw hts hlast hq h with
    ⟨hkeep, hno, hsame⟩ | ⟨hkeep, hyes, as, bs, rfl, hleft⟩ | ⟨hgo, hnil⟩
  · -- nothing is taken out, so there must have been nothing to take out
    rw [hsame, eq_comm, List.filter_eq_self]
    simp only [hkeep, hno, true_and, false_and, imp_false, not_true_eq_false, or_false]
    constructor
    · intro hall hmem
      simpa using hall q hmem
    · intro hnot n hn
      simp only [ne_eq, decide_eq_true_eq]
      rintro rfl
      exact hnot hn
  · have hrest : ∀ n ∈ as ++ bs, n ≠ [] ∧ nl ∉ n := by
      intro n hn
      refine hnames n ?_
      rcases List.mem_append.mp hn with hn | hn
      · exact List.mem_append_left _ hn
      · exact List.mem_append_right _ (List.mem_cons_of_mem _ hn)
    have hin : q ∈ tokens nl (worldRaw s) := by
      rw [htokens]
      simp
    rw [hleft, tokens_unlines_append hrest hlast.1]
    simp only [hkeep, hyes, hin, true_and, forall_const, not_true_eq_false, false_and, or_false]
    rw [htokens, List.append_assoc, List.append_assoc, List.cons_append]
    exact filter_ne_eq_iff
  · have hempty : tokens nl ([] : Bytes) = [] := by decide
    rw [hnil, hempty, eq_comm, List.filter_eq_nil_iff]
    simp only [hgo, false_and, not_false_eq_true, true_and, false_or]
    simp

end World

/-- The state after `apk add` of these names. -/
def added (names : List Bytes) : State :=
  (runCommand bareHost bareState (.add true names)).2

/-- The state after `apk del less` in a world of `names`. -/
def withoutLess (names : List Bytes) : State := (doDel bareHost (ascii "less") (added names)).2

theorem doDel_less {names : List Bytes}
    (h : (doDel bareHost (ascii "less") (added names)).1 = some 0) :
    doDel bareHost (ascii "less") (added names) = (some 0, withoutLess names) := by
  rw [withoutLess, ← h]

theorem removed_exactly_less :
    doDel bareHost (ascii "less") (added [ascii "less", ascii "unless"])
      = (some 0, withoutLess [ascii "less", ascii "unless"]) ∧
    RemovedExactly (ascii "less") (added [ascii "less", ascii "unless"])
      (withoutLess [ascii "less", ascii "unless"]) := by
  have hret : (doDel bareHost (ascii "less") (added [ascii "less", ascii "unless"])).1 = some 0 := by
    decide +kernel
  have hdel := doDel_less hret
  have hraw : worldRaw (added [ascii "less", ascii "unless"])
      = unlines nl [ascii "less", ascii "unless"] ++ [] := by
    decide +kernel
  refine ⟨hdel, (removed_exactly_iff hraw (by decide) (by decide) (by decide) hdel).mpr ?_⟩
  refine Or.inl ⟨fun before stanza after hloc => ?_, fun _ => by decide +kernel⟩
  have hpaths : (located (readFileOrEmpty (added [ascii "less", ascii "unless"]) dbPath)
      (ascii "less")).map (fun c => filePaths c.2.1) = some [] := by
    decide +kernel
  rw [hloc, Option.map_some, Option.some.injEq] at hpaths
  rw [doomed, hpaths, List.map_nil, List.foldl_nil]

/-- Where `unless` comes first, the line `less` stays. -/
theorem not_removed_less :
    (doDel bareHost (ascii "less") (added [ascii "unless", ascii "less"])).1 = some 0 ∧
    worldRaw (added [ascii "unless", ascii "less"]) = ascii "unless\nless\n" ∧
    worldRaw (withoutLess [ascii "unless", ascii "less"]) = ascii "unless\nless\n" ∧
    ¬ RemovedExactly (ascii "less") (added [ascii "unless", ascii "less"])
      (withoutLess [ascii "unless", ascii "less"]) := by
  unfold RemovedExactly
  decide +kernel

/-! ## The files of a stanza -/

theorem readPath_unlinkPath_or {p q : Bytes} {k : List Bytes} (hk : keyOf q = some k)
    (t : FileTree Bytes Bytes) :
    readPath (unlinkPath t p) q = readPath t q ∨ (unlinkPath t p).file k = none := by
  obtain ⟨r, hr, rfl⟩ := Option.map_eq_some_iff.mp hk
  unfold unlinkPath readPath
  rw [hr, Option.bind_some]
  cases fileRef p with
  | none => exact Or.inl rfl
  | some r' => exact t.read_unlink_or r' r

/-- Unlinking paths leaves nothing where one of them leads. -/
theorem file_foldl_unlinkPath_of_mem {paths : List Bytes} {t : FileTree Bytes Bytes} {p : Bytes}
    {k : List Bytes} (hp : p ∈ paths) (hk : keyOf p = some k)
    (hread : (readPath t p).isSome ∨ t.file k = none) :
    (paths.foldl unlinkPath t).file k = none := by
  have hstays : ∀ (rest : List Bytes) (t' : FileTree Bytes Bytes), t'.file k = none →
      (rest.foldl unlinkPath t').file k = none := by
    intro rest t' hnone
    rcases file_foldl_unlinkPath rest t' k with h | h
    · rw [h, hnone]
    · exact h
  induction paths generalizing t with
  | nil => simp at hp
  | cons d paths ih =>
    rw [List.foldl_cons]
    rcases hread with hread | hnone
    · rcases List.mem_cons.mp hp with rfl | hp
      · obtain ⟨r, hr, rfl⟩ := Option.map_eq_some_iff.mp hk
        rw [readPath, hr, Option.bind_some] at hread
        refine hstays paths _ ?_
        rw [unlinkPath_eq hr, FileTree.file_unlink_self hread]
      · refine ih hp ?_
        rcases readPath_unlinkPath_or hk t with hsame | hgone
        · exact Or.inl (by rw [hsame, hread])
        · exact Or.inr hgone
    · exact hstays (d :: paths) t hnone

theorem map_absolutize (cwd : Bytes) (ms : List (Bytes × Bytes)) :
    (ms.map fun m => absPath m.1).map (absolutize cwd) = ms.map fun m => absPath m.1 := by
  rw [List.map_map]
  refine List.map_congr_left fun m _ => ?_
  rw [Function.comp_apply, absolutize]
  exact if_pos rfl

/-- An installation touches the members, the archive, the database and the world. -/
theorem installed_of_ne {f : List Bytes → Option Bytes} {ms : List (Bytes × Bytes)}
    {recordWorld : Bool} {name ver desc : Bytes} {k : List Bytes} (hdb : k ≠ dbRef.key)
    (hworld : k ≠ worldRef.key) :
    installed f ms recordWorld name ver desc k = afterExtract f ms k := by
  unfold installed recordText appendText
  split_ifs
  · rw [Function.update_of_ne hworld, Function.update_of_ne hdb]
  · rw [Function.update_of_ne hdb]

/-! ## Added and removed -/

/-- A stanza written behind others is the one found, where no line ends in its name line. -/
theorem located_append {ss : List Stanza} {st : Stanza} {q : Bytes} (hq : nl ∉ q)
    (hname : st.name = q) (hprobe : findSub (probe q) (render ss) = none) :
    located (render (ss ++ [st])) q = some (render ss, unlines nl st.lines, []) := by
  have hnone : ∀ l ∈ dbLines ss, ¬ nameLine q <:+ l := by
    intro l hl hend
    have hsome := (probe_render_isSome_iff ss hq).mpr ⟨l, hl, hend⟩
    rw [hprobe] at hsome
    simp at hsome
  have hfirst : NameLineFirst (ss ++ [st]) q := by
    intro l hl
    rw [dbLines_append, List.find?_append, List.find?_eq_none.mpr fun l hl => by
      simpa using hnone l hl] at hl
    have hhead : dbLines [st] = nameLine q :: st.lines.tail := by
      rw [← hname]
      simp [Stanza.lines, Stanza.body]
    rw [hhead, List.find?_cons_of_pos (by simp)] at hl
    simpa using hl.symm
  rcases located_render hq hfirst with ⟨-, hno⟩ | ⟨as, st', bs, hsplit, hst', -, hloc⟩
  · exact absurd hname (hno st (by simp))
  · have hnot : st' ∉ ss := fun hmem =>
      hnone (nameLine q) (List.mem_flatMap.mpr ⟨st', hmem, nameLine_mem_lines_iff.mpr hst'⟩)
        List.suffix_rfl
    rcases List.eq_nil_or_concat bs with rfl | ⟨bs', b, rfl⟩
    · obtain ⟨rfl, hlast⟩ := List.append_inj' hsplit rfl
      obtain rfl : st = st' := by simpa using hlast
      exact hloc
    · have hassoc : as ++ st' :: bs'.concat b = (as ++ st' :: bs') ++ [b] := by simp
      rw [hassoc] at hsplit
      obtain ⟨rfl, -⟩ := List.append_inj' hsplit rfl
      exact absurd (by simp) hnot

section AddDel

variable {host : Host} {recordWorld : Bool} {q tar : Bytes} {s s1 : State} {ss : List Stanza}
  (hs : Holds s ss) (hq : Plain q) (hprobe : findSub (probe q) (render ss) = none)
  (htar : host.fetch s.calls q = .ok tar) (hnl : ∀ m ∈ members tar, nl ∉ m.1)
  (hdb : ∀ m ∈ members tar, keyOf (absPath m.1) ≠ some dbRef.key)
  (hadd : doAdd host recordWorld q s = (some 0, s1))

include hs hq hprobe htar hnl hdb hadd

/-- What `do_add` leaves: one more stanza, which records what was extracted. -/
theorem doAdd_fresh : ∃ ms st, ms <+: members tar ∧ st.name = q ∧
    st.paths = ms.map (fun m => absPath m.1) ∧ Holds s1 (ss ++ [st]) ∧
    s1.tree.file tartmpRef.key = none ∧
    (∀ k, k ≠ dbRef.key → k ≠ worldRef.key → k ≠ tartmpRef.key →
      (∀ m ∈ ms, keyOf (absPath m.1) ≠ some k) → s1.tree.file k = s.tree.file k) ∧
    ∀ m ∈ ms, keyOf (absPath m.1) ≠ some tartmpRef.key →
      (readPath s1.tree (absPath m.1)).isSome := by
  -- neither installed before nor a failed fetch
  rcases doAdd_cases hadd with ⟨hsome, -⟩ |
    ⟨-, ⟨hr, -⟩ | ⟨tar', mid, htar', harch, -, -, hfile, -, hinst⟩⟩
  · rw [hs.textOf, hprobe] at hsome
    simp at hsome
  · simp at hr
  obtain rfl : tar = tar' := Except.ok.inj (htar.symm.trans htar')
  obtain ⟨ms, ver, desc, hpre, ⟨hver0, hvern⟩, ⟨hdesc0, hdescn⟩, -, -, hread, -, hinstalled⟩ :=
    installTarFile_spec hinst
  rw [harch] at hpre
  have hmid : mid.tree.file dbRef.key = s.tree.file dbRef.key := by
    rw [hfile, Function.update_of_ne dbRef_ne_tartmpRef]
  obtain ⟨st, hname, hpaths, -, htext⟩ := exists_stanza hq ⟨hvern, hver0⟩ ⟨hdescn, hdesc0⟩
    fun m hm => ⟨hnl m (hpre.subset hm), not_mem_of_mem_membersFrom (hpre.subset hm)⟩
  refine ⟨ms, st, hpre, hname, hpaths, ?_, ?_, fun k hkdb hkw hkt hno => ?_, hread⟩
  · have hout : InstallOutcome mid.tree.file s1.tree.file ms recordWorld q ver desc (some 0) :=
      ⟨rfl, hinstalled⟩
    rcases hout.db fun m hm => hdb m (hpre.subset hm) with ⟨hr, -⟩ | hnew
    · simp at hr
    · rw [Holds, hnew, hmid, Option.getD_some, hs, htext, render_append, render_cons]
      simp [render]
  · rw [hinstalled, installed_of_ne dbRef_ne_tartmpRef.symm worldRef_ne_tartmpRef.symm,
      afterExtract, Function.update_self]
  · rw [hinstalled, installed_of_ne hkdb hkw, afterExtract_of_forall_ne hkt hno, hfile,
      Function.update_of_ne hkt]

end AddDel

/-- **Adding and then deleting a package is the identity** on the database and on the files other
than the world and the archive: the stanza is found, everything it records is gone, and the text
before it is left.  The package's paths are new, and where there is no database yet, it does not
ship one. -/
theorem add_del_identity {host : Host} {recordWorld : Bool} {q tar : Bytes} {s s1 : State}
    {ss : List Stanza} (hs : Holds s ss) (hq : Plain q)
    (hprobe : findSub (probe q) (render ss) = none) (htar : host.fetch s.calls q = .ok tar)
    (hnl : ∀ m ∈ members tar, nl ∉ m.1)
    (hnew : ∀ m ∈ members tar, ∀ k, keyOf (absPath m.1) = some k → s.tree.file k = none)
    (hdb : s.tree.file dbRef.key = none →
      ∀ m ∈ members tar, keyOf (absPath m.1) ≠ some dbRef.key)
    (hadd : doAdd host recordWorld q s = (some 0, s1)) :
    ∃ s2 stanza, doDel host q s1 = (some 0, s2) ∧
      (s2.tree.file dbRef.key).getD [] = (s.tree.file dbRef.key).getD [] ∧
      located (readFileOrEmpty s1 dbPath) q = some (render ss, stanza, []) ∧
      (∀ p ∈ filePaths stanza, ∀ k, keyOf p = some k → s2.tree.file k = none) ∧
      (∀ k, k ≠ dbRef.key → k ≠ worldRef.key → k ≠ tartmpRef.key →
        s2.tree.file k = s.tree.file k) ∧
      s2.tree.file tartmpRef.key = none := by
  have hno : ∀ m ∈ members tar, keyOf (absPath m.1) ≠ some dbRef.key := fun m hm hk =>
    hdb (hnew m hm _ hk) m hm hk
  obtain ⟨ms, st, hpre, hname, hpaths, hholds, htmp, hother, hread⟩ :=
    doAdd_fresh hs hq hprobe htar hnl hno hadd
  have hloc := located_append hq.1 hname hprobe
  rcases hdel : doDel host q s1 with ⟨r, s2⟩
  obtain ⟨rfl, hholds2, hfiles⟩ := hholds.del hloc hdel
  rw [List.append_nil] at hholds2
  have hloc1 : located (readFileOrEmpty s1 dbPath) q
      = some (render ss, unlines nl st.lines, []) := by
    rw [readFileOrEmpty_db, hholds.textOf, hloc]
  -- every recorded path leads to a file, or to the archive, which is gone
  have hgone : ∀ m ∈ ms, ∀ k, keyOf (absPath m.1) = some k →
      ((st.paths.map (absolutize host.cwd)).foldl unlinkPath s1.tree).file k = none := by
    intro m hm k hk
    rw [hpaths, map_absolutize]
    refine file_foldl_unlinkPath_of_mem (List.mem_map_of_mem hm) hk ?_
    by_cases hkt : k = tartmpRef.key
    · exact Or.inr (hkt ▸ htmp)
    · exact Or.inl (hread m hm fun h => hkt (Option.some.inj (hk.symm.trans h)))
  refine ⟨s2, unlines nl st.lines, rfl, ?_, hloc1, ?_, fun k hkdb hkw hkt => ?_, ?_⟩
  · rw [hholds2, hs]
  · intro p hp k hk
    rw [filePaths_lines, hpaths, List.mem_map] at hp
    obtain ⟨m, hm, rfl⟩ := hp
    have hkdb : k ≠ dbRef.key := fun h => hno m (hpre.subset hm) (h ▸ hk)
    by_cases hkw : k = worldRef.key
    · subst hkw
      refine file_world_of_gone hdel hloc1 ?_
      rw [doomed, filePaths_lines]
      exact hgone m hm _ hk
    · rw [hfiles k hkdb hkw]
      exact hgone m hm k hk
  · rw [hfiles k hkdb hkw]
    by_cases hmem : ∃ m ∈ ms, keyOf (absPath m.1) = some k
    · obtain ⟨m, hm, hk⟩ := hmem
      rw [hgone m hm k hk, hnew m (hpre.subset hm) k hk]
    · have hne : ∀ m ∈ ms, keyOf (absPath m.1) ≠ some k := fun m hm hk => hmem ⟨m, hm, hk⟩
      rw [← hother k hkdb hkw hkt hne, hpaths, map_absolutize]
      refine (foldl_unlinkPath _ _).1 k fun p hp => ?_
      obtain ⟨m, hm, rfl⟩ := List.mem_map.mp hp
      exact hne m hm
  · rcases file_tartmp_doDel hdel with h | h
    · rw [h, htmp]
    · exact h

/-- The state after `apk add less` on a host that ships the terminfo entry with it. -/
def terminfoAdded : State := (doAdd terminfoHost true (ascii "less") bareState).2

theorem add_del_less : ∃ s2, doDel terminfoHost (ascii "less") terminfoAdded = (some 0, s2) ∧
    (s2.tree.file dbRef.key).getD [] = [] ∧
    ∀ k, k ≠ dbRef.key → k ≠ worldRef.key → k ≠ tartmpRef.key → s2.tree.file k = none := by
  have hret : (doAdd terminfoHost true (ascii "less") bareState).1 = some 0 := by decide +kernel
  have hadd : doAdd terminfoHost true (ascii "less") bareState = (some 0, terminfoAdded) := by
    rw [terminfoAdded, ← hret]
  have hmem : ∀ m ∈ members terminfoTar, m = (ascii "usr/share/terminfo/x/xterm", [26, 1]) := by
    intro m hm
    rw [members_terminfoTar] at hm
    exact List.mem_singleton.mp hm
  have hholds : Holds bareState [] := by
    unfold Holds
    decide +kernel
  obtain ⟨s2, stanza, hdel, hsame, -, -, hfiles, -⟩ := add_del_identity hholds
    (by decide) (by decide) rfl (fun m hm => by rw [hmem m hm]; decide)
    (fun _ _ _ _ => rfl) (fun _ m hm => by rw [hmem m hm]; decide) hadd
  exact ⟨s2, hdel, hsame, hfiles⟩

/-- An archive of a database and the two end blocks. -/
def dbTar : Bytes :=
  (addfile ("lib/apk/db/installed".toList, [120, 10])).getD [] ++ List.replicate 1024 0

/-- A host that ships it. -/
def dbHost : Host where
  index := fun _ => .ok []
  fetch := fun _ _ => .ok dbTar
  cwd := [slash]

/-- A package that ships the database of a system without one leaves it behind. -/
theorem add_del_leaves_db :
    (doAdd dbHost true (ascii "less") bareState).1 = some 0 ∧
    (members dbTar).map Prod.fst = [ascii "lib/apk/db/installed"] ∧
    readPath bareState.tree (ascii "/lib/apk/db/installed") = none ∧
    readFileOrEmpty bareState dbPath = [] ∧
    (doDel dbHost (ascii "less") (doAdd dbHost true (ascii "less") bareState).2).1 = some 0 ∧
    readFileOrEmpty (doDel dbHost (ascii "less")
      (doAdd dbHost true (ascii "less") bareState).2).2 dbPath = ascii "x\n" := by
  decide +kernel

end OsMoap.Apk
