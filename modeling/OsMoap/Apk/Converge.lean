import OsMoap.Apk.Boot
import OsMoap.Apk.Upgrade
import Mathlib.Data.List.Perm.Basic

/-!
# `apk`: an Upgrade Converges

`upgrade` walks the lines of the world with the index and the database as they were read before
the loop, while `do_del` and `install_tar_file` rewrite the database and the world behind it: each
upgraded package loses its stanza and its line, and gets them back at the end.

`Progress` relates the texts read before the loop to the files it is rewriting: the stanzas of the
names not yet upgraded stand first and as they were, then come the new ones, and the world has the
lines it had, in some order.  From it, `upgrade_converges`: every package of the world that the
index has is at the version of the index, the others are as they were, and a second `upgrade` finds
nothing to do.
-/

namespace OsMoap.Apk

open OsMoap.Lib
open OsMoap.Pack (Bytes addfile)

/-! ## `db_ver` -/

/-- What `db_ver` searches for: a name line and the start of a version line. -/
theorem dbVer_eq (db n : Bytes) :
    dbVer db n = (findSub (nameLine n ++ nl :: ascii "V:") db).map fun hit =>
      (hit.2.drop (nameLine n ++ nl :: ascii "V:").length).takeWhile (· ≠ nl) := by
  have hprobe : probe n ++ ascii "V:" = nameLine n ++ nl :: ascii "V:" := by
    rw [probe, nameLine, List.append_assoc, List.singleton_append]
  rw [dbVer, hprobe]

theorem dbVer_line {n l text : Bytes} (hn : nl ∉ n) (hl : nl ∉ l)
    (h : ¬ (nameLine n <:+ l ∧ ascii "V:" <+: text)) :
    dbVer (l ++ nl :: text) n = dbVer text n := by
  rw [dbVer_eq, dbVer_eq, findSub_lines_skip nl (not_mem_nameLine hn) hl h, Option.map_map]
  rfl

/-- The files of a stanza and its blank line are passed over. -/
theorem dbVer_files {n : Bytes} (hn : nl ∉ n) {paths : List Bytes} (hpaths : ∀ p ∈ paths, nl ∉ p)
    (rest : Bytes) :
    dbVer (unlines nl (paths.map fun p => ascii "F:" ++ p) ++ nl :: rest) n = dbVer rest n := by
  induction paths with
  | nil =>
    rw [List.map_nil, unlines_nil, List.nil_append]
    refine dbVer_line (l := []) hn List.not_mem_nil fun h => ?_
    exact absurd (List.suffix_nil.mp h.1) (by simp [nameLine, ascii])
  | cons p paths ih =>
    have hp : nl ∉ ascii "F:" ++ p := by
      rw [List.mem_append, not_or]
      exact ⟨by decide, hpaths p List.mem_cons_self⟩
    rw [List.map_cons, unlines_cons, List.append_assoc, List.cons_append, dbVer_line hn hp,
      ih fun q hq => hpaths q (List.mem_cons_of_mem _ hq)]
    rintro ⟨-, hnext⟩
    -- what comes next is another file or the blank line
    cases paths with
    | nil => exact absurd (List.cons_prefix_cons.mp hnext).1 (by decide)
    | cons q paths => exact absurd (List.cons_prefix_cons.mp hnext).1 (by decide)

/-- A stanza of another name is passed over. -/
theorem dbVer_stanza_skip {n : Bytes} (hn : nl ∉ n) {st : Stanza}
    (hname : ¬ nameLine n <:+ nameLine st.name) (rest : Bytes) :
    dbVer (unlines nl st.lines ++ rest) n = dbVer rest n := by
  have hplain := st.plain
  have htext : unlines nl st.lines ++ rest = nameLine st.name ++ nl :: ((ascii "V:" ++ st.ver) ++
      nl :: ((ascii "T:" ++ st.desc) ++ nl ::
        (unlines nl (st.paths.map fun p => ascii "F:" ++ p) ++ nl :: rest))) := by
    simp [Stanza.lines, Stanza.body]
  have hfield : ∀ {key b : Bytes}, nl ∉ key → b ∈ st.name :: st.ver :: st.desc :: st.paths →
      nl ∉ key ++ b := by
    intro key b hkey hb
    rw [List.mem_append, not_or]
    exact ⟨hkey, (hplain b hb).1⟩
  rw [htext, dbVer_line hn (not_mem_nameLine (hplain st.name (by simp)).1) fun h => hname h.1,
    dbVer_line hn (hfield (by decide) (by simp)), dbVer_line hn (hfield (by decide) (by simp)),
    dbVer_files hn fun p hp => (hplain p (by simp [hp])).1]
  · rintro ⟨-, hnext⟩
    cases hpaths : st.paths with
    | nil =>
      rw [hpaths] at hnext
      exact absurd (List.cons_prefix_cons.mp hnext).1 (by decide)
    | cons p ps =>
      rw [hpaths] at hnext
      exact absurd (List.cons_prefix_cons.mp hnext).1 (by decide)
  · rintro ⟨-, hnext⟩
    exact absurd (List.cons_prefix_cons.mp hnext).1 (by decide)

theorem dbVer_stanza_hit (st : Stanza) (rest : Bytes) :
    dbVer (unlines nl st.lines ++ rest) st.name = some st.ver := by
  obtain ⟨tail, htail⟩ : ∃ tail, unlines nl st.lines ++ rest
      = (nameLine st.name ++ nl :: ascii "V:") ++ (st.ver ++ nl :: tail) := by
    exact ⟨_, by simp [Stanza.lines, Stanza.body]; rfl⟩
  have hver : ∀ c ∈ st.ver, decide (c ≠ nl) = true := by
    intro c hc
    rw [decide_eq_true_eq]
    rintro rfl
    exact (st.plain st.ver (by simp)).1 hc
  rw [dbVer_eq, htail, findSub_of_prefix (List.prefix_append _ _), Option.map_some,
    List.drop_left, List.takeWhile_append_of_pos hver, List.takeWhile_cons_of_neg (by simp),
    List.append_nil]

/-- **`db_ver`** finds the first stanza of a name, where no other name ends in `P:<name>`. -/
theorem dbVer_render {ss : List Stanza} {n : Bytes} (hn : nl ∉ n)
    (h : ∀ st ∈ ss, nameLine n <:+ nameLine st.name → st.name = n) :
    dbVer (render ss) n = (ss.find? fun st => st.name = n).map Stanza.ver := by
  induction ss with
  | nil =>
    rw [dbVer_eq]
    simp [render, findSub]
  | cons st ss ih =>
    rw [render_cons]
    by_cases hname : st.name = n
    · subst hname
      rw [dbVer_stanza_hit, List.find?_cons_of_pos (by simp), Option.map_some]
    · rw [dbVer_stanza_skip hn fun hend => hname (h st List.mem_cons_self hend),
        ih fun st' hst' => h st' (List.mem_cons_of_mem _ hst'),
        List.find?_cons_of_neg (by simpa using hname)]

/-! ## The lines of the world -/

/-- The world file lists package names; a name may come more than once. -/
structure WorldLines (s : State) (vs : List Bytes) : Prop where
  raw : worldRaw s = unlines nl vs
  names : ∀ n ∈ vs, PkgName n

theorem WorldLines.of_eq {s s' : State} {vs : List Bytes} (h : WorldLines s vs)
    (heq : s'.tree.file worldRef.key = s.tree.file worldRef.key) : WorldLines s' vs :=
  ⟨by rw [worldRaw, heq, ← worldRaw, h.raw], h.names⟩

theorem WorldLines.text {s : State} {vs : List Bytes} (h : WorldLines s vs) :
    textOf s.tree.file worldRef.key = unlines nl vs :=
  textOf_world h.raw fun l hl => (h.names l hl).2.2

theorem WorldLines.tokens {s : State} {vs : List Bytes} (h : WorldLines s vs) :
    tokens nl (readFileOrEmpty s worldPath) = vs := by
  rw [readFileOrEmpty_world, h.text]
  exact tokens_unlines nl fun l hl => ⟨(h.names l hl).2.2.1, (h.names l hl).1⟩

/-- A removal may take out one line of the name, and keeps the file. -/
theorem WorldLines.del {host : Host} {s s' : State} {vs : List Bytes} {q : Bytes} {r : Option ℕ}
    (hs : WorldLines s vs) (hq : q ∈ vs)
    (hspare : RemovalSparesWorld host (textOf s.tree.file dbRef.key) q)
    (h : doDel host q s = (r, s')) :
    (s'.tree.file worldRef.key).isSome ∧
      ∃ vs', WorldLines s' vs' ∧ vs' ⊆ vs ∧ ∀ l ∈ vs, l ≠ q → l ∈ vs' := by
  have hfile := file_world_isSome hs.raw hq
  have hsame : s'.tree.file worldRef.key = s.tree.file worldRef.key →
      (s'.tree.file worldRef.key).isSome ∧
        ∃ vs', WorldLines s' vs' ∧ vs' ⊆ vs ∧ ∀ l ∈ vs, l ≠ q → l ∈ vs' :=
    fun heq => ⟨by rwa [heq], vs, hs.of_eq heq, fun l hl => hl, fun l hl _ => hl⟩
  rcases world_doDel hs.text (hs.names q hq).2.2.1 (fun l hl => (hs.names l hl).2.2.1) hspare h with
    ⟨-, htree⟩ | ⟨-, ⟨-, heq⟩ | ⟨-, as, bs, rfl, hsome⟩⟩
  · exact hsame (by rw [htree])
  · exact hsame heq
  · have hsub : as ++ bs ⊆ as ++ q :: bs := by
      intro l hl
      rcases List.mem_append.mp hl with hl | hl
      · exact List.mem_append_left _ hl
      · exact List.mem_append_right _ (List.mem_cons_of_mem _ hl)
    refine ⟨by rw [hsome]; rfl, as ++ bs, ⟨by rw [worldRaw, hsome, Option.getD_some],
      fun l hl => hs.names l (hsub hl)⟩, hsub, fun l hl hne => ?_⟩
    rcases List.mem_append.mp hl with hl | hl
    · exact List.mem_append_left _ hl
    · exact List.mem_append_right _ ((List.mem_cons.mp hl).resolve_left hne)

/-- Recording a name adds its line if there is none. -/
theorem WorldLines.record {s s' : State} {vs : List Bytes} {q : Bytes} (hs : WorldLines s vs)
    (hq : PkgName q)
    (h : s'.tree.file worldRef.key = recordText s.tree.file true q worldRef.key) :
    ∃ vs', WorldLines s' vs' ∧ ∀ l, l ∈ vs' ↔ l = q ∨ l ∈ vs := by
  have hin : inLines (textOf s.tree.file worldRef.key) q = false ↔ q ∉ vs := by
    rw [hs.text, ← inLines_unlines hq.2.2.1 hs.names, Bool.not_eq_true]
  rcases world_recordText hs.raw h with ⟨hold, hsame⟩ | ⟨-, hraw⟩
  · have hmem : q ∈ vs := by
      by_contra hno
      exact hold ⟨rfl, hin.mpr hno⟩
    refine ⟨vs, hs.of_eq hsame, fun l => ⟨Or.inr, ?_⟩⟩
    rintro (rfl | hl)
    · exact hmem
    · exact hl
  · refine ⟨vs ++ [q], ⟨hraw, fun l hl => ?_⟩, fun l => ?_⟩
    · rcases List.mem_append.mp hl with hl | hl
      · exact hs.names l hl
      · rw [List.mem_singleton.mp hl]
        exact hq
    · rw [List.mem_append, List.mem_singleton, or_comm]

/-! ## Replacing one stanza -/

theorem nameLineFirst_of_clear {as bs : List Stanza} {n : Bytes}
    (h : ∀ l ∈ dbLines as, nameLine n <:+ l → l = nameLine n)
    (hbs : Named as n ∨ ∀ l ∈ dbLines bs, nameLine n <:+ l → l = nameLine n) :
    NameLineFirst (as ++ bs) n := by
  intro l hl
  have hend : nameLine n <:+ l := List.isSuffixOf_iff_suffix.mp (List.find?_some hl)
  rw [dbLines_append, List.find?_append] at hl
  cases hfind : (dbLines as).find? fun l => (nameLine n).isSuffixOf l with
  | some l' =>
    rw [hfind, Option.some_or, Option.some.injEq] at hl
    exact h l (hl ▸ List.mem_of_find?_eq_some hfind) hend
  | none =>
    rw [hfind, Option.none_or] at hl
    rcases hbs with ⟨st, hst, rfl⟩ | hbs
    · -- the name line of its stanza would have been found
      have hno := List.find?_eq_none.mp hfind (nameLine st.name)
        (List.mem_flatMap.mpr ⟨st, hst, nameLine_mem_lines_iff.mpr rfl⟩)
      exact absurd (List.isSuffixOf_iff_suffix.mpr List.suffix_rfl) hno
    · exact hbs l (List.mem_of_find?_eq_some hl) hend

/-- Taking out the only stanza of a name. -/
theorem filter_name_ne {as bs : List Stanza} {x : Stanza}
    (h : ((as ++ x :: bs).map Stanza.name).Nodup) :
    (as ++ x :: bs).filter (fun st => st.name ≠ x.name) = as ++ bs := by
  rw [List.map_append, List.map_cons, List.nodup_append, List.nodup_cons] at h
  obtain ⟨-, ⟨hbs, -⟩, has⟩ := h
  have hkeep : ∀ {ts : List Stanza}, (∀ st ∈ ts, st.name ≠ x.name) →
      ts.filter (fun st => st.name ≠ x.name) = ts := by
    intro ts hts
    exact List.filter_eq_self.mpr fun st hst => decide_eq_true (hts st hst)
  rw [List.filter_append, List.filter_cons_of_neg (by simp), hkeep, hkeep]
  · intro st hst heq
    exact hbs (List.mem_map.mpr ⟨st, hst, heq⟩)
  · intro st hst heq
    exact has _ (List.mem_map_of_mem hst) _ List.mem_cons_self heq

/-- A removal that finds a stanza leaves a database. -/
theorem file_db_doDel {host : Host} {q : Bytes} {s s' : State} {r : Option ℕ}
    (h : doDel host q s = (r, s')) (hloc : (located (textOf s.tree.file dbRef.key) q).isSome) :
    (s'.tree.file dbRef.key).isSome := by
  obtain ⟨-, ⟨hnone, -⟩ | ⟨before, stanza, after, -, -, -, f, rfl, hfile⟩⟩ := doDel_cases h
  · rw [hnone] at hloc
    cases hloc
  · rw [hfile]
    split
    · rw [Function.update_self]
      rfl
    · rw [Function.update_of_ne dbRef_ne_worldRef, Function.update_self]
      rfl

/-- Where there is a database, an archive that can be extracted finds room. -/
theorem hasRoom_of_extracts {t : FileTree Bytes Bytes} {tar : Bytes} (h : Extracts t tar)
    (hdb : (t.file dbRef.key).isSome) : HasRoom t tar := by
  obtain ⟨t', hwrite⟩ := Option.isSome_iff_exists.mp h.2
  refine ⟨t', hwrite, ?_⟩
  have hopen := open_dbRef_of_le (writeMembers_spec hwrite).1 hdb
  rwa [DbOpens, FileTree.mkdirs_of_open hopen]

/-- **Replacing a package**: the removal takes out its stanza and the new archive is registered
with a stanza at the end; the lines of the world are the same. -/
theorem replace_stanza {host : Host} {n tar : Bytes} {s mid : State} {cur : List Stanza}
    {vs : List Bytes} (hs : Holds mid cur) (hunique : (cur.map Stanza.name).Nodup)
    (hnamed : Named cur n) (hfirst : NameLineFirst cur n)
    (hspares : ∀ st ∈ cur, st.name = n →
      ∀ p ∈ st.paths, keyOf (absolutize host.cwd p) ≠ some worldRef.key)
    (hvs : WorldLines mid vs) (hn : n ∈ vs) (hgood : WellFormed tar)
    (hmid : fetchedTree s tar = some mid.tree) (hrep : Reinstallable host n s tar) :
    ∃ s1 st s', doDel host n mid = (some 0, s1) ∧ installTarFile n true s1 = (some 0, s') ∧
      st.name = n ∧ st.ver = archiveVer tar ∧ st.desc = archiveDesc tar ∧
      st.paths = archivePaths tar ∧
      Holds s' (cur.filter (fun x => x.name ≠ n) ++ [st]) ∧ s'.calls = mid.calls ∧
      ∃ vs', WorldLines s' vs' ∧ ∀ l, l ∈ vs' ↔ l ∈ vs := by
  have hname := hvs.names n hn
  -- a stanza of that name is there, so the removal finds it
  rcases located_render hname.2.2.1 hfirst with ⟨-, hno⟩ | ⟨as, x, bs, rfl, rfl, -, hloc⟩
  · obtain ⟨st, hst, hst'⟩ := hnamed
    exact absurd hst' (hno st hst)
  rcases hdel : doDel host x.name mid with ⟨r, s1⟩
  obtain ⟨rfl, hholds1, -⟩ := hs.del hloc hdel
  have hspare : RemovalSparesWorld host (textOf mid.tree.file dbRef.key) x.name := by
    intro before stanza after hloc' p hp
    rw [hs.textOf, hloc] at hloc'
    obtain ⟨-, rfl, -⟩ : render as = before ∧ unlines nl x.lines = stanza ∧ render bs = after := by
      simpa using hloc'
    rw [doomed, filePaths_lines] at hp
    obtain ⟨p', hp', rfl⟩ := List.mem_map.mp hp
    exact hspares x (by simp) rfl p' hp'
  -- the removal takes a line of the world with it, and the installation puts one back
  obtain ⟨hworld1, vs1, hvs1, hsub, hkept⟩ := hvs.del hn hspare hdel
  have hdb1 := file_db_doDel hdel (by rw [hs.textOf, hloc]; rfl)
  -- the archive has survived the removal and still extracts
  obtain ⟨hfile1, hextracts⟩ := hrep.2 mid hmid
  rw [hdel] at hfile1 hextracts
  obtain ⟨st, s', hinst, hst, hver, hdesc, hpaths, hholds, hcalls, hworld⟩ :=
    hgood.install hname.2.2 hholds1 hfile1 (hasRoom_of_extracts hextracts hdb1) fun _ => hworld1
  obtain ⟨vs', hvs', hmem⟩ := hvs1.record hname hworld
  refine ⟨s1, st, s', rfl, hinst, hst, hver, hdesc, hpaths, ?_, hcalls.trans (doDel_cases hdel).1,
    vs', hvs', fun l => ?_⟩
  · rwa [filter_name_ne hunique]
  · rw [hmem]
    constructor
    · rintro (rfl | hl)
      · exact hn
      · exact hsub hl
    · intro hl
      by_cases heq : l = x.name
      · exact Or.inl heq
      · exact Or.inr (hkept l hl heq)

/-! ## The loop -/

/-- The conditions on what is installed, the world and what the page has, for the upgrade of `ws`
over a database of `ss`, with fetches from call `lo` on: one stanza for each name; for a name of
the world, no line ends in `P:<name>` but its own; the archives of outdated packages are
well-formed and have the version of the index; an outdated package does not own the world file;
and where a name comes twice in the world, no field of a new archive ends in `P:<name>`. -/
structure Upgradable (host : Host) (ix : Bytes) (ss : List Stanza) (ws : List Bytes) (lo : ℕ) :
    Prop where
  unique : (ss.map Stanza.name).Nodup
  clear : ∀ n ∈ ws, ∀ l ∈ dbLines ss, nameLine n <:+ l → l = nameLine n
  good : ∀ n ∈ ws, Outdated ix (render ss) n → ∀ i tar, lo ≤ i → host.fetch i n = .ok tar →
    WellFormed tar ∧ indexVer ix n = some (archiveVer tar)
  spares : ∀ st ∈ ss, st.name ∈ ws → Outdated ix (render ss) st.name →
    ∀ p ∈ st.paths, keyOf (absolutize host.cwd p) ≠ some worldRef.key
  twice : ∀ n ∈ ws, 1 < ws.count n → ∀ m ∈ ws, Outdated ix (render ss) m →
    ∀ i tar, lo ≤ i → host.fetch i m = .ok tar →
      ∀ b ∈ archiveVer tar :: archiveDesc tar :: archivePaths tar, ¬ nameLine n <:+ b

/-- When the turn of an outdated package comes, its archive is delivered and can be extracted in
place of the old version. -/
def canReplace (host : Host) (ix db n : Bytes) (s : State) : Prop :=
  Outdated ix db n → ∃ tar, Delivered host n s tar ∧ Reinstallable host n s tar

/-- A stanza that was written for an archive delivered at one of some calls. -/
def CameFrom (host : Host) (lo hi : ℕ) (st : Stanza) : Prop :=
  ∃ i tar, lo ≤ i ∧ i < hi ∧ host.fetch i st.name = .ok tar ∧ st.ver = archiveVer tar ∧
    st.desc = archiveDesc tar ∧ st.paths = archivePaths tar

/-- **The invariant of the loop.**  `done` are the names upgraded so far: their old stanzas are
gone and their new ones stand behind the others, and the world has the lines it had. -/
structure Progress (host : Host) (ix : Bytes) (ss : List Stanza) (ws : List Bytes) (lo : ℕ)
    (done : List Bytes) (news : List Stanza) (s : State) : Prop where
  holds : Holds s (ss.filter (fun st => st.name ∉ done) ++ news)
  nodup : (news.map Stanza.name).Nodup
  named : ∀ n, n ∈ news.map Stanza.name ↔ n ∈ done
  came : ∀ st ∈ news, CameFrom host lo s.calls st
  outdated : ∀ n ∈ done, n ∈ ws ∧ Outdated ix (render ss) n
  calls : lo ≤ s.calls
  world : ∃ vs, WorldLines s vs ∧ ∀ l, l ∈ vs ↔ l ∈ ws

section Loop

variable {host : Host} {ix : Bytes} {ss : List Stanza} {ws : List Bytes} {lo : ℕ}
  (hready : Upgradable host ix ss ws lo)

include hready in
theorem Upgradable.name_of_suffix {n : Bytes} (hn : n ∈ ws) {st : Stanza} (hst : st ∈ ss)
    (hend : nameLine n <:+ nameLine st.name) : st.name = n := by
  have hline : nameLine st.name ∈ dbLines ss :=
    List.mem_flatMap.mpr ⟨st, hst, nameLine_mem_lines_iff.mpr rfl⟩
  exact List.append_cancel_left (hready.clear n hn _ hline hend)

include hready in
/-- `db_ver` on stanzas with the names of the old ones. -/
theorem Upgradable.dbVer {n : Bytes} (hn : n ∈ ws) (hplain : nl ∉ n) {ts : List Stanza}
    (hts : ∀ st ∈ ts, Named ss st.name) :
    dbVer (render ts) n = (ts.find? fun st => st.name = n).map Stanza.ver := by
  refine dbVer_render hplain fun st hst hend => ?_
  obtain ⟨old, hold, hname⟩ := hts st hst
  rw [← hname] at hend ⊢
  exact hready.name_of_suffix hn hold hend

include hready in
theorem Upgradable.named {n : Bytes} (hn : n ∈ ws) (hplain : nl ∉ n)
    (hout : Outdated ix (render ss) n) : Named ss n := by
  obtain ⟨iv, dv, -, hdv, -⟩ := hout
  rw [hready.dbVer hn hplain fun st hst => ⟨st, hst, rfl⟩] at hdv
  obtain ⟨st, hst, -⟩ := Option.map_eq_some_iff.mp hdv
  exact ⟨st, List.mem_of_find?_eq_some hst, by simpa using List.find?_some hst⟩

variable {done : List Bytes} {news : List Stanza} {s : State}
  (h : Progress host ix ss ws lo done news s)

include h in
/-- Every name of the world is a package name. -/
theorem Progress.pkgName {n : Bytes} (hn : n ∈ ws) : PkgName n := by
  obtain ⟨vs, hvs, hmem⟩ := h.world
  exact hvs.names n ((hmem n).mpr hn)

include hready h in
/-- New stanzas have names of old ones. -/
theorem Progress.named_old {st : Stanza} (hst : st ∈ news) : Named ss st.name := by
  obtain ⟨hin, hout⟩ := h.outdated _ ((h.named _).mp (List.mem_map_of_mem hst))
  exact hready.named hin (h.pkgName hin).2.2.1 hout

include hready h in
/-- No name comes twice. -/
theorem Progress.unique :
    ((ss.filter (fun st => st.name ∉ done) ++ news).map Stanza.name).Nodup := by
  rw [List.map_append, List.nodup_append]
  refine ⟨hready.unique.sublist (List.filter_sublist.map _), h.nodup, fun a ha b hb heq => ?_⟩
  obtain ⟨st, hst, rfl⟩ := List.mem_map.mp ha
  rw [← heq, h.named] at hb
  have hno := (List.mem_filter.mp hst).2
  rw [decide_eq_true_eq] at hno
  exact hno hb

include hready h in
/-- An outdated package is installed, and the search finds its name line. -/
theorem Progress.first {n : Bytes} (hn : n ∈ ws) (hout : Outdated ix (render ss) n)
    (htwice : n ∈ done → 1 < ws.count n) :
    Named (ss.filter (fun st => st.name ∉ done) ++ news) n ∧
      NameLineFirst (ss.filter (fun st => st.name ∉ done) ++ news) n := by
  obtain ⟨old, hold, rfl⟩ := hready.named hn (h.pkgName hn).2.2.1 hout
  have hclear : ∀ l ∈ dbLines (ss.filter fun st => st.name ∉ done), nameLine old.name <:+ l →
      l = nameLine old.name := by
    intro l hl
    obtain ⟨st, hst, hmem⟩ := List.mem_flatMap.mp hl
    exact hready.clear _ hn l (List.mem_flatMap.mpr ⟨st, List.mem_of_mem_filter hst, hmem⟩)
  by_cases hdone : old.name ∈ done
  · -- it is upgraded once more, and no new stanza misleads the search
    have hnews : ∀ l ∈ dbLines news, nameLine old.name <:+ l → l = nameLine old.name := by
      intro l hl hend
      obtain ⟨st, hst, hmem⟩ := List.mem_flatMap.mp hl
      refine NoTail.line (fun b hb => ?_) hmem hend
      obtain ⟨hin, hout'⟩ := h.outdated _ ((h.named _).mp (List.mem_map_of_mem hst))
      obtain ⟨i, tar, hlo, -, htar, hver, hdesc, hpaths⟩ := h.came st hst
      rcases List.mem_cons.mp hb with rfl | hb
      · intro hsuf
        obtain ⟨old', hold', hname'⟩ := h.named_old hready hst
        have hend' : nameLine old.name <:+ nameLine old'.name := by
          rw [hname']
          exact hsuf.trans (List.suffix_append _ _)
        have heq := hready.name_of_suffix hn hold' hend'
        rw [← hname', heq] at hsuf
        have hlen := hsuf.length_le
        rw [nameLine, List.length_append] at hlen
        have hkey : (ascii "P:").length = 2 := rfl
        omega
      · rw [hver, hdesc, hpaths] at hb
        exact hready.twice _ hn (htwice hdone) _ hin hout' i tar hlo htar b hb
    obtain ⟨st, hst, hname⟩ := List.mem_map.mp ((h.named _).mpr hdone)
    exact ⟨⟨st, List.mem_append_right _ hst, hname⟩, nameLineFirst_of_clear hclear (Or.inr hnews)⟩
  · have hkept : Named (ss.filter fun st => st.name ∉ done) old.name :=
      ⟨old, List.mem_filter.mpr ⟨hold, decide_eq_true hdone⟩, rfl⟩
    obtain ⟨st, hst, hname⟩ := hkept
    exact ⟨⟨st, List.mem_append_left _ hst, hname⟩,
      nameLineFirst_of_clear hclear (Or.inl ⟨st, hst, hname⟩)⟩

include hready h in
/-- No stanza of an outdated package owns the world. -/
theorem Progress.spares {n : Bytes} (hn : n ∈ ws) (hout : Outdated ix (render ss) n) :
    ∀ st ∈ ss.filter (fun st => st.name ∉ done) ++ news, st.name = n →
      ∀ p ∈ st.paths, keyOf (absolutize host.cwd p) ≠ some worldRef.key := by
  rintro st hst rfl p hp
  rcases List.mem_append.mp hst with hst | hst
  · exact hready.spares st (List.mem_of_mem_filter hst) hn hout p hp
  · obtain ⟨i, tar, hlo, -, htar, -, -, hpaths⟩ := h.came st hst
    rw [hpaths] at hp
    obtain ⟨m, hm, rfl⟩ := List.mem_map.mp hp
    rw [absolutize_absPath]
    exact (hready.good _ hn hout i tar hlo htar).1.world m hm

include hready h in
/-- **One step**: an outdated line replaces its package. -/
theorem Progress.line {n : Bytes} (hn : n ∈ ws) (hout : Outdated ix (render ss) n)
    (htwice : n ∈ done → 1 < ws.count n) (hsafe : canReplace host ix (render ss) n s) :
    ∃ news' s', upgradeLine host ix (render ss) n s = (some (0, 1), s') ∧
      Progress host ix ss ws lo (n :: done) news' s' := by
  obtain ⟨tar, hdelivered, hrep⟩ := hsafe hout
  rcases hup : upgradeLine host ix (render ss) n s with ⟨r, s'⟩
  rcases upgradeLine_cases hup with ⟨hnot, -⟩ | ⟨-, ⟨hnot, -⟩ |
    ⟨tar', mid, rd, s1, ri, htar, -, -, hcalls, hfile, hfetched, hdel, hinst, rfl⟩⟩
  · exact absurd hout hnot
  · exact absurd hdelivered (hnot tar)
  -- fetched, removed and installed: one step of `replace_stanza`
  obtain rfl : tar = tar' := Except.ok.inj (hdelivered.1.symm.trans htar)
  have hmid : Holds mid (ss.filter (fun st => st.name ∉ done) ++ news) := by
    rw [Holds, hfile, Function.update_of_ne dbRef_ne_tartmpRef]
    exact h.holds
  obtain ⟨vs, hvs, hmem⟩ := h.world
  obtain ⟨hnamed, hfirst⟩ := h.first hready hn hout htwice
  obtain ⟨s1', st, s'', hdel', hinst', hname, hver, hdesc, hpaths, hholds, hcalls', vs', hvs',
    hmem'⟩ := replace_stanza hmid (h.unique hready) hnamed hfirst (h.spares hready hn hout)
      (hvs.of_eq (file_world_of_fetch hfile)) ((hmem n).mpr hn)
      (hready.good n hn hout _ tar h.calls htar).1 hfetched hrep
  obtain rfl : s1 = s1' := (Prod.mk.inj (hdel.symm.trans hdel')).2
  obtain ⟨rfl, rfl⟩ := Prod.mk.inj (hinst.symm.trans hinst')
  refine ⟨news.filter (fun x => x.name ≠ n) ++ [st], s', rfl, ?_, ?_, ?_, ?_, ?_, ?_, vs', hvs', ?_⟩
  · -- the stanza that went is an old one, or a new one of a name that stands twice in the world
    have hsplit : (ss.filter (fun st => st.name ∉ done) ++ news).filter (fun x => x.name ≠ n)
        = ss.filter (fun st => st.name ∉ n :: done) ++ news.filter fun x => x.name ≠ n := by
      rw [List.filter_append, List.filter_filter]
      congr 2
      funext x
      simp [not_or]
    rwa [hsplit, List.append_assoc] at hholds
  · rw [List.map_append, List.map_singleton, hname, List.nodup_append]
    refine ⟨h.nodup.sublist (List.filter_sublist.map _), List.nodup_singleton _, ?_⟩
    rintro a ha b hb rfl
    obtain ⟨x, hx, rfl⟩ := List.mem_map.mp ha
    have hne := (List.mem_filter.mp hx).2
    rw [decide_eq_true_eq] at hne
    exact hne (List.mem_singleton.mp hb)
  · intro m
    rw [List.map_append, List.map_singleton, hname, List.mem_append, List.mem_singleton,
      List.mem_cons, or_comm]
    refine or_congr_right' fun hm => ?_
    rw [← h.named]
    constructor
    · intro hx
      exact (List.filter_sublist.map _).subset hx
    · intro hx
      obtain ⟨x, hin, rfl⟩ := List.mem_map.mp hx
      exact List.mem_map.mpr ⟨x, List.mem_filter.mpr ⟨hin, decide_eq_true hm⟩, rfl⟩
  · intro x hx
    rcases List.mem_append.mp hx with hx | hx
    · obtain ⟨i, t, hlo, hhi, hrest⟩ := h.came x (List.mem_of_mem_filter hx)
      exact ⟨i, t, hlo, by omega, hrest⟩
    · -- the new stanza comes from the call just made
      obtain rfl := List.mem_singleton.mp hx
      exact ⟨s.calls, tar, h.calls, by omega, by rw [hname, htar], hver, hdesc, hpaths⟩
  · intro m hm
    rcases List.mem_cons.mp hm with rfl | hm
    · exact ⟨hn, hout⟩
    · exact h.outdated m hm
  · have := h.calls
    omega
  · intro l
    rw [hmem', hmem]

/-- A line that is not outdated does nothing. -/
theorem upgradeLine_current {db n : Bytes} (hout : ¬ Outdated ix db n) (s : State) :
    upgradeLine host ix db n s = (some (0, 0), s) := by
  rcases hup : upgradeLine host ix db n s with ⟨r, s'⟩
  rcases upgradeLine_cases hup with ⟨-, rfl, rfl⟩ | ⟨hyes, -⟩
  · rfl
  · exact absurd hyes hout

include hready in
/-- **The loop** over the rest of the world: it returns, and in the end exactly the outdated names
of the world are upgraded. -/
theorem Progress.each {before rest : List Bytes} (hws : ws = before ++ rest)
    {done : List Bytes} {news : List Stanza} {s : State}
    (h : Progress host ix ss ws lo done news s) (hdone : ∀ n ∈ done, n ∈ before)
    (hall : ∀ n ∈ before, Outdated ix (render ss) n → n ∈ done)
    (hsafe : EachSafe (upgradeLine host ix (render ss)) (canReplace host ix (render ss)) rest s) :
    ∃ rs done' news' s', each (upgradeLine host ix (render ss)) rest s = (some rs, s') ∧
      (∀ r ∈ rs, r.1 = 0) ∧ Progress host ix ss ws lo done' news' s' ∧
      ∀ n ∈ ws, Outdated ix (render ss) n → n ∈ done' := by
  induction rest generalizing before done news s with
  | nil =>
    rw [List.append_nil] at hws
    exact ⟨[], done, news, s, rfl, by simp, h, hws ▸ hall⟩
  -- `db` was read before the loop: a name is compared with what was installed then
  | cons n rest ih =>
    obtain ⟨hline, hrest⟩ := hsafe
    have hn : n ∈ ws := by rw [hws]; simp
    have hws' : ws = (before ++ [n]) ++ rest := by rw [hws]; simp
    by_cases hout : Outdated ix (render ss) n
    · have htwice : n ∈ done → 1 < ws.count n := by
        intro hmem
        have hpos := List.count_pos_iff.mpr (hdone n hmem)
        rw [hws, List.count_append, List.count_cons_self]
        omega
      obtain ⟨news', mid, hup, hmid⟩ := h.line hready hn hout htwice hline
      rw [hup] at hrest
      obtain ⟨rs, done', news'', s', heach, hzero, hend, hout'⟩ := ih hws' hmid
        (fun m hm => by
          rcases List.mem_cons.mp hm with rfl | hm
          · simp
          · exact List.mem_append_left _ (hdone m hm))
        (fun m hm hm' => by
          rcases List.mem_append.mp hm with hm | hm
          · exact List.mem_cons_of_mem _ (hall m hm hm')
          · rw [List.mem_singleton.mp hm]
            exact List.mem_cons_self)
        (hrest rfl)
      refine ⟨(0, 1) :: rs, done', news'', s', ?_, ?_, hend, hout'⟩
      · rw [Apk.each, hup, Result.andThen_some, heach, Result.andThen_some]
      · intro r hr
        rcases List.mem_cons.mp hr with rfl | hr
        · rfl
        · exact hzero r hr
    · -- the line asks for nothing
      have hup := @upgradeLine_current host _ _ _ hout s
      rw [hup] at hrest
      obtain ⟨rs, done', news', s', heach, hzero, hend, hout'⟩ := ih hws' h
        (fun m hm => List.mem_append_left _ (hdone m hm))
        (fun m hm hm' => by
          rcases List.mem_append.mp hm with hm | hm
          · exact hall m hm hm'
          · exact absurd (List.mem_singleton.mp hm ▸ hm') hout)
        (hrest rfl)
      refine ⟨(0, 0) :: rs, done', news', s', ?_, ?_, hend, hout'⟩
      · rw [Apk.each, hup, Result.andThen_some, heach, Result.andThen_some]
      · intro r hr
        rcases List.mem_cons.mp hr with rfl | hr
        · rfl
        · exact hzero r hr

end Loop

/-! ## The command -/

/-- What an upgrade from `s` with stanzas `ss` and world `ws` has reached in `s'`. -/
structure Converged (host : Host) (ix : Bytes) (ss : List Stanza) (ws : List Bytes) (s s' : State)
    (ss' : List Stanza) : Prop where
  holds : Holds s' ss'
  /-- The same packages are installed. -/
  names : (ss'.map Stanza.name).Perm (ss.map Stanza.name)
  /-- A package of the world is at the version of the index, and has been registered with the
  files of an archive that was fetched if it was not. -/
  version : ∀ n ∈ ws, ∀ iv dv, indexVer ix n = some iv → iv.head? ≠ some 63 →
    dbVer (readFileOrEmpty s dbPath) n = some dv →
    dbVer (readFileOrEmpty s' dbPath) n = some iv ∧
      (iv ≠ dv → ∃ st ∈ ss', st.name = n ∧ ∃ i tar, s.calls < i ∧ i < s'.calls ∧
        host.fetch i n = .ok tar ∧ st.paths = archivePaths tar)
  /-- The other packages are as they were. -/
  others : ∀ st ∈ ss, st.name ∉ ws ∨ indexVer ix st.name = none → st ∈ ss'
  world : ∃ ws', worldRaw s' = unlines nl ws' ∧ ∀ l, l ∈ ws' ↔ l ∈ ws
  /-- A second upgrade with the same index fetches nothing and changes no file. -/
  again : ∀ host' : Host, ∀ raw, host'.index s'.calls = .ok raw → cstr raw = ix →
    (upgrade host' s').1 = some 0 ∧ (upgrade host' s').2.tree = s'.tree ∧
      (upgrade host' s').2.calls = s'.calls + 1

theorem each_current {host : Host} {ix db : Bytes} {ns : List Bytes}
    (h : ∀ n ∈ ns, ¬ Outdated ix db n) (s : State) :
    each (upgradeLine host ix db) ns s = (some (ns.map fun _ => (0, 0)), s) := by
  induction ns with
  | nil => rfl
  | cons n ns ih =>
    rw [each, upgradeLine_current (h n List.mem_cons_self) s, Result.andThen_some,
      ih fun m hm => h m (List.mem_cons_of_mem _ hm), Result.andThen_some, List.map_cons]

theorem orAll_eq_zero {rcs : List ℕ} (h : ∀ rc ∈ rcs, rc = 0) : orAll rcs = 0 := by
  by_contra hne
  obtain ⟨rc, hrc, hne⟩ := (orAll_ne_zero_iff rcs).mp hne
  exact hne (h rc hrc)

/-- Where no name comes twice, a stanza is found by its name. -/
theorem find_name {ts : List Stanza} (hunique : (ts.map Stanza.name).Nodup) {st : Stanza}
    (hst : st ∈ ts) : (ts.find? fun x => x.name = st.name) = some st := by
  cases hfind : ts.find? fun x => x.name = st.name with
  | none => exact absurd (decide_eq_true rfl) (List.find?_eq_none.mp hfind st hst)
  | some x =>
    have hname : x.name = st.name := by simpa using List.find?_some hfind
    rw [List.inj_on_of_nodup_map hunique (List.mem_of_find?_eq_some hfind) hst hname]

section Command

variable {host : Host} {ix : Bytes} {ss : List Stanza} {ws : List Bytes} {lo : ℕ}
  (hready : Upgradable host ix ss ws lo) {done : List Bytes} {news : List Stanza} {s : State}
  (h : Progress host ix ss ws lo done news s)

include hready h in
theorem Progress.perm :
    ((ss.filter (fun st => st.name ∉ done) ++ news).map Stanza.name).Perm
      (ss.map Stanza.name) := by
  rw [List.perm_ext_iff_of_nodup (h.unique hready) hready.unique]
  intro n
  constructor
  · intro hn
    obtain ⟨st, hst, rfl⟩ := List.mem_map.mp hn
    rcases List.mem_append.mp hst with hst | hst
    · exact List.mem_map_of_mem (List.mem_of_mem_filter hst)
    · obtain ⟨old, hold, hname⟩ := h.named_old hready hst
      exact List.mem_map.mpr ⟨old, hold, hname⟩
  · intro hn
    obtain ⟨st, hst, rfl⟩ := List.mem_map.mp hn
    rw [List.map_append, List.mem_append]
    by_cases hdone : st.name ∈ done
    · exact Or.inr ((h.named _).mpr hdone)
    · exact Or.inl (List.mem_map_of_mem (List.mem_filter.mpr ⟨hst, decide_eq_true hdone⟩))

include hready h in
theorem Progress.dbVer {st : Stanza} (hin : st.name ∈ ws)
    (hst : st ∈ ss.filter (fun st => st.name ∉ done) ++ news) :
    Apk.dbVer (render (ss.filter (fun st => st.name ∉ done) ++ news)) st.name = some st.ver := by
  rw [hready.dbVer hin (h.pkgName hin).2.2.1, find_name (h.unique hready) hst, Option.map_some]
  intro x hx
  have hmem := (h.perm hready).subset (List.mem_map_of_mem hx)
  obtain ⟨old, hold, hname⟩ := List.mem_map.mp hmem
  exact ⟨old, hold, hname⟩

include hready h in
/-- The version of a package of the world after the loop. -/
theorem Progress.version (hall : ∀ n ∈ ws, Outdated ix (render ss) n → n ∈ done) {n iv dv : Bytes}
    (hn : n ∈ ws) (hiv : indexVer ix n = some iv) (hknown : iv.head? ≠ some 63)
    (hdv : Apk.dbVer (render ss) n = some dv) :
    Apk.dbVer (render (ss.filter (fun st => st.name ∉ done) ++ news)) n = some iv ∧
      (iv ≠ dv → ∃ st ∈ ss.filter (fun st => st.name ∉ done) ++ news, st.name = n ∧
        ∃ i tar, lo ≤ i ∧ i < s.calls ∧ host.fetch i n = .ok tar ∧
          st.paths = archivePaths tar) := by
  by_cases hdone : n ∈ done
  · obtain ⟨st, hst, rfl⟩ := List.mem_map.mp ((h.named n).mpr hdone)
    obtain ⟨i, tar, hlo, hhi, htar, hver, -, hpaths⟩ := h.came st hst
    have hmem := List.mem_append_right (ss.filter fun st => st.name ∉ done) hst
    have hgood := (hready.good _ hn (h.outdated _ hdone).2 i tar hlo htar).2
    rw [hiv, Option.some.injEq] at hgood
    rw [h.dbVer hready hn hmem, hver, hgood]
    exact ⟨rfl, fun _ => ⟨st, hmem, rfl, i, tar, hlo, hhi, htar, hpaths⟩⟩
  · have hsame : iv = dv := by
      by_contra hne
      exact hdone (hall n hn ⟨iv, dv, hiv, hdv, hknown, hne⟩)
    rw [hready.dbVer hn (h.pkgName hn).2.2.1 fun st hst => ⟨st, hst, rfl⟩] at hdv
    obtain ⟨st, hst, rfl⟩ := Option.map_eq_some_iff.mp hdv
    obtain rfl : st.name = n := by simpa using List.find?_some hst
    have hmem : st ∈ ss.filter (fun st => st.name ∉ done) ++ news :=
      List.mem_append_left _ (List.mem_filter.mpr
        ⟨List.mem_of_find?_eq_some hst, decide_eq_true hdone⟩)
    rw [h.dbVer hready hn hmem, hsame]
    exact ⟨rfl, fun hne => absurd rfl hne⟩

include hready h in
/-- After the loop nothing is outdated. -/
theorem Progress.current (hall : ∀ n ∈ ws, Outdated ix (render ss) n → n ∈ done) {n : Bytes}
    (hn : n ∈ ws) :
    ¬ Outdated ix (render (ss.filter (fun st => st.name ∉ done) ++ news)) n := by
  rintro ⟨iv, dv', hiv, hdv', hknown, hne⟩
  have hplain := (h.pkgName hn).2.2.1
  have hnamed : ∀ st ∈ ss.filter (fun st => st.name ∉ done) ++ news, Named ss st.name := by
    intro x hx
    obtain ⟨old, hold, hname⟩ :=
      List.mem_map.mp ((h.perm hready).subset (List.mem_map_of_mem hx))
    exact ⟨old, hold, hname⟩
  -- it is installed, so it was before
  have hdv := hdv'
  rw [hready.dbVer hn hplain hnamed] at hdv
  obtain ⟨st, hst, -⟩ := Option.map_eq_some_iff.mp hdv
  obtain ⟨old, hold, hname⟩ := hnamed st (List.mem_of_find?_eq_some hst)
  obtain rfl : st.name = n := by simpa using List.find?_some hst
  have hold' : Apk.dbVer (render ss) st.name = some old.ver := by
    rw [hready.dbVer hn hplain fun x hx => ⟨x, hx, rfl⟩, ← hname, find_name hready.unique hold,
      Option.map_some]
  have hnow := (h.version hready hall hn hiv hknown hold').1
  rw [hdv', Option.some.injEq] at hnow
  exact hne hnow.symm

end Command

theorem readFileOrEmpty_of_holds {s : State} {ss : List Stanza} (h : Holds s ss) :
    readFileOrEmpty s dbPath = render ss := by
  rw [readFileOrEmpty_db, h.textOf]

/-- An upgrade that finds nothing outdated only asks for the index. -/
theorem upgrade_current {host : Host} {s : State} {ss : List Stanza} {vs : List Bytes}
    {raw : Bytes} (hix : host.index s.calls = .ok raw) (hs : Holds s ss) (hvs : WorldLines s vs)
    (hcur : ∀ n ∈ vs, ¬ Outdated (cstr raw) (render ss) n) :
    (upgrade host s).1 = some 0 ∧ (upgrade host s).2.tree = s.tree ∧
      (upgrade host s).2.calls = s.calls + 1 := by
  have hdb : readFileOrEmpty { s with calls := s.calls + 1 } dbPath = render ss :=
    readFileOrEmpty_of_holds hs
  have htokens : tokens nl (readFileOrEmpty { s with calls := s.calls + 1 } worldPath) = vs :=
    hvs.tokens
  rw [upgrade, getIndex_ok hix, Result.andThen_some]
  simp only [hdb, htokens]
  rw [each_current hcur, Result.andThen_some]
  refine ⟨congrArg some (orAll_eq_zero fun rc hrc => ?_), rfl, rfl⟩
  obtain ⟨r, hr, rfl⟩ := List.mem_map.mp hrc
  obtain ⟨n, -, rfl⟩ := List.mem_map.mp hr
  rfl

/-- **An upgrade converges.** -/
theorem upgrade_converges {host : Host} {s : State} {ss : List Stanza} {ws : List Bytes}
    {raw : Bytes} (hix : host.index s.calls = .ok raw) (hs : Holds s ss) (hws : WorldLines s ws)
    (hready : Upgradable host (cstr raw) ss ws (s.calls + 1))
    (hsafe : EachSafe (upgradeLine host (cstr raw) (render ss))
      (canReplace host (cstr raw) (render ss)) ws { s with calls := s.calls + 1 }) :
    (upgrade host s).1 = some 0 ∧
      ∃ ss', Converged host (cstr raw) ss ws s (upgrade host s).2 ss' := by
  have hstart : Progress host (cstr raw) ss ws (s.calls + 1) [] []
      { s with calls := s.calls + 1 } := by
    refine ⟨?_, List.nodup_nil, by simp, by simp, by simp, le_rfl, ws, ⟨hws.raw, hws.names⟩,
      fun l => Iff.rfl⟩
    simpa [Holds] using hs
  obtain ⟨rs, done, news, sf, heach, hzero, hend, hall⟩ :=
    hstart.each hready (show ws = [] ++ ws from rfl) (by simp) (by simp) hsafe
  let ss' := ss.filter (fun st => st.name ∉ done) ++ news
  -- the three texts are read once, and the loop runs over them
  have hup : upgrade host s = (some 0, sf.say (ascii "OK: " ++
      asciiDecimal (rs.map Prod.snd).sum ++ ascii " package(s) upgraded" ++ [nl])) := by
    have hdb : readFileOrEmpty { s with calls := s.calls + 1 } dbPath = render ss :=
      readFileOrEmpty_of_holds hs
    have htokens : tokens nl (readFileOrEmpty { s with calls := s.calls + 1 } worldPath) = ws :=
      hws.tokens
    have hrc : orAll (rs.map Prod.fst) = 0 := by
      refine orAll_eq_zero fun rc hrc => ?_
      obtain ⟨r, hr, rfl⟩ := List.mem_map.mp hrc
      exact hzero r hr
    rw [upgrade, getIndex_ok hix, Result.andThen_some]
    simp only [hdb, htokens]
    rw [heach, Result.andThen_some, hrc]
  rw [hup]
  have hread : readFileOrEmpty s dbPath = render ss := readFileOrEmpty_of_holds hs
  have hread' : ∀ text, readFileOrEmpty (sf.say text) dbPath = render ss' := fun text =>
    readFileOrEmpty_of_holds hend.holds
  obtain ⟨vs, hvs, hmem⟩ := hend.world
  refine ⟨rfl, ss', hend.holds, hend.perm hready, ?_, ?_, ⟨vs, hvs.raw, hmem⟩, ?_⟩
  · intro n hn iv dv hiv hknown hdv
    rw [hread] at hdv
    rw [hread']
    obtain ⟨hver, hnew⟩ := hend.version hready hall hn hiv hknown hdv
    refine ⟨hver, fun hne => ?_⟩
    obtain ⟨st, hst, hname, i, tar, hlo, hhi, htar, hpaths⟩ := hnew hne
    exact ⟨st, hst, hname, i, tar, hlo, hhi, htar, hpaths⟩
  · -- a stanza that no line upgrades stays
    intro st hst hother
    refine List.mem_append_left _ (List.mem_filter.mpr ⟨hst, decide_eq_true fun hdone => ?_⟩)
    obtain ⟨hin, iv, dv, hiv, -⟩ := hend.outdated _ hdone
    rcases hother with hout | hnone
    · exact hout hin
    · rw [hnone] at hiv
      cases hiv
  · -- a second run with the same index finds nothing to do
    intro host' raw' hix' hraw'
    have hcur : ∀ n ∈ vs, ¬ Outdated (cstr raw') (render ss') n := by
      intro n hn
      rw [hraw']
      exact hend.current hready hall ((hmem n).mp hn)
    exact upgrade_current hix' hend.holds ⟨hvs.raw, hvs.names⟩ hcur

/-! ## A new version of `less` -/

theorem reinstallable_of_check {host : Host} {n tar : Bytes} {s : State}
    (hself : ∀ m ∈ members tar, keyOf (absPath m.1) ≠ some tartmpRef.key)
    (h : (fetchedTree s tar).map (fun t =>
      decide ((doDel host n ⟨t, 0, []⟩).2.tree.file tartmpRef.key = some tar ∧ Complete tar ∧
        (writeMembers (doDel host n ⟨t, 0, []⟩).2.tree (members tar)).isSome)) = some true) :
    (fetchedTree s tar).isSome ∧ Reinstallable host n s tar := by
  obtain ⟨t, ht, hcheck⟩ := Option.map_eq_some_iff.mp h
  obtain ⟨hfile, hcomplete, hwrite⟩ := of_decide_eq_true hcheck
  refine ⟨by rw [ht]; rfl, hself, fun mid hmid => ?_⟩
  have htree : mid.tree = (⟨t, 0, []⟩ : State).tree := Option.some.inj (hmid.symm.trans ht)
  rw [doDel_congr htree host n]
  exact ⟨hfile, hcomplete, hwrite⟩

/-- An archive of version `661-r0` with one file. -/
def archive661 (name : String) (data : Bytes) : Bytes :=
  (addfile (".PKGINFO".toList, ascii "pkgver = 661-r0\n")).getD [] ++
    (addfile (name.toList, data)).getD [] ++ List.replicate 1024 0

def newTar : Bytes := archive661 "usr/share/terminfo/x/xterm" [26, 2]

theorem wellFormed_newTar : WellFormed newTar := by
  have hmem : members newTar = [(ascii "usr/share/terminfo/x/xterm", [26, 2])] := by
    decide +kernel
  refine ⟨by decide +kernel, ?_, ?_, ?_, ?_⟩
  all_goals
    rw [hmem]
    decide

theorem upgrade_converges_less :
    ∃ ss', Converged (laterHost (.ok newTar)) (cstr (ascii "less 661-r0 12 pager\n")) [lessStanza]
      [ascii "less"] (lessAdded (.ok newTar))
      (upgrade (laterHost (.ok newTar)) (lessAdded (.ok newTar))).2 ss' := by
  have hholds : Holds (lessAdded (.ok newTar)) [lessStanza] := by
    unfold Holds
    decide +kernel
  have hworld : WorldLines (lessAdded (.ok newTar)) [ascii "less"] :=
    ⟨by decide +kernel, by decide⟩
  have hcalls : (lessAdded (.ok newTar)).calls = 1 := by decide +kernel
  have htar : ∀ i n tar, 1 + 1 ≤ i → (laterHost (.ok newTar)).fetch i n = .ok tar →
      tar = newTar := by
    intro i n tar hi hfetch
    have hne : i ≠ 0 := by omega
    simp only [laterHost, if_neg hne] at hfetch
    exact (Except.ok.inj hfetch).symm
  have hready : Upgradable (laterHost (.ok newTar)) (cstr (ascii "less 661-r0 12 pager\n"))
      [lessStanza] [ascii "less"] ((lessAdded (.ok newTar)).calls + 1) := by
    rw [hcalls]
    refine ⟨by decide, by decide, ?_, ?_, ?_⟩
    · intro n hn _ i tar hi hfetch
      rw [htar i n tar hi hfetch, List.mem_singleton.mp hn]
      exact ⟨wellFormed_newTar, by decide +kernel⟩
    · intro st hst _ _
      rw [List.mem_singleton.mp hst]
      decide
    · intro n hn hcount
      rw [List.mem_singleton.mp hn] at hcount
      exact absurd hcount (by decide)
  have hsafe : EachSafe (upgradeLine (laterHost (.ok newTar))
      (cstr (ascii "less 661-r0 12 pager\n")) (render [lessStanza]))
      (canReplace (laterHost (.ok newTar)) (cstr (ascii "less 661-r0 12 pager\n"))
        (render [lessStanza])) [ascii "less"]
      { lessAdded (.ok newTar) with calls := (lessAdded (.ok newTar)).calls + 1 } := by
    refine ⟨fun _ => ⟨newTar, ?_⟩, fun _ => trivial⟩
    obtain ⟨hroom, hrep⟩ := @reinstallable_of_check (laterHost (.ok newTar)) (ascii "less") newTar
      { lessAdded (.ok newTar) with calls := (lessAdded (.ok newTar)).calls + 1 }
      wellFormed_newTar.tartmp (by decide +kernel)
    exact ⟨⟨by rw [hcalls]; rfl, hroom⟩, hrep⟩
  -- the state is closed, and elaborating against it would run the loop
  generalize lessAdded (.ok newTar) = s at hholds hworld hready hsafe ⊢
  exact (upgrade_converges rfl hholds hworld hready hsafe).2

/-- An archive that ships the world. -/
def shippingTar : Bytes := archive661 "etc/apk/world" (ascii "x\n")

/-- The index, the database and the world are in order and the archive has the version of the
index, but it brings a world of its own: a line `x` that was not there. -/
theorem upgrade_adds_line :
    Holds (lessAdded (.ok shippingTar)) [lessStanza] ∧
    (∀ l ∈ dbLines [lessStanza], nameLine (ascii "less") <:+ l → l = nameLine (ascii "less")) ∧
    worldRaw (lessAdded (.ok shippingTar)) = unlines nl [ascii "less"] ∧
    indexVer (ascii "less 661-r0 12 pager\n") (ascii "less") = some (archiveVer shippingTar) ∧
    (upgrade (laterHost (.ok shippingTar)) (lessAdded (.ok shippingTar))).1 = some 0 ∧
    worldRaw (upgrade (laterHost (.ok shippingTar)) (lessAdded (.ok shippingTar))).2
      = unlines nl [ascii "x", ascii "less"] := by
  unfold Holds
  decide +kernel

end OsMoap.Apk
