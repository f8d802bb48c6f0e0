import OsMoap.Apk.World
import OsMoap.Apk.Truncation

/-!
# `apk`: Rebuilding the Database at Boot

`sync-world` removes the database and calls `do_add` on each line of the world.  A name that comes
twice is found installed the second time, a name whose fetch fails is passed over, and the world is
only read.

`syncWorld_rebuilds` is about the whole loop: for well-formed archives that find room when their
turn comes, the database ends up with one stanza for each name that could be fetched, in the order
of first occurrence.
-/

namespace OsMoap.Apk

open OsMoap.Lib
open OsMoap.Pack (Bytes addfile)

/-! ## Well-formed archives -/

/-- An archive that is not cut short, with member names of one line, none of them a file that the
applet keeps for itself. -/
structure WellFormed (tar : Bytes) : Prop where
  complete : Complete tar
  oneLine : ∀ m ∈ members tar, nl ∉ m.1
  db : ∀ m ∈ members tar, keyOf (absPath m.1) ≠ some dbRef.key
  world : ∀ m ∈ members tar, keyOf (absPath m.1) ≠ some worldRef.key
  tartmp : ∀ m ∈ members tar, keyOf (absPath m.1) ≠ some tartmpRef.key

/-- The version an archive is registered with. -/
def archiveVer (tar : Bytes) : Bytes := piGet ((pkginfoOf tar).getD []) (ascii "pkgver")

/-- The description an archive is registered with. -/
def archiveDesc (tar : Bytes) : Bytes := piGet ((pkginfoOf tar).getD []) (ascii "pkgdesc")

/-- The paths an archive is registered with. -/
def archivePaths (tar : Bytes) : List Bytes := (members tar).map fun m => absPath m.1

theorem not_mem_pkginfoFrom {content : Bytes} {fuel off : ℕ} {pkginfo : Option Bytes}
    (h : 0 ∉ pkginfo.getD []) : 0 ∉ (pkginfoFrom content fuel off pkginfo).getD [] := by
  induction fuel generalizing off pkginfo with
  | zero => exact h
  | succ fuel ih =>
    rw [pkginfoFrom]
    cases hstep : tarStep content off with
    | stop => exact h
    | truncated => exact h
    | skip next => exact ih h
    | pkginfo data next => exact ih (not_mem_of_tarStep_pkginfo hstep)
    | member name data next => exact ih h

theorem plain_archive (tar : Bytes) : Plain (archiveVer tar) ∧ Plain (archiveDesc tar) := by
  have hnul : 0 ∉ (pkginfoOf tar).getD [] := not_mem_pkginfoFrom (by simp)
  exact ⟨(not_mem_piGet hnul _).symm, (not_mem_piGet hnul _).symm⟩

/-- The stanza a well-formed archive is registered with. -/
theorem WellFormed.exists_stanza {tar n : Bytes} (h : WellFormed tar) (hn : Plain n) :
    ∃ st : Stanza, st.name = n ∧ st.paths = archivePaths tar ∧
      (st.ver = archiveVer tar ∧ st.desc = archiveDesc tar) ∧
      stanzaText n (archiveVer tar) (archiveDesc tar)
        (unlines nl ((members tar).map fun m => fileLine m.1)) = unlines nl st.lines :=
  Apk.exists_stanza hn (plain_archive tar).1 (plain_archive tar).2 fun m hm =>
    ⟨h.oneLine m hm, not_mem_of_mem_membersFrom hm⟩

/-- An archive finds room in a tree: its members can be written and the database opened then. -/
def HasRoom (t : FileTree Bytes Bytes) (tar : Bytes) : Prop :=
  ∃ t', writeMembers t (members tar) = some t' ∧ DbOpens t'

theorem recordText_of_ne {f : List Bytes → Option Bytes} {recordWorld : Bool} {name : Bytes}
    {k : List Bytes} (hk : k ≠ worldRef.key) : recordText f recordWorld name k = f k := by
  unfold recordText appendText
  split_ifs
  · rw [Function.update_of_ne hk]
  · rfl

/-- What is recorded in the world depends on the world only. -/
theorem recordText_congr {f g : List Bytes → Option Bytes} {recordWorld : Bool} {name : Bytes}
    (h : f worldRef.key = g worldRef.key) :
    recordText f recordWorld name worldRef.key = recordText g recordWorld name worldRef.key := by
  unfold recordText appendText textOf
  rw [h]
  split_ifs
  · rw [Function.update_self, Function.update_self]
  · exact h

/-- **Installing a well-formed archive** that finds room: it returns, the stanza is the last one,
and the world is recorded in if asked. -/
theorem WellFormed.install {tar n : Bytes} {recordWorld : Bool} {s : State} {ss : List Stanza}
    (h : WellFormed tar) (hn : Plain n) (hs : Holds s ss)
    (hfile : s.tree.file tartmpRef.key = some tar) (hroom : HasRoom s.tree tar)
    (hworld : recordWorld = true → (s.tree.file worldRef.key).isSome) :
    ∃ st s', installTarFile n recordWorld s = (some 0, s') ∧ st.name = n ∧
      st.ver = archiveVer tar ∧ st.desc = archiveDesc tar ∧ st.paths = archivePaths tar ∧
      Holds s' (ss ++ [st]) ∧ s'.calls = s.calls ∧
      s'.tree.file worldRef.key = recordText s.tree.file recordWorld n worldRef.key := by
  obtain ⟨t, hwrite, hopen⟩ := hroom
  have hex := tarExtract_of_extracts hfile h.tartmp h.complete hwrite
  have hret := @installTarFile_isSome n recordWorld s _ _ hex hopen hworld
  rcases hinst : installTarFile n recordWorld s with ⟨r, s'⟩
  rw [hinst] at hret
  obtain rfl : r = some 0 := hret
  obtain ⟨hcalls, hfiles⟩ := installTarFile_files hex hinst
  obtain ⟨st, hname, hpaths, ⟨hver, hdesc⟩, htext⟩ := h.exists_stanza hn
  have hkeep : ∀ k, k ≠ tartmpRef.key → (∀ m ∈ members tar, keyOf (absPath m.1) ≠ some k) →
      Function.update t.file tartmpRef.key none k = s.tree.file k := by
    intro k hk hno
    rw [Function.update_of_ne hk, (writeMembers_spec hwrite).2, writeAll_of_forall_ne hno]
  refine ⟨st, s', rfl, hname, hver, hdesc, hpaths, ?_, hcalls, ?_⟩
  · rw [Holds, hfiles, recordText_of_ne dbRef_ne_worldRef, appendText, Function.update_self,
      Option.getD_some, hkeep _ dbRef_ne_tartmpRef h.db, hs]
    rw [← archiveVer, ← archiveDesc, htext, render_append, render_cons]
    simp [render]
  · rw [hfiles]
    refine recordText_congr ?_
    rw [appendText, Function.update_of_ne dbRef_ne_worldRef.symm,
      hkeep _ worldRef_ne_tartmpRef h.world]

/-! ## Finding a stanza by its name -/

/-- No field of a stanza ends in `P:<n>`. -/
def NoTail (n : Bytes) (st : Stanza) : Prop :=
  ∀ b ∈ st.name :: st.ver :: st.desc :: st.paths, ¬ nameLine n <:+ b

theorem suffix_field {n b : Bytes} {c : UInt8} (h : nameLine n <:+ c :: 58 :: b) :
    nameLine n = c :: 58 :: b ∨ nameLine n <:+ b := by
  rcases List.suffix_cons_iff.mp h with h | h
  · exact Or.inl h
  · rcases List.suffix_cons_iff.mp h with h | h
    · exact absurd (List.cons.inj h).1 (by decide)
    · exact Or.inr h

/-- Where no field ends in `P:<n>`, a line that does is the name line. -/
theorem NoTail.line {n l : Bytes} {st : Stanza} (h : NoTail n st) (hl : l ∈ st.lines)
    (hend : nameLine n <:+ l) : l = nameLine n := by
  have hfield : ∀ (c : UInt8) (b : Bytes), b ∈ st.name :: st.ver :: st.desc :: st.paths →
      l = c :: 58 :: b → l = nameLine n := by
    rintro c b hb rfl
    rcases suffix_field hend with heq | hsuf
    · exact heq.symm
    · exact absurd hsuf (h b hb)
  simp only [Stanza.lines, Stanza.body, List.mem_append, List.mem_cons, List.mem_map,
    List.not_mem_nil, or_false] at hl
  rcases hl with (rfl | rfl | rfl | ⟨p, hp, rfl⟩) | rfl
  · exact hfield 80 st.name (by simp) rfl
  · exact hfield 86 st.ver (by simp) rfl
  · exact hfield 84 st.desc (by simp) rfl
  · exact hfield 70 p (by simp [hp]) rfl
  · exact absurd (List.suffix_nil.mp hend) (by simp [nameLine, ascii])

/-- Where no field ends in `P:<n>`, the probe finds the name. -/
theorem probe_iff_named {ss : List Stanza} {n : Bytes} (hn : nl ∉ n)
    (h : ∀ st ∈ ss, NoTail n st) :
    (findSub (probe n) (render ss)).isSome ↔ Named ss n := by
  rw [probe_render_isSome_iff ss hn]
  constructor
  · rintro ⟨l, hl, hend⟩
    obtain ⟨st, hst, hmem⟩ := List.mem_flatMap.mp hl
    rw [(h st hst).line hmem hend] at hmem
    exact ⟨st, hst, nameLine_mem_lines_iff.mp hmem⟩
  · rintro ⟨st, hst, rfl⟩
    exact ⟨nameLine st.name, List.mem_flatMap.mpr ⟨st, hst, nameLine_mem_lines_iff.mpr rfl⟩,
      List.suffix_rfl⟩

/-! ## One line of the world -/

/-- What the page has for a name, whenever it is asked. -/
abbrev Fetch := Bytes → Except Bytes Bytes

/-- The fetch of a name succeeds. -/
def delivers (fetch : Fetch) (n : Bytes) : Bool :=
  match fetch n with
  | .ok _ => true
  | .error _ => false

/-- Neither a name of the world nor a field that one of its archives is registered with ends in
`P:<n>` for a name of the world. -/
def Unambiguous (fetch : Fetch) (names : List Bytes) : Prop :=
  ∀ n ∈ names, ∀ m ∈ names, ¬ nameLine n <:+ m ∧ ∀ tar, fetch m = .ok tar →
    ∀ b ∈ archiveVer tar :: archiveDesc tar :: archivePaths tar, ¬ nameLine n <:+ b

/-- When the turn of a name comes and it is not installed, its archive finds room. -/
def roomFor (fetch : Fetch) (n : Bytes) (s : State) : Prop :=
  findSub (probe n) (readFileOrEmpty s dbPath) = none → ∀ tar, fetch n = .ok tar →
    ∃ t, fetchedTree s tar = some t ∧ HasRoom t tar

section Line

variable {host : Host} {fetch : Fetch} (hfetch : ∀ i n, host.fetch i n = fetch n)
  {n : Bytes} {s : State} {ss : List Stanza} (hs : Holds s ss) (hn : Plain n)
  (hclean : ∀ st ∈ ss, NoTail n st)

include hs hn hclean in
theorem doAdd_named {recordWorld : Bool} (hnamed : Named ss n) :
    ∃ s', doAdd host recordWorld n s = (some 0, s') ∧ s'.tree = s.tree := by
  have hsome := (probe_iff_named hn.1 hclean).mpr hnamed
  obtain ⟨hit, hhit⟩ := Option.isSome_iff_exists.mp hsome
  rw [doAdd, readFileOrEmpty_db, hs.textOf, hhit]
  exact ⟨_, rfl, rfl⟩

include hfetch hs hn hclean in
theorem doAdd_failed {recordWorld : Bool} (hnew : ¬ Named ss n) {e : Bytes}
    (he : fetch n = .error e) :
    ∃ s', doAdd host recordWorld n s = (some 1, s') ∧ s'.tree = s.tree := by
  have hnone : findSub (probe n) (render ss) = none := by
    rwa [← Option.not_isSome_iff_eq_none, probe_iff_named hn.1 hclean]
  rw [doAdd, readFileOrEmpty_db, hs.textOf, hnone]
  simp only [osdPkgFetch, hfetch, he]
  exact ⟨_, rfl, rfl⟩

include hfetch hs hn hclean in
theorem doAdd_installs (hnew : ¬ Named ss n) {tar : Bytes} (htar : fetch n = .ok tar)
    (hgood : WellFormed tar) (hroom : roomFor fetch n s) :
    ∃ st s', doAdd host false n s = (some 0, s') ∧ st.name = n ∧ st.ver = archiveVer tar ∧
      st.desc = archiveDesc tar ∧ st.paths = archivePaths tar ∧ Holds s' (ss ++ [st]) ∧
      s'.tree.file worldRef.key = s.tree.file worldRef.key := by
  have hnone : findSub (probe n) (render ss) = none := by
    rwa [← Option.not_isSome_iff_eq_none, probe_iff_named hn.1 hclean]
  obtain ⟨t, ht, hroom⟩ := hroom (by rw [readFileOrEmpty_db, hs.textOf, hnone]) tar htar
  let s1 := s.say (ascii "(1/1) Installing " ++ n ++ ascii "..." ++ [nl])
  let mid : State := { s1 with tree := t, calls := s.calls + 1 }
  have hdeliver : osdPkgFetch host n tartmp s1 = (.ok (), mid) := by
    rw [fetchedTree] at ht
    simp only [osdPkgFetch, s1, State.say_calls, State.say_tree, hfetch, htar, ht]
    rfl
  have hadd : doAdd host false n s = installTarFile n false mid := by
    simp only [doAdd, readFileOrEmpty_db, hs.textOf, hnone]
    rw [show osdPkgFetch host n tartmp _ = _ from hdeliver]
  obtain ⟨-, -, -, hok⟩ := osdPkgFetch_spec hdeliver
  obtain ⟨tar', htar', -, hfile, -⟩ := hok rfl
  obtain rfl : tar = tar' := Except.ok.inj (htar.symm.trans ((hfetch _ _).symm.trans htar'))
  have hmid : Holds mid ss := by
    rw [Holds, hfile, Function.update_of_ne dbRef_ne_tartmpRef]
    exact hs
  obtain ⟨st, s', hinst, hname, hver, hdesc, hpaths, hholds, -, hworld⟩ :=
    hgood.install hn hmid (by rw [hfile, Function.update_self]) hroom
      (show false = true → _ from fun h => absurd h (by decide))
  refine ⟨st, s', by rw [hadd, hinst], hname, hver, hdesc, hpaths, hholds, ?_⟩
  rw [hworld, recordText_false, hfile, Function.update_of_ne worldRef_ne_tartmpRef]
  rfl

end Line

/-! ## The loop -/

/-- The return code of a loop is zero exactly when every call returned zero. -/
theorem orAll_ne_zero_iff (rcs : List ℕ) : orAll rcs ≠ 0 ↔ ∃ rc ∈ rcs, rc ≠ 0 := by
  have hfold : ∀ (rcs : List ℕ) (acc : ℕ),
      rcs.foldl (· ||| ·) acc ≠ 0 ↔ acc ≠ 0 ∨ ∃ rc ∈ rcs, rc ≠ 0 := by
    intro rcs
    induction rcs with
    | nil => simp
    | cons rc rcs ih =>
      intro acc
      rw [List.foldl_cons, ih, ne_eq, Nat.or_eq_zero_iff, not_and_or, List.exists_mem_cons_iff,
        or_assoc]
  rw [orAll, hfold]
  simp

/-- The status of `do_add` for a name of the world. -/
def syncStatus (fetch : Fetch) (n : Bytes) : ℕ := if delivers fetch n then 0 else 1

/-- The names that a database with some names still gets from a list of names. -/
def missing (fetch : Fetch) (had ns : List Bytes) : List Bytes :=
  ((ns.filter fun n => delivers fetch n).filter fun n => n ∉ had).eraseDups

theorem missing_cons_of_mem {fetch : Fetch} {had ns : List Bytes} {n : Bytes} (h : n ∈ had) :
    missing fetch had (n :: ns) = missing fetch had ns := by
  unfold missing
  by_cases hd : delivers fetch n
  · rw [List.filter_cons_of_pos (by simpa using hd), List.filter_cons_of_neg (by simpa using h)]
  · rw [List.filter_cons_of_neg (by simpa using hd)]

theorem missing_cons_of_failed {fetch : Fetch} {had ns : List Bytes} {n : Bytes}
    (h : delivers fetch n = false) : missing fetch had (n :: ns) = missing fetch had ns := by
  unfold missing
  rw [List.filter_cons_of_neg (by simp [h])]

theorem missing_cons_of_new {fetch : Fetch} {had ns : List Bytes} {n : Bytes}
    (hd : delivers fetch n = true) (h : n ∉ had) :
    missing fetch had (n :: ns) = n :: missing fetch (had ++ [n]) ns := by
  unfold missing
  rw [List.filter_cons_of_pos (by simpa using hd), List.filter_cons_of_pos (by simpa using h),
    List.eraseDups_cons, List.filter_filter]
  congr 3
  funext m
  by_cases hm : m = n
  · simp [hm]
  · simp [hm]

section Loop

variable {host : Host} {fetch : Fetch} (hfetch : ∀ i n, host.fetch i n = fetch n)
  {names : List Bytes} (hplain : ∀ n ∈ names, Plain n) (hclear : Unambiguous fetch names)
  (hgood : ∀ n ∈ names, ∀ tar, fetch n = .ok tar → WellFormed tar)

include hclear in
/-- What is installed for a name of the world has no field that ends in a name line. -/
theorem Unambiguous.noTail {n m tar : Bytes} (hn : n ∈ names) (hm : m ∈ names)
    (htar : fetch m = .ok tar) {st : Stanza} (hname : st.name = m) (hver : st.ver = archiveVer tar)
    (hdesc : st.desc = archiveDesc tar) (hpaths : st.paths = archivePaths tar) : NoTail n st := by
  obtain ⟨hm', hfields⟩ := hclear n hn m hm
  intro b hb
  rw [hname, hver, hdesc, hpaths] at hb
  rcases List.mem_cons.mp hb with rfl | hb
  · exact hm'
  · exact hfields tar htar b hb

include hfetch hplain hclear hgood in
/-- **The loop of `sync-world`** over some of the names of the world, from a database of stanzas
that came from the same page. -/
theorem each_sync {ns : List Bytes} {s : State} {ss : List Stanza} (hns : ∀ n ∈ ns, n ∈ names)
    (hs : Holds s ss) (htails : ∀ st ∈ ss, ∀ n ∈ names, NoTail n st)
    (hcame : ∀ st ∈ ss, delivers fetch st.name = true)
    (hroom : EachSafe (doAdd host false) (roomFor fetch) ns s) :
    ∃ new s', each (doAdd host false) ns s = (some (ns.map (syncStatus fetch)), s') ∧
      Holds s' (ss ++ new) ∧ new.map Stanza.name = missing fetch (ss.map Stanza.name) ns ∧
      s'.tree.file worldRef.key = s.tree.file worldRef.key := by
  induction ns generalizing s ss with
  | nil => exact ⟨[], s, rfl, by simpa using hs, rfl, rfl⟩
  | cons n ns ih =>
    obtain ⟨hn, hrest⟩ := hroom
    have hin := hns n List.mem_cons_self
    have hns' : ∀ m ∈ ns, m ∈ names := fun m hm => hns m (List.mem_cons_of_mem _ hm)
    have hclean : ∀ st ∈ ss, NoTail n st := fun st hst => htails st hst n hin
    -- a line that leaves the database as it is
    have hskip : ∀ (rc : ℕ) (mid : State), doAdd host false n s = (some rc, mid) →
        mid.tree = s.tree → syncStatus fetch n = rc →
        missing fetch (ss.map Stanza.name) (n :: ns) = missing fetch (ss.map Stanza.name) ns →
        ∃ new s', each (doAdd host false) (n :: ns) s
            = (some ((n :: ns).map (syncStatus fetch)), s') ∧ Holds s' (ss ++ new) ∧
          new.map Stanza.name = missing fetch (ss.map Stanza.name) (n :: ns) ∧
          s'.tree.file worldRef.key = s.tree.file worldRef.key := by
      intro rc mid hadd htree hrc hmissing
      rw [hadd] at hrest
      obtain ⟨new, s', heach, hholds, hnew, hworld⟩ := @ih mid ss hns'
        (by rw [Holds, htree, hs]) htails hcame (hrest rfl)
      refine ⟨new, s', ?_, hholds, by rw [hnew, hmissing], by rw [hworld, htree]⟩
      rw [each, hadd, Result.andThen_some, heach, Result.andThen_some, List.map_cons, hrc]
    by_cases hnamed : Named ss n
    · obtain ⟨mid, hadd, htree⟩ := @doAdd_named host n s ss hs (hplain n hin) hclean false hnamed
      obtain ⟨st, hst, hname⟩ := hnamed
      have hd : delivers fetch n = true := hname ▸ hcame st hst
      exact hskip 0 mid hadd htree (by rw [syncStatus, if_pos hd])
        (missing_cons_of_mem (List.mem_map.mpr ⟨st, hst, hname⟩))
    cases hanswer : fetch n with
    | error e =>
      obtain ⟨mid, hadd, htree⟩ :=
        @doAdd_failed host fetch hfetch n s ss hs (hplain n hin) hclean false hnamed e hanswer
      have hd : delivers fetch n = false := by rw [delivers, hanswer]
      exact hskip 1 mid hadd htree (by rw [syncStatus, hd]; rfl) (missing_cons_of_failed hd)
    | ok tar =>
      obtain ⟨st, mid, hadd, hname, hver, hdesc, hpaths, hholds, hworld⟩ :=
        doAdd_installs hfetch hs (hplain n hin) hclean hnamed hanswer (hgood n hin tar hanswer) hn
      have hd : delivers fetch n = true := by rw [delivers, hanswer]
      rw [hadd] at hrest
      have htails' : ∀ st' ∈ ss ++ [st], ∀ m ∈ names, NoTail m st' := by
        intro st' hst' m hm
        rcases List.mem_append.mp hst' with hst' | hst'
        · exact htails st' hst' m hm
        · rw [List.mem_singleton.mp hst']
          exact hclear.noTail hm hin hanswer hname hver hdesc hpaths
      have hcame' : ∀ st' ∈ ss ++ [st], delivers fetch st'.name = true := by
        intro st' hst'
        rcases List.mem_append.mp hst' with hst' | hst'
        · exact hcame st' hst'
        · rw [List.mem_singleton.mp hst', hname, hd]
      obtain ⟨new, s', heach, hholds', hnew, hworld'⟩ :=
        ih hns' hholds htails' hcame' (hrest rfl)
      have hfresh : n ∉ ss.map Stanza.name := by
        intro hmem
        obtain ⟨st', hst', hname'⟩ := List.mem_map.mp hmem
        exact hnamed ⟨st', hst', hname'⟩
      refine ⟨st :: new, s', ?_, by simpa using hholds', ?_, hworld'.trans hworld⟩
      · rw [each, hadd, Result.andThen_some, heach, Result.andThen_some, List.map_cons, syncStatus,
          if_pos hd]
      · rw [List.map_cons, hnew, List.map_append, List.map_singleton, hname,
          missing_cons_of_new hd hfresh]

end Loop

/-- **`sync-world` rebuilds the database**: whatever was in it, and whichever fetches fail, it ends
up with exactly one stanza for each distinct name of the world whose fetch succeeded, in the order
of first occurrence; the world is as it was; and the return code tells whether a fetch failed. -/
theorem syncWorld_rebuilds {host : Host} {fetch : Fetch} (hfetch : ∀ i n, host.fetch i n = fetch n)
    {s : State} {names : List Bytes} (hnames : names = tokens nl (readFileOrEmpty s worldPath))
    (hclear : Unambiguous fetch names)
    (hgood : ∀ n ∈ names, ∀ tar, fetch n = .ok tar → WellFormed tar)
    (hroom : EachSafe (doAdd host false) (roomFor fetch) names (syncStart s)) :
    ∃ rc ss, (syncWorld host s).1 = some rc ∧ (rc ≠ 0 ↔ ∃ n ∈ names, delivers fetch n = false) ∧
      Holds (syncWorld host s).2 ss ∧
      ss.map Stanza.name = (names.filter fun n => delivers fetch n).eraseDups ∧
      (syncWorld host s).2.tree.file worldRef.key = s.tree.file worldRef.key := by
  have hempty : Holds (syncStart s) [] := by
    rw [Holds, file_syncStart_db]
    rfl
  have hworld : (syncStart s).tree.file worldRef.key = s.tree.file worldRef.key :=
    file_unlinkPath_of_ne (by simpa [keyOf, fileRef_db] using dbRef_ne_worldRef) _
  have hsame : readFileOrEmpty (syncStart s) worldPath = readFileOrEmpty s worldPath := by
    rw [readFileOrEmpty_world, readFileOrEmpty_world, textOf, hworld, textOf]
  have hplain : ∀ n ∈ names, Plain n := fun n hn => not_mem_of_mem_tokens (hnames ▸ hn)
  -- the database is gone, so the loop starts without a stanza
  obtain ⟨new, s', heach, hholds, hnew, hworld'⟩ :=
    each_sync hfetch hplain hclear hgood (fun n hn => hn) hempty (by simp) (by simp) hroom
  have hsync : syncWorld host s = (some (orAll (names.map (syncStatus fetch))), s') := by
    rw [syncWorld, show { s with tree := unlinkPath s.tree dbPath } = syncStart s from rfl, hsame,
      ← hnames, heach, Result.andThen_some]
  rw [hsync]
  refine ⟨_, new, rfl, ?_, by simpa using hholds, ?_, hworld'.trans hworld⟩
  · -- `rc` collects the statuses: it is zero only if all of them are
    rw [orAll_ne_zero_iff]
    constructor
    · rintro ⟨rc, hrc, hne⟩
      obtain ⟨n, hn, rfl⟩ := List.mem_map.mp hrc
      refine ⟨n, hn, ?_⟩
      by_contra hd
      exact hne (by rw [syncStatus, if_pos (by simpa using hd)])
    · rintro ⟨n, hn, hd⟩
      exact ⟨syncStatus fetch n, List.mem_map_of_mem hn, by simp [syncStatus, hd]⟩
  · rw [hnew, missing]
    simp

/-! ## A world that names a package twice and one that is gone -/

theorem hasRoom_of_check {s : State} {tar : Bytes}
    (h : ((fetchedTree s tar).bind fun t => writeMembers t (members tar)).map
      (fun t => (appendFile dbPath [] ⟨unlinkPath t tartmp, 0, []⟩).1) = some (some ())) :
    ∃ t, fetchedTree s tar = some t ∧ HasRoom t tar := by
  obtain ⟨t', hwrite, happ⟩ := Option.map_eq_some_iff.mp h
  obtain ⟨t, ht, hwrite⟩ := Option.bind_eq_some_iff.mp hwrite
  exact ⟨t, ht, t', hwrite, (appendFile_isSome_iff fileRef_db dirname_db).mp happ⟩

/-- The page has `less` and nothing else. -/
def lessOnly : Fetch := fun n => if n = ascii "less" then .ok terminfoTar else .error (ascii "gone")

def lessOnlyHost : Host where
  index := fun _ => .ok []
  fetch := fun _ => lessOnly
  cwd := [slash]

/-- A world of these bytes, and a database of other ones. -/
def bootState (world : Bytes) : State :=
  (writeFile dbPath (ascii "P:old\n") (writeFile worldPath world bareState).2).2

theorem wellFormed_terminfoTar : WellFormed terminfoTar := by
  have hmem : ∀ m ∈ members terminfoTar, m = (ascii "usr/share/terminfo/x/xterm", [26, 1]) := by
    intro m hm
    rw [members_terminfoTar] at hm
    exact List.mem_singleton.mp hm
  refine ⟨by decide +kernel, ?_, ?_, ?_, ?_⟩
  all_goals
    intro m hm
    rw [hmem m hm]
    decide

/-- The names of `less\nsl\nless\n`. -/
def bootNames : List Bytes := [ascii "less", ascii "sl", ascii "less"]

theorem lessOnly_eq {n tar : Bytes} (h : lessOnly n = .ok tar) :
    n = ascii "less" ∧ tar = terminfoTar := by
  unfold lessOnly at h
  split_ifs at h with hn
  exact ⟨hn, (Except.ok.inj h).symm⟩

theorem unambiguous_bootNames : Unambiguous lessOnly bootNames := by
  have hfields : ∀ n ∈ bootNames, ∀ b ∈ archiveVer terminfoTar :: archiveDesc terminfoTar ::
      archivePaths terminfoTar, ¬ nameLine n <:+ b := by
    decide +kernel
  have hnames : ∀ n ∈ bootNames, ∀ m ∈ bootNames, ¬ nameLine n <:+ m := by decide
  refine fun n hn m hm => ⟨hnames n hn m hm, fun tar htar => ?_⟩
  rw [(lessOnly_eq htar).2]
  exact hfields n hn

theorem syncWorld_rebuilds_less :
    ∃ rc ss, (syncWorld lessOnlyHost (bootState (ascii "less\nsl\nless\n"))).1 = some rc ∧ rc ≠ 0 ∧
      Holds (syncWorld lessOnlyHost (bootState (ascii "less\nsl\nless\n"))).2 ss ∧
      ss.map Stanza.name = [ascii "less"] := by
  have hroom : EachSafe (doAdd lessOnlyHost false) (roomFor lessOnly) bootNames
      (syncStart (bootState (ascii "less\nsl\nless\n"))) := by
    refine ⟨fun _ tar htar => ?_, fun _ => ⟨fun _ tar htar => ?_, fun _ => ⟨fun hnone => ?_,
      fun _ => trivial⟩⟩⟩
    · rw [(lessOnly_eq htar).2]
      exact hasRoom_of_check (by decide +kernel)
    · exact absurd (lessOnly_eq htar).1 (by decide)
    · exact absurd hnone (by decide +kernel)
  have hgood : ∀ n ∈ bootNames, ∀ tar, lessOnly n = .ok tar → WellFormed tar := fun n _ tar htar =>
    (lessOnly_eq htar).2 ▸ wellFormed_terminfoTar
  obtain ⟨rc, ss, hrc, hfailed, hholds, hss, -⟩ := syncWorld_rebuilds (fun _ _ => rfl)
    (show bootNames = _ by decide +kernel) unambiguous_bootNames hgood hroom
  exact ⟨rc, ss, hrc, hfailed.mpr ⟨ascii "sl", by decide, by decide⟩, hholds,
    hss.trans (by decide)⟩

/-- An archive of a world and the two end blocks. -/
def worldTar : Bytes :=
  (addfile ("etc/apk/world".toList, [120, 10])).getD [] ++ List.replicate 1024 0

def worldHost : Host where
  index := fun _ => .ok []
  fetch := fun _ _ => .ok worldTar
  cwd := [slash]

/-- An archive that ships the world replaces it. -/
theorem syncWorld_loses_world :
    Complete worldTar ∧ (members worldTar).map Prod.fst = [ascii "etc/apk/world"] ∧
    worldRaw (bootState (ascii "less\n")) = ascii "less\n" ∧
    (syncWorld worldHost (bootState (ascii "less\n"))).1 = some 0 ∧
    worldRaw (syncWorld worldHost (bootState (ascii "less\n"))).2 = ascii "x\n" := by
  decide +kernel

end OsMoap.Apk
