import OsMoap.Apk.Database
import OsMoap.Apk.Runs
import OsMoap.Pack.Ustar

/-!
# `apk`: Recorded Files Stay Present

Every path on an `F:` line of the database names a file, along every run in which
* no archive ships the database or the archive's own temporary path, and no member or package
  name holds a line end, and
* no removal unlinks a file that another stanza still records, nor finds its `P:<name>` inside
  an `F:` line.

The invariant also keeps what the next step needs: the database is a C string, its last line
is not an open `F:` line, and no recorded path is the temporary one (`FilesInv`).
-/

namespace OsMoap.Apk

open OsMoap.Lib
open OsMoap.Pack (Bytes addfile)

/-! ## `F:` lines of a text that is cut or continued -/

/-- The last line of a text does not start with `F`. -/
def TailPlain (text : Bytes) : Prop := ∀ w, (lines nl text).getLast? = some w → w.head? ≠ some 70

theorem tailPlain_nil : TailPlain [] := by
  intro w hw
  rw [lines_of_not_mem nl (by simp)] at hw
  obtain rfl : [] = w := by simpa using hw
  simp

theorem pathOfLine_eq_none {l : Bytes} (h : l.head? ≠ some 70) : pathOfLine l = none := by
  cases l with
  | nil => rfl
  | cons c l =>
    have hc : ¬ (70 : UInt8) = c := fun heq => h (by rw [heq]; rfl)
    simp [pathOfLine, ascii, List.isPrefixOf, hc]

theorem pathOfLine_append_eq_none {w v : Bytes} (hw : w.head? ≠ some 70)
    (hv : w = [] → v.head? ≠ some 70) : pathOfLine (w ++ v) = none := by
  refine pathOfLine_eq_none ?_
  cases w with
  | nil => exact hv rfl
  | cons c w => exact hw

/-- The lines of a text, its last one apart. -/
theorem exists_lines_eq (text : Bytes) : ∃ init w, lines nl text = init ++ [w] := by
  rcases List.eq_nil_or_concat (lines nl text) with h | ⟨init, w, h⟩
  · exact absurd h (lines_ne_nil nl text)
  · exact ⟨init, w, by rw [h, List.concat_eq_append]⟩

/-- Appending a stanza records its paths behind those recorded before. -/
theorem filePaths_append_stanza {text : Bytes} (htail : TailPlain text) (st : Stanza) :
    filePaths (text ++ unlines nl st.lines) = filePaths text ++ st.paths ∧
      TailPlain (text ++ unlines nl st.lines) := by
  obtain ⟨init, w, hw⟩ := exists_lines_eq text
  have hhead : w.head? ≠ some 70 := htail w (by rw [hw]; simp)
  have hls : ∀ l ∈ st.lines, nl ∉ l := fun l hl =>
    (plain_of_mem_dbLines (show l ∈ dbLines [st] by simpa using hl)).1
  have hst : lines nl (unlines nl st.lines) = nameLine st.name :: (st.lines.tail ++ [[]]) :=
    lines_unlines nl hls
  have hlines := lines_append nl hw hst
  have hpaths : (st.lines.tail ++ [[]]).filterMap pathOfLine = st.paths := by
    have h := filePaths_lines st
    rwa [filePaths, hst, List.filterMap_cons_none (pathOfLine_eq_none (by simp [nameLine, ascii]))]
      at h
  constructor
  · rw [filePaths, filePaths, hlines, hw, List.filterMap_append, List.filterMap_append,
      List.filterMap_cons_none
        (pathOfLine_append_eq_none hhead fun _ => by simp [nameLine, ascii]), hpaths,
      List.filterMap_cons_none (pathOfLine_eq_none hhead)]
    simp
  · intro v hv
    rw [hlines, List.getLast?_append] at hv
    have : ((w ++ nameLine st.name) :: (st.lines.tail ++ [[]])).getLast? = some [] := by
      rw [← List.cons_append, List.getLast?_concat]
    rw [this] at hv
    obtain rfl : [] = v := by simpa using hv
    simp

/-- The parts a located stanza cuts a text into. -/
theorem located_eq_some {db q before stanza after : Bytes}
    (h : located db q = some (before, stanza, after)) :
    db = before ++ (stanza ++ after) ∧ ((∃ x, stanza = x ++ [nl]) ∨ after = []) ∧
      stanza.head? = some 80 := by
  obtain ⟨⟨b, st⟩, hfind, heq⟩ := Option.map_eq_some_iff.mp h
  obtain ⟨rfl, hcut⟩ := Prod.mk.inj heq
  obtain ⟨rfl, rest, rfl⟩ := findSub_eq_some hfind
  unfold cutStanza at hcut
  cases hblank : findSub [nl, nl] (probe q ++ rest) with
  | none =>
    rw [hblank] at hcut
    obtain ⟨rfl, rfl⟩ := Prod.mk.inj hcut
    exact ⟨by simp, Or.inr rfl, rfl⟩
  | some hit =>
    obtain ⟨body, tail⟩ := hit
    rw [hblank] at hcut
    obtain ⟨hst, tail, rfl⟩ := findSub_eq_some hblank
    obtain ⟨rfl, rfl⟩ := Prod.mk.inj hcut
    refine ⟨by rw [hst]; simp, Or.inl ⟨body ++ [nl], by simp⟩, ?_⟩
    -- a hit at the very start would make `P` a line end
    cases body with
    | nil => exact absurd (List.cons.inj hst).1 (by decide)
    | cons c body =>
      obtain rfl := (List.cons.inj hst).1
      rfl

/-- The paths of a located stanza are recorded in the text. -/
theorem filePaths_located {db q before stanza after : Bytes}
    (h : located db q = some (before, stanza, after)) :
    ∀ d ∈ filePaths stanza, d ∈ filePaths db := by
  obtain ⟨rfl, hend, hhead⟩ := located_eq_some h
  obtain ⟨init, w, hw⟩ := exists_lines_eq before
  obtain ⟨v, vs, hv⟩ := List.exists_cons_of_ne_nil (lines_ne_nil nl stanza)
  -- the hit starts with `P:`, within a line perhaps, and that piece is no path
  have hv80 : pathOfLine v = none := by
    refine pathOfLine_eq_none ?_
    obtain ⟨c, rest, rfl⟩ : ∃ c rest, stanza = c :: rest := by
      cases stanza with
      | nil => simp at hhead
      | cons c rest => exact ⟨c, rest, rfl⟩
    obtain rfl : c = 80 := by simpa using hhead
    rw [lines_cons_of_ne nl (by decide)] at hv
    obtain ⟨first, others, hfirst⟩ := List.exists_cons_of_ne_nil (lines_ne_nil nl rest)
    rw [hfirst, List.modifyHead_cons] at hv
    rw [← (List.cons.inj hv).1]
    simp
  intro d hd
  rw [filePaths, hv, List.filterMap_cons_none hv80] at hd
  obtain ⟨l, hl, hld⟩ := List.mem_filterMap.mp hd
  refine List.mem_filterMap.mpr ⟨l, ?_, hld⟩
  -- the stanza ends with a blank line, or with the database
  rcases hend with ⟨x, rfl⟩ | rfl
  · have hx : lines nl (x ++ [nl]) = lines nl x ++ [[]] := lines_append_cons nl x []
    have hall : lines nl (x ++ [nl] ++ after) = lines nl x ++ lines nl after := by
      rw [List.append_assoc, List.singleton_append, lines_append_cons]
    obtain ⟨u, us, hu⟩ := List.exists_cons_of_ne_nil (lines_ne_nil nl x)
    rw [hx, hu, List.cons_append] at hv
    obtain ⟨rfl, rfl⟩ := List.cons.inj hv
    rw [hu, List.cons_append] at hall
    rw [lines_append nl hw hall]
    rcases List.mem_append.mp hl with hl | hl
    · simp [hl]
    · obtain rfl := List.mem_singleton.mp hl
      simp [pathOfLine, ascii] at hld
  · rw [List.append_nil, lines_append nl hw hv]
    simp [hl]

/-- Cutting a stanza out records no new path, unless the cut starts inside an `F:` line. -/
theorem filePaths_cut {db q before stanza after : Bytes}
    (h : located db q = some (before, stanza, after)) (hbefore : TailPlain before) :
    (∀ p ∈ filePaths (before ++ after), p ∈ filePaths db) ∧
      (TailPlain db → TailPlain (before ++ after)) := by
  obtain ⟨rfl, hend, -⟩ := located_eq_some h
  obtain ⟨init, w, hw⟩ := exists_lines_eq before
  have hhead : w.head? ≠ some 70 := hbefore w (by rw [hw]; simp)
  rcases hend with ⟨x, rfl⟩ | rfl
  · -- the stanza ends a line: what follows starts one
    obtain ⟨v, vs, hv⟩ := List.exists_cons_of_ne_nil (lines_ne_nil nl x)
    obtain ⟨a, as, ha⟩ := List.exists_cons_of_ne_nil (lines_ne_nil nl after)
    have hold : lines nl (before ++ (x ++ [nl] ++ after)) = init ++ (w ++ v) :: (vs ++ a :: as) := by
      refine lines_append nl hw ?_
      rw [List.append_assoc, List.singleton_append, lines_append_cons, hv, ha, List.cons_append]
    have hnew : lines nl (before ++ after) = init ++ (w ++ a) :: as := lines_append nl hw ha
    constructor
    · intro p hp
      rw [filePaths, hnew, List.filterMap_append, List.mem_append] at hp
      rw [filePaths, hold]
      rcases hp with hp | hp
      · rw [List.filterMap_append]
        exact List.mem_append_left _ hp
      · obtain ⟨l, hl, hlp⟩ := List.mem_filterMap.mp hp
        refine List.mem_filterMap.mpr ⟨l, ?_, hlp⟩
        rcases List.mem_cons.mp hl with rfl | hl
        · -- the joined line is an `F:` line only when it is the one that follows
          cases w with
          | nil => simp
          | cons c w =>
            rw [pathOfLine_append_eq_none hhead (by simp)] at hlp
            simp at hlp
        · simp [hl]
    · intro htail u hu
      rw [hnew, List.getLast?_append] at hu
      cases as with
      | nil =>
        obtain rfl : w ++ a = u := by simpa using hu
        cases w with
        | nil =>
          refine htail a ?_
          rw [hold, ← List.cons_append, List.getLast?_append, List.getLast?_append]
          simp
        | cons c w => exact hhead
      | cons b bs =>
        refine htail u ?_
        rw [hold, ← List.cons_append, List.getLast?_append, List.getLast?_append]
        simpa using hu
  · rw [List.append_nil, List.append_nil]
    constructor
    · intro p hp
      rw [filePaths, hw, List.filterMap_append,
        List.filterMap_cons_none (pathOfLine_eq_none hhead)] at hp
      obtain ⟨v, vs, hv⟩ := List.exists_cons_of_ne_nil (lines_ne_nil nl stanza)
      rw [filePaths, lines_append nl hw hv, List.filterMap_append]
      exact List.mem_append_left _ (by simpa using hp)
    · exact fun _ => hbefore

/-! ## The invariant -/

/-- The bytes of the database file. -/
def dbRaw (s : State) : Bytes := (s.tree.file dbRef.key).getD []

/-- Every path on an `F:` line of the database names a file. -/
def FilesPresent (host : Host) (s : State) : Prop :=
  ∀ p ∈ filePaths (readFileOrEmpty s dbPath), (readPath s.tree (absolutize host.cwd p)).isSome

/-- `FilesPresent`, with what the next operation needs. -/
structure FilesInv (host : Host) (s : State) : Prop where
  nul : 0 ∉ dbRaw s
  tail : TailPlain (dbRaw s)
  present : ∀ p ∈ filePaths (dbRaw s), keyOf (absolutize host.cwd p) ≠ some tartmpRef.key ∧
    (readPath s.tree (absolutize host.cwd p)).isSome

theorem FilesInv.text {host : Host} {s : State} (h : FilesInv host s) :
    textOf s.tree.file dbRef.key = dbRaw s :=
  cstr_eq_self h.nul

theorem FilesInv.filesPresent {host : Host} {s : State} (h : FilesInv host s) :
    FilesPresent host s := by
  intro p hp
  rw [readFileOrEmpty_db, h.text] at hp
  exact (h.present p hp).2

theorem filesInv_of_empty {host : Host} {s : State} (h : dbRaw s = []) : FilesInv host s := by
  have hpaths : filePaths [] = [] := by decide
  refine ⟨by simp [h], h ▸ tailPlain_nil, ?_⟩
  rw [h, hpaths]
  simp

/-! ## Conditions -/

/-- An archive whose members have one-line names and are neither the database nor the
temporary archive. -/
def SafeMembers (content : Bytes) : Prop :=
  ∀ m ∈ members content, nl ∉ m.1 ∧ keyOf (absPath m.1) ≠ some dbRef.key ∧
    keyOf (absPath m.1) ≠ some tartmpRef.key

/-- Removing `q` does not start inside an `F:` line, and no path still recorded afterwards
names a file it unlinks. -/
def SafeRemoval (host : Host) (db q : Bytes) : Prop :=
  ∀ before stanza after, located db q = some (before, stanza, after) →
    TailPlain before ∧
    ∀ p ∈ filePaths (before ++ after), ∀ d ∈ filePaths stanza,
      keyOf (absolutize host.cwd d) = none ∨
        keyOf (absolutize host.cwd p) ≠ keyOf (absolutize host.cwd d)

/-- The conditions under which recorded files stay present. -/
def filesSafe (host : Host) : StepSafe where
  add := fun _ name s => Plain name ∧
    (findSub (probe name) (readFileOrEmpty s dbPath) = none →
      ∀ tar, host.fetch s.calls name = .ok tar → SafeMembers tar)
  del := fun q s => SafeRemoval host (readFileOrEmpty s dbPath) q
  upgrade := fun ix db line s => Outdated ix db line →
    ∀ tar, host.fetch s.calls line = .ok tar →
      SafeMembers tar ∧ SafeRemoval host (readFileOrEmpty s dbPath) line

/-! ## Steps -/

theorem FilesInv.of_le {host : Host} {s s' : State} (h : FilesInv host s)
    (hle : s.tree.Le s'.tree) (hdb : s'.tree.file dbRef.key = s.tree.file dbRef.key) :
    FilesInv host s' := by
  have hraw : dbRaw s' = dbRaw s := by rw [dbRaw, dbRaw, hdb]
  refine ⟨hraw ▸ h.nul, hraw ▸ h.tail, fun p hp => ?_⟩
  obtain ⟨hne, hread⟩ := h.present p (hraw ▸ hp)
  exact ⟨hne, readPath_isSome_of_le hle hread⟩

theorem absolutize_absPath (cwd name : Bytes) : absolutize cwd (absPath name) = absPath name := rfl

/-- An installation from a safe archive keeps the invariant, also when it dies. -/
theorem FilesInv.install {host : Host} {s s' : State} {name : Bytes} {recordWorld : Bool}
    {r : Option ℕ} (hs : FilesInv host s) (hname : Plain name)
    (harch : SafeMembers (archive s)) (h : installTarFile name recordWorld s = (r, s')) :
    FilesInv host s' := by
  obtain ⟨ms, ver, desc, hpre, ⟨hver0, hvern⟩, ⟨hdesc0, hdescn⟩, -, hkeep, hread, hout⟩ :=
    installTarFile_spec h
  have hms := fun m hm => harch m (hpre.subset hm)
  obtain ⟨st, hst, hpaths, -, htext⟩ := exists_stanza hname ⟨hvern, hver0⟩ ⟨hdescn, hdesc0⟩
    fun m hm => ⟨(hms m hm).1, not_mem_of_mem_membersFrom (hpre.subset hm)⟩
  -- the old paths are still there
  have hold : ∀ p ∈ filePaths (dbRaw s), keyOf (absolutize host.cwd p) ≠ some tartmpRef.key ∧
      (readPath s'.tree (absolutize host.cwd p)).isSome := fun p hp =>
    ⟨(hs.present p hp).1, hkeep _ (hs.present p hp).1 (hs.present p hp).2⟩
  rcases hout.db fun m hm => (hms m hm).2.1 with ⟨-, hdb⟩ | hdb
  · have hraw : dbRaw s' = dbRaw s := by rw [dbRaw, dbRaw, hdb]
    exact ⟨hraw ▸ hs.nul, hraw ▸ hs.tail, hraw ▸ hold⟩
  · have hraw : dbRaw s' = dbRaw s ++ unlines nl st.lines := by
      rw [dbRaw, hdb, Option.getD_some, htext, dbRaw]
    obtain ⟨hfp, htail⟩ := filePaths_append_stanza hs.tail st
    refine ⟨?_, hraw ▸ htail, ?_⟩
    · rw [hraw, List.mem_append, not_or]
      refine ⟨hs.nul, fun h0 => ?_⟩
      have hrender : unlines nl st.lines = render [st] := by simp [render]
      have := cstr_render [st]
      rw [hrender, ← this] at h0
      exact not_mem_cstr _ h0
    · rw [hraw, hfp]
      intro p hp
      rcases List.mem_append.mp hp with hp | hp
      · exact hold p hp
      · rw [hpaths] at hp
        obtain ⟨m, hm, rfl⟩ := List.mem_map.mp hp
        rw [absolutize_absPath]
        exact ⟨(hms m hm).2.2, hread m hm (hms m hm).2.2⟩

/-- A safe removal keeps the invariant. -/
theorem FilesInv.del {host : Host} {s s' : State} {q : Bytes} {r : Option ℕ}
    (hs : FilesInv host s) (hsafe : SafeRemoval host (textOf s.tree.file dbRef.key) q)
    (h : doDel host q s = (r, s')) : FilesInv host s' := by
  obtain ⟨-, ⟨-, -, htree⟩ | ⟨before, stanza, after, hloc, -, hle, f, rfl, hfile⟩⟩ := doDel_cases h
  · exact hs.of_le (htree ▸ FileTree.Le.refl _) (by rw [htree])
  · obtain ⟨hbefore, hdisj⟩ := hsafe before stanza after hloc
    rw [hs.text] at hloc
    obtain ⟨hsub, htail⟩ := filePaths_cut hloc hbefore
    obtain ⟨heq, -⟩ := located_eq_some hloc
    have hraw : dbRaw s' = before ++ after := by
      rw [dbRaw, hfile]
      split
      · rw [Function.update_self, Option.getD_some]
      · rw [Function.update_of_ne dbRef_ne_worldRef, Function.update_self, Option.getD_some]
    refine ⟨?_, hraw ▸ htail hs.tail, ?_⟩
    · intro h0
      refine hs.nul ?_
      rw [hraw, List.mem_append] at h0
      rw [heq, List.mem_append, List.mem_append]
      tauto
    · rw [hraw]
      intro p hp
      obtain ⟨hne, hread⟩ := hs.present p (hsub p hp)
      refine ⟨hne, readPath_isSome_of_le hle ?_⟩
      rw [(foldl_unlinkPath (doomed host stanza) s.tree).2.1 _ fun d hd => ?_]
      · exact hread
      · obtain ⟨d', hd', rfl⟩ := List.mem_map.mp hd
        exact hdisj p hp d' hd'

/-- A removal leaves the fetched archive alone. -/
theorem FilesInv.archive_del {host : Host} {s s' : State} {q : Bytes} {r : Option ℕ}
    (hs : FilesInv host s) (h : doDel host q s = (r, s')) : archive s' = archive s := by
  obtain ⟨-, ⟨-, -, htree⟩ | ⟨before, stanza, after, hloc, -, -, f, rfl, hfile⟩⟩ := doDel_cases h
  · rw [archive, htree, archive]
  · have hkeep : ((doomed host stanza).foldl unlinkPath s.tree).file tartmpRef.key
        = s.tree.file tartmpRef.key := by
      refine (foldl_unlinkPath _ _).1 _ fun d hd => ?_
      obtain ⟨d', hd', rfl⟩ := List.mem_map.mp hd
      rw [hs.text] at hloc
      exact (hs.present d' (filePaths_located hloc d' hd')).1
    rw [archive, hfile]
    split
    · rw [Function.update_of_ne dbRef_ne_tartmpRef.symm, hkeep, archive]
    · rw [Function.update_of_ne worldRef_ne_tartmpRef.symm,
        Function.update_of_ne dbRef_ne_tartmpRef.symm, hkeep, archive]

theorem FilesInv.doAdd {host : Host} {recordWorld : Bool} {name : Bytes} {s : State}
    (hs : FilesInv host s) (hsafe : (filesSafe host).add recordWorld name s) :
    FilesInv host (doAdd host recordWorld name s).2 := by
  obtain ⟨hname, harch⟩ := hsafe
  rcases h : Apk.doAdd host recordWorld name s with ⟨r, s'⟩
  rw [readFileOrEmpty_db] at harch
  rcases doAdd_cases h with ⟨-, -, htree, -⟩ |
    ⟨hnone, ⟨-, htree, -⟩ | ⟨tar, mid, htar, hmid, hle, -, hfile, -, hinst⟩⟩
  · exact hs.of_le (htree ▸ FileTree.Le.refl _) (by rw [htree])
  · exact hs.of_le (htree ▸ FileTree.Le.refl _) (by rw [htree])
  · have hdb : mid.tree.file dbRef.key = s.tree.file dbRef.key := by
      rw [hfile, Function.update_of_ne dbRef_ne_tartmpRef]
    exact (hs.of_le hle hdb).install hname (hmid ▸ harch hnone tar htar) hinst

theorem FilesInv.upgradeLine {host : Host} {ix db line : Bytes} {s : State}
    (hline : Plain line) (hs : FilesInv host s) (hsafe : (filesSafe host).upgrade ix db line s) :
    FilesInv host (upgradeLine host ix db line s).2 := by
  rcases h : Apk.upgradeLine host ix db line s with ⟨r, s'⟩
  rcases upgradeLine_cases h with ⟨-, -, rfl⟩ |
    ⟨hout, ⟨-, -, htree, -⟩ | ⟨tar, mid, rd, s1, ri, htar, hmid, hle, -, hfile, -, hdel, hinst, -⟩⟩
  · exact hs
  · exact hs.of_le (htree ▸ FileTree.Le.refl _) (by rw [htree])
  · obtain ⟨harch, hrem⟩ := hsafe hout tar htar
    have hdb : mid.tree.file dbRef.key = s.tree.file dbRef.key := by
      rw [hfile, Function.update_of_ne dbRef_ne_tartmpRef]
    have hmidInv := hs.of_le hle hdb
    rw [readFileOrEmpty_db, textOf, ← hdb] at hrem
    -- the removal leaves the archive, which no recorded path names
    have harch1 : archive s1 = tar := (hmidInv.archive_del hdel).trans hmid
    exact (hmidInv.del hrem hdel).install hline (harch1 ▸ harch) hinst

theorem filesInv_keeps (host : Host) :
    Keeps host (filesSafe host) fun _ s => FilesInv host s where
  frame := fun _ s s' htree h => h.of_le (htree ▸ FileTree.Le.refl _) (by rw [htree])
  add := fun _ _ _ h hsafe => h.doAdd hsafe
  addOnly := fun _ _ _ h hsafe => h.doAdd hsafe
  del := fun _ q s h hsafe => by
    rcases hdel : doDel host q s with ⟨r, s'⟩
    have hsafe' : SafeRemoval host (textOf s.tree.file dbRef.key) q := by
      rw [← readFileOrEmpty_db]
      exact hsafe
    exact h.del hsafe' hdel
  upgrade := fun _ _ _ _ _ _ _ hline h hsafe => h.upgradeLine (not_mem_of_mem_tokens hline) hsafe
  sync := fun _ s _ => filesInv_of_empty (by rw [dbRaw, file_syncStart_db, Option.getD_none])

/-- **Installed files stay present** along every run from an empty database whose operations
are safe. -/
theorem files_present_of_safe_run {host : Host} {cmds : List Command} {s : State}
    (hempty : dbRaw s = []) (hsafe : RunSafe host (filesSafe host) cmds s) :
    FilesPresent host (runAll host cmds s) :=
  (runAll_inv (h := []) (filesInv_keeps host) hsafe (filesInv_of_empty hempty)).filesPresent

/-! ## Two packages with one terminfo entry -/

/-- An archive of the terminfo entry and the two end blocks. -/
def terminfoTar : Bytes :=
  (addfile ("usr/share/terminfo/x/xterm".toList, [26, 1])).getD [] ++ List.replicate 1024 0

/-- A host on which every package ships it. -/
def terminfoHost : Host where
  index := fun _ => .ok []
  fetch := fun _ _ => .ok terminfoTar
  cwd := [slash]

theorem members_terminfoTar :
    members terminfoTar = [(ascii "usr/share/terminfo/x/xterm", [26, 1])] := by
  decide +kernel

theorem safeMembers_terminfoTar : SafeMembers terminfoTar := by
  intro m hm
  rw [members_terminfoTar] at hm
  obtain rfl := List.mem_singleton.mp hm
  decide

/-- `apk add less` and then `apk del less`. -/
def lessRoundTrip : List Command := [.add true [ascii "less"], .del [ascii "less"]]

theorem files_present_lessRoundTrip :
    RunSafe terminfoHost (filesSafe terminfoHost) lessRoundTrip bareState ∧
      FilesPresent terminfoHost (runAll terminfoHost lessRoundTrip bareState) := by
  have hsafe : RunSafe terminfoHost (filesSafe terminfoHost) lessRoundTrip bareState := by
    refine ⟨⟨⟨by decide, fun _ tar htar => ?_⟩, fun _ => trivial⟩, ⟨?_, fun _ => trivial⟩, trivial⟩
    · obtain rfl : terminfoTar = tar := Except.ok.inj htar
      exact safeMembers_terminfoTar
    · intro before stanza after hloc
      have hwhole : (located (readFileOrEmpty (runCommand terminfoHost bareState
          (.add true [ascii "less"])).2 dbPath) (ascii "less")).map (fun c => (c.1, c.2.2))
          = some ([], []) := by
        decide +kernel
      rw [hloc, Option.map_some, Option.some.injEq, Prod.mk.injEq] at hwhole
      obtain ⟨rfl, rfl⟩ := hwhole
      have hnone : filePaths ([] ++ []) = [] := by decide
      refine ⟨tailPlain_nil, ?_⟩
      rw [hnone]
      simp
  exact ⟨hsafe, files_present_of_safe_run rfl hsafe⟩

/-- `apk add less sl` and then `apk del less`. -/
def sharedTerminfo : List Command := [.add true [ascii "less", ascii "sl"], .del [ascii "less"]]

/-- `sl` still records the terminfo entry that removing `less` unlinked. -/
theorem files_missing_sharedTerminfo :
    dbRaw bareState = [] ∧
    filePaths (readFileOrEmpty (runAll terminfoHost sharedTerminfo bareState) dbPath)
      = [ascii "/usr/share/terminfo/x/xterm"] ∧
    ¬ FilesPresent terminfoHost (runAll terminfoHost sharedTerminfo bareState) := by
  have hpaths : filePaths (readFileOrEmpty (runAll terminfoHost sharedTerminfo bareState) dbPath)
      = [ascii "/usr/share/terminfo/x/xterm"] := by
    decide +kernel
  have hgone : readPath (runAll terminfoHost sharedTerminfo bareState).tree
      (ascii "/usr/share/terminfo/x/xterm") = none := by
    decide +kernel
  refine ⟨rfl, hpaths, fun h => ?_⟩
  have hthere := h (ascii "/usr/share/terminfo/x/xterm") (by rw [hpaths]; exact List.mem_singleton_self _)
  have habs : absolutize terminfoHost.cwd (ascii "/usr/share/terminfo/x/xterm")
      = ascii "/usr/share/terminfo/x/xterm" := by decide
  rw [habs, hgone] at hthere
  simp at hthere

end OsMoap.Apk
