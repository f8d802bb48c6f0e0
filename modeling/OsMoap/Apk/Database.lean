import OsMoap.Apk.Stanza

/-!
# `apk`: the Database over Runs

Runs of installations and removals from an empty database.  As long as no archive names the
database itself or holds a line end in a member's name, and no removal is led astray by a
line that merely ends in `P:<name>`, the database is the text of a list of stanzas
(`Holds`): an installation appends one, a removal takes one out.

`StanzaExact` is what the applet owes for a name in such a state, and
`stanzaExact_iff` says exactly when it delivers.
-/

namespace OsMoap.Apk

open OsMoap.Lib
open OsMoap.Pack (Bytes)

/-- The database file is the text of the stanzas. -/
def Holds (s : State) (ss : List Stanza) : Prop := (s.tree.file dbRef.key).getD [] = render ss

theorem Holds.textOf {s : State} {ss : List Stanza} (h : Holds s ss) :
    textOf s.tree.file dbRef.key = render ss := by
  rw [Apk.textOf, h, cstr_render]

/-! ## One installation, one removal -/

/-- An archive the database survives: member names without line ends, none the database. -/
def SafeArchive (content : Bytes) : Prop :=
  ∀ m ∈ members content, nl ∉ m.1 ∧ keyOf (absPath m.1) ≠ some dbRef.key

theorem safeArchive_nil : SafeArchive [] := by
  have hnil : members [] = [] := by decide
  rw [SafeArchive, hnil]
  simp

/-- The stanza written for the members of an archive. -/
theorem exists_stanza {name ver desc : Bytes} {ms : List (Bytes × Bytes)} (hname : Plain name)
    (hver : Plain ver) (hdesc : Plain desc) (hms : ∀ m ∈ ms, Plain m.1) :
    ∃ st : Stanza, st.name = name ∧ st.paths = ms.map (fun m => absPath m.1) ∧
      (st.ver = ver ∧ st.desc = desc) ∧
      stanzaText name ver desc (unlines nl (ms.map fun m => fileLine m.1))
        = unlines nl st.lines := by
  refine ⟨⟨name, ver, desc, ms.map fun m => absPath m.1, ?_⟩, rfl, rfl, ⟨rfl, rfl⟩, ?_⟩
  · intro b hb
    simp only [List.mem_cons, List.mem_map] at hb
    rcases hb with rfl | rfl | rfl | ⟨m, hm, rfl⟩
    · exact hname
    · exact hver
    · exact hdesc
    · have := hms m hm
      constructor
      · simp only [absPath, List.mem_cons, not_or]
        exact ⟨by decide, this.1⟩
      · simp only [absPath, List.mem_cons, not_or]
        exact ⟨by decide, this.2⟩
  · simp [stanzaText, Stanza.lines, Stanza.body, nameLine, fileLine, Function.comp_def]

/-- **An installation** appends one stanza to the database, or dies and leaves it as it was
or with the stanza. -/
theorem Holds.install {s s' : State} {ss : List Stanza} {name : Bytes} {recordWorld : Bool}
    {r : Option ℕ} (hs : Holds s ss) (hname : Plain name) (harch : SafeArchive (archive s))
    (h : installTarFile name recordWorld s = (r, s')) :
    ∃ st : Stanza, st.name = name ∧ (Holds s' (ss ++ [st]) ∨ r = none ∧ Holds s' ss) ∧
      ∃ ms, ms <+: members (archive s) ∧ st.paths = ms.map fun m => absPath m.1 := by
  obtain ⟨ms, ver, desc, hpre, ⟨hver0, hvern⟩, ⟨hdesc0, hdescn⟩, -, -, -, hout⟩ :=
    installTarFile_spec h
  have hms : ∀ m ∈ ms, nl ∉ m.1 ∧ keyOf (absPath m.1) ≠ some dbRef.key := fun m hm =>
    harch m (hpre.subset hm)
  obtain ⟨st, hst, hpaths, -, htext⟩ := exists_stanza hname ⟨hvern, hver0⟩ ⟨hdescn, hdesc0⟩
    fun m hm => ⟨(hms m hm).1, not_mem_of_mem_membersFrom (hpre.subset hm)⟩
  refine ⟨st, hst, ?_, ms, hpre, hpaths⟩
  rcases hout.db fun m hm => (hms m hm).2 with ⟨hr, hdb⟩ | hdb
  · exact Or.inr ⟨hr, by rw [Holds, hdb, hs]⟩
  · left
    rw [Holds, hdb, Option.getD_some, hs, htext, render_append, render_cons]
    simp [render]

/-- **A removal** that finds a stanza's own text takes that stanza out and unlinks its files. -/
theorem Holds.del {host : Host} {s s' : State} {as bs : List Stanza} {st : Stanza} {q : Bytes}
    {r : Option ℕ} (hs : Holds s (as ++ st :: bs))
    (hloc : located (render (as ++ st :: bs)) q = some (render as, unlines nl st.lines, render bs))
    (h : doDel host q s = (r, s')) :
    r = some 0 ∧ Holds s' (as ++ bs) ∧ ∀ k, k ≠ dbRef.key → k ≠ worldRef.key →
      s'.tree.file k = ((st.paths.map (absolutize host.cwd)).foldl unlinkPath s.tree).file k := by
  obtain ⟨-, hcases⟩ := doDel_cases h
  rw [hs.textOf, hloc] at hcases
  rcases hcases with ⟨hnone, -⟩ | ⟨before, stanza, after, hsome, hr, -, f, rfl, hfile⟩
  · simp at hnone
  · obtain ⟨rfl, rfl, rfl⟩ : render as = before ∧ unlines nl st.lines = stanza ∧ render bs = after := by
      simpa using hsome
    rw [doomed, filePaths_lines] at hfile
    have hother : ∀ k, k ≠ worldRef.key → s'.tree.file k
        = Function.update ((st.paths.map (absolutize host.cwd)).foldl unlinkPath s.tree).file
            dbRef.key (some (render as ++ render bs)) k := by
      intro k hk
      rw [hfile]
      split
      · rfl
      · rw [Function.update_of_ne hk]
    refine ⟨hr, ?_, fun k hkdb hkw => ?_⟩
    · rw [Holds, hother _ dbRef_ne_worldRef, Function.update_self, Option.getD_some, render_append]
    · rw [hother k hkw, Function.update_of_ne hkdb]

/-! ## What is owed for a name -/

/-- Some stanza is named `q`. -/
def Named (ss : List Stanza) (q : Bytes) : Prop := ∃ st ∈ ss, st.name = q

/-- `do_add`, `do_del` and `list` take `q` for installed exactly when a stanza is named `q`,
and a successful `do_del` takes out one such stanza and unlinks exactly its files. -/
structure StanzaExact (host : Host) (s : State) (ss : List Stanza) (q : Bytes) : Prop where
  add : ∀ recordWorld, doAdd host recordWorld q s
    = (some 0, s.say (q ++ ascii ": already installed" ++ [nl])) ↔ Named ss q
  del : (doDel host q s).1 = some 0 ↔ Named ss q
  list : ∀ rest, listLine (readFileOrEmpty s dbPath) (q ++ 32 :: rest)
    = q ++ 32 :: rest ++ ascii " [installed]" ++ [nl] ↔ Named ss q
  cut : (doDel host q s).1 = some 0 → ∃ as st bs, ss = as ++ st :: bs ∧ st.name = q ∧
    located (readFileOrEmpty s dbPath) q = some (render as, unlines nl st.lines, render bs) ∧
    Holds (doDel host q s).2 (as ++ bs) ∧
    ∀ k, k ≠ dbRef.key → k ≠ worldRef.key → (doDel host q s).2.tree.file k
      = ((st.paths.map (absolutize host.cwd)).foldl unlinkPath s.tree).file k

/-- A line of the database ends in `P:<q>`. -/
def Mentioned (ss : List Stanza) (q : Bytes) : Prop := ∃ l ∈ dbLines ss, nameLine q <:+ l

theorem Named.mentioned {ss : List Stanza} {q : Bytes} (h : Named ss q) : Mentioned ss q := by
  obtain ⟨st, hst, hname⟩ := h
  exact ⟨nameLine q, List.mem_flatMap.mpr ⟨st, hst, nameLine_mem_lines_iff.mpr hname⟩,
    List.suffix_rfl⟩

theorem doAdd_already_iff {host : Host} {s : State} {ss : List Stanza} {q : Bytes}
    (hs : Holds s ss) (hq : nl ∉ q) (recordWorld : Bool) :
    doAdd host recordWorld q s = (some 0, s.say (q ++ ascii ": already installed" ++ [nl])) ↔
      Mentioned ss q := by
  have hprobe := probe_render_isSome_iff ss hq
  rw [Mentioned, ← hprobe, ← hs.textOf]
  constructor
  · intro h
    rcases doAdd_cases h with ⟨hfound, -⟩ | ⟨-, ⟨hr, -⟩ | ⟨tar, mid, -, -, -, hcalls, -, -, hinst⟩⟩
    · exact hfound
    · simp at hr
    · -- the other branch has called the host
      obtain ⟨ms, ver, desc, -, -, -, hcalls', -⟩ := installTarFile_spec hinst
      rw [hcalls] at hcalls'
      simp at hcalls'
  · intro h
    obtain ⟨hit, hhit⟩ := Option.isSome_iff_exists.mp h
    rw [doAdd, readFileOrEmpty_db, hhit]

theorem doDel_fst_iff {host : Host} {s : State} {ss : List Stanza} {q : Bytes}
    (hs : Holds s ss) (hq : nl ∉ q) : (doDel host q s).1 = some 0 ↔ Mentioned ss q := by
  have hprobe := probe_render_isSome_iff ss hq
  rw [Mentioned, ← hprobe, ← hs.textOf]
  rcases hdel : doDel host q s with ⟨r, s'⟩
  obtain ⟨-, ⟨hnone, rfl, -⟩ | ⟨before, stanza, after, hsome, rfl, -⟩⟩ := doDel_cases hdel
  · rw [located, Option.map_eq_none_iff] at hnone
    simp [hnone]
  · rw [located, Option.map_eq_some_iff] at hsome
    obtain ⟨hit, hhit, -⟩ := hsome
    simp [hhit]

/-- `list` looks for the first 63 bytes of a name, up to a space. -/
theorem listName_append (q rest : Bytes) : listName (q ++ 32 :: rest) = listName q := by
  unfold listName
  rcases Nat.lt_or_ge q.length 63 with hlt | hge
  · obtain ⟨n, hn⟩ : ∃ n, 63 - q.length = n + 1 := ⟨62 - q.length, by omega⟩
    rw [List.take_append, hn, List.take_succ_cons, List.take_of_length_le hlt.le,
      List.takeWhile_append]
    simp only [ne_eq, not_true_eq_false, decide_false, Bool.false_eq_true, not_false_eq_true,
      List.takeWhile_cons_of_neg, List.append_nil]
    split_ifs with hlen
    · exact (List.takeWhile_prefix _).eq_of_length hlen |>.symm
    · rfl
  · rw [List.take_append_of_le_length hge]

theorem listLine_iff {s : State} {ss : List Stanza} {q : Bytes} (hs : Holds s ss) (hq : nl ∉ q)
    (rest : Bytes) :
    listLine (readFileOrEmpty s dbPath) (q ++ 32 :: rest)
      = q ++ 32 :: rest ++ ascii " [installed]" ++ [nl] ↔ Mentioned ss (listName q) := by
  have hq' : nl ∉ listName q := fun h =>
    hq (List.mem_of_mem_take ((List.takeWhile_subset _) h))
  have hprobe := probe_render_isSome_iff ss hq'
  rw [Mentioned, ← hprobe, listLine, readFileOrEmpty_db, hs.textOf, listName_append]
  cases findSub (probe (listName q)) (render ss) with
  | none => simp [ascii]
  | some hit => simp

/-- Text given by whole lines does not end inside a line. -/
private theorem eq_nil_of_unlines_append {as bs : List Bytes} {w : Bytes} (hw : nl ∉ w)
    (h : unlines nl as ++ w = unlines nl bs) : w = [] := by
  rcases List.eq_nil_or_concat w with rfl | ⟨w', c, rfl⟩
  · rfl
  · rcases List.eq_nil_or_concat bs with rfl | ⟨bs', b, rfl⟩
    · simp at h
    · rw [List.concat_eq_append, List.concat_eq_append, unlines_append, ← List.append_assoc] at h
      have hlast := congrArg List.getLast? h
      simp only [List.getLast?_append, unlines_cons, unlines_nil, List.getLast?_cons,
        List.getLast?_nil, Option.getD_none, Option.some_or, Option.some.injEq] at hlast
      exact absurd (by rw [List.concat_eq_append, hlast]; simp) hw

/-- **Exactness at a name**: the applet delivers exactly when the first line that ends in
`P:<q>` is a name line, and the database says of the part of `q` that `list` looks at what it
says of `q`. -/
theorem stanzaExact_iff {host : Host} {s : State} {ss : List Stanza} {q : Bytes}
    (hs : Holds s ss) (hq : nl ∉ q) :
    StanzaExact host s ss q ↔
      NameLineFirst ss q ∧ (Mentioned ss (listName q) ↔ Named ss q) := by
  constructor
  · intro h
    refine ⟨fun l hl => ?_, (listLine_iff hs hq []).symm.trans (h.list [])⟩
    have hmem : l ∈ dbLines ss := List.mem_of_find?_eq_some hl
    have hend : nameLine q <:+ l := List.isSuffixOf_iff_suffix.mp (List.find?_some hl)
    obtain ⟨as, st, bs, rfl, -, hloc, -⟩ := h.cut ((doDel_fst_iff hs hq).mpr ⟨l, hmem, hend⟩)
    rw [readFileOrEmpty_db, hs.textOf] at hloc
    have hls : ∀ l ∈ dbLines (as ++ st :: bs), nl ∉ l := fun l hl => (plain_of_mem_dbLines hl).1
    rcases findSub_unlines nl (not_mem_nameLine hq) hls with
      ⟨-, hno⟩ | ⟨pre, w, post, hsplit, hpre, hsome⟩
    · exact absurd hend (hno l hmem)
    · -- the search stops `w` into a line, and the cut starts a line, so `w` is empty
      rw [located, show findSub (probe q) (render (as ++ st :: bs)) = some _ from hsome,
        Option.map_some, Option.some.injEq, Prod.mk.injEq] at hloc
      have hw : nl ∉ w := fun hm => hls (w ++ nameLine q) (by rw [hsplit]; simp)
        (List.mem_append_left _ hm)
      have hw0 : w = [] := eq_nil_of_unlines_append hw hloc.1
      rw [hsplit, List.find?_append, List.find?_eq_none.mpr fun l hl => by
        simpa using fun h => hpre l hl (List.isSuffixOf_iff_suffix.mp h)] at hl
      simp only [hw0, List.nil_append, Option.none_or, List.find?_cons_of_pos,
        List.isSuffixOf_iff_suffix.mpr List.suffix_rfl] at hl
      exact (Option.some.inj hl).symm
  · rintro ⟨hfirst, hlist⟩
    have hnamed : Mentioned ss q ↔ Named ss q := by
      refine ⟨fun hm => ?_, Named.mentioned⟩
      rcases located_render hq hfirst with ⟨hnone, -⟩ | ⟨as, st, bs, rfl, hname, -⟩
      · rw [located, Option.map_eq_none_iff] at hnone
        rw [Mentioned, ← probe_render_isSome_iff ss hq, hnone] at hm
        simp at hm
      · exact ⟨st, by simp, hname⟩
    refine ⟨fun w => (doAdd_already_iff hs hq w).trans hnamed, (doDel_fst_iff hs hq).trans hnamed,
      fun rest => (listLine_iff hs hq rest).trans hlist, fun hdel => ?_⟩
    obtain ⟨st', hst', hname'⟩ := hnamed.mp ((doDel_fst_iff hs hq).mp hdel)
    rcases located_render hq hfirst with ⟨-, hno⟩ | ⟨as, st, bs, rfl, hname, -, hloc⟩
    · exact absurd hname' (hno st' hst')
    · obtain ⟨-, hholds, hfiles⟩ := hs.del hloc (Prod.mk.eta (p := doDel host q s)).symm
      refine ⟨as, st, bs, rfl, hname, ?_, hholds, hfiles⟩
      rw [readFileOrEmpty_db, hs.textOf, hloc]

/-! ## Runs -/

/-- The states that fetches, installations and removals reach from an empty database when
every archive is safe and every removal finds a name line first. -/
inductive DbReachable (host : Host) : State → Prop
  | start {s : State} (hempty : Holds s []) : DbReachable host s
  | fetch {s s' : State} {name : Bytes} {r : Except Bytes Unit} (hs : DbReachable host s)
      (h : osdPkgFetch host name tartmp s = (r, s')) : DbReachable host s'
  | install {s s' : State} {name : Bytes} {recordWorld : Bool} {r : Option ℕ}
      (hs : DbReachable host s) (hname : Plain name) (harch : SafeArchive (archive s))
      (h : installTarFile name recordWorld s = (r, s')) : DbReachable host s'
  | del {s s' : State} {ss : List Stanza} {q : Bytes} {r : Option ℕ}
      (hs : DbReachable host s) (hholds : Holds s ss) (hq : Plain q) (hfirst : NameLineFirst ss q)
      (h : doDel host q s = (r, s')) : DbReachable host s'

theorem Holds.fetch {host : Host} {name : Bytes} {s s' : State} {ss : List Stanza}
    {r : Except Bytes Unit} (hs : Holds s ss) (h : osdPkgFetch host name tartmp s = (r, s')) :
    Holds s' ss := by
  obtain ⟨-, -, hsame, hok⟩ := osdPkgFetch_spec h
  cases r with
  | error e => rw [Holds, (hsame e rfl).1, hs]
  | ok u =>
    obtain ⟨tar, -, -, hfile, -⟩ := hok rfl
    rw [Holds, hfile, Function.update_of_ne dbRef_ne_tartmpRef, hs]

/-- Every reached database is a list of stanzas. -/
theorem DbReachable.holds {host : Host} {s : State} (h : DbReachable host s) :
    ∃ ss, Holds s ss := by
  induction h with
  | start hempty => exact ⟨[], hempty⟩
  | fetch _ h ih =>
    obtain ⟨ss, hss⟩ := ih
    exact ⟨ss, hss.fetch h⟩
  | install _ hname harch h ih =>
    obtain ⟨ss, hss⟩ := ih
    obtain ⟨st, -, hst | ⟨-, hst⟩, -⟩ := hss.install hname harch h
    · exact ⟨ss ++ [st], hst⟩
    · exact ⟨ss, hst⟩
  | @del _ _ ss _ _ _ hholds hq hfirst h _ =>
    rcases located_render hq.1 hfirst with ⟨hnone, -⟩ | ⟨as, st, bs, rfl, -, -, hloc⟩
    · obtain ⟨-, ⟨-, -, htree⟩ | ⟨before, stanza, after, hsome, -⟩⟩ := doDel_cases h
      · exact ⟨ss, by rw [Holds, htree, hholds]⟩
      · rw [hholds.textOf, hnone] at hsome
        simp at hsome
    · exact ⟨as ++ bs, (hholds.del hloc h).2.1⟩

/-- **Stanza exactness.**  Every reached database is the text of a list of stanzas, and there
the applet is exact about a name exactly when the first line that ends in `P:<name>` is a name
line and `list`, which looks at 63 bytes up to a space, is not misled. -/
theorem database_exact {host : Host} {s : State} (h : DbReachable host s) :
    ∃ ss, Holds s ss ∧ ∀ q, Plain q →
      (StanzaExact host s ss q ↔
        NameLineFirst ss q ∧ (Mentioned ss (listName q) ↔ Named ss q)) := by
  obtain ⟨ss, hss⟩ := h.holds
  exact ⟨ss, hss, fun q hq => stanzaExact_iff hss hq.1⟩

/-- A fetch and an installation of an archive without members. -/
theorem DbReachable.fetch_install {host : Host} {s : State} {name : Bytes} (hs : DbReachable host s)
    (hname : Plain name) (harch : members (archive (osdPkgFetch host name tartmp s).2) = [])
    (recordWorld : Bool) :
    DbReachable host (installTarFile name recordWorld (osdPkgFetch host name tartmp s).2).2 := by
  have hsafe : SafeArchive (archive (osdPkgFetch host name tartmp s).2) := by
    intro m hm
    rw [harch] at hm
    simp at hm
  exact (hs.fetch rfl).install hname hsafe rfl

/-! ## A name that ends like another -/

/-- A tree with nothing in it. -/
def bareTree : FileTree Bytes Bytes := ⟨fun _ => none, fun _ _ h => absurd rfl h⟩

/-- The state before anything was installed. -/
def bareState : State := ⟨bareTree, 0, []⟩

/-- A host whose archives are empty files. -/
def bareHost : Host where
  index := fun _ => .ok []
  fetch := fun _ _ => .ok []
  cwd := [slash]

/-- The state in which `do_add` installs a name for the first time. -/
def fetched (name : Bytes) : State := (osdPkgFetch bareHost name tartmp bareState).2

/-- The state after that installation. -/
def justInstalled (name : Bytes) : State := (installTarFile name true (fetched name)).2

theorem bareState_reachable : DbReachable bareHost bareState := .start (by unfold Holds; decide +kernel)

/-- After `apk add b` the applet is exact about `b`. -/
theorem database_exact_b :
    DbReachable bareHost (justInstalled (ascii "b")) ∧
    ∃ ss, Holds (justInstalled (ascii "b")) ss ∧
      (StanzaExact bareHost (justInstalled (ascii "b")) ss (ascii "b") ↔
        NameLineFirst ss (ascii "b") ∧
          (Mentioned ss (listName (ascii "b")) ↔ Named ss (ascii "b"))) := by
  have hreach : DbReachable bareHost (justInstalled (ascii "b")) :=
    bareState_reachable.fetch_install (by decide) (by decide +kernel) true
  obtain ⟨ss, hss, hexact⟩ := database_exact hreach
  exact ⟨hreach, ss, hss, hexact (ascii "b") (by decide)⟩

/-- The stanza of a package named `xP:b` without files. -/
def impostor : Stanza := ⟨ascii "xP:b", ascii "?", ascii "?", [], by decide⟩

/-- After `apk add xP:b`, and nothing else, `do_add b` reports `b` as installed and installs
nothing, `do_del b` succeeds, and no stanza is named `b`. -/
theorem stanza_exact_fails_b :
    DbReachable bareHost (justInstalled (ascii "xP:b")) ∧
    Holds (justInstalled (ascii "xP:b")) [impostor] ∧
    ¬ StanzaExact bareHost (justInstalled (ascii "xP:b")) [impostor] (ascii "b") := by
  have hholds : Holds (justInstalled (ascii "xP:b")) [impostor] := by
    unfold Holds
    decide +kernel
  have hreach : DbReachable bareHost (justInstalled (ascii "xP:b")) :=
    bareState_reachable.fetch_install (by decide) (by decide +kernel) true
  refine ⟨hreach, hholds, fun h => ?_⟩
  obtain ⟨hfirst, -⟩ := (stanzaExact_iff hholds (by decide)).mp h
  revert hfirst
  decide +kernel

end OsMoap.Apk
