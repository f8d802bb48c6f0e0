import OsMoap.Pack.Stage
import OsMoap.Pack.Cards
import OsMoap.Pack.Reindex

/-!
# Reproducible Packages

`build_gz` is called on one stage again and again: by `pack_pkg` for the cards, by
`pack_repo` for the blob.  Between the calls the operating system may enumerate the
directories of the stage in another order (`Dir.Reorder`), and the first call on a stage
without a `.PKGINFO` leaves one behind, so that later calls find it.

A walk over sorted names does not see the order of enumeration (`Dir.Reorder.walk_eq`), and a
call on the stage an earlier call left yields what the earlier call did (`buildGz_again`).
Both together carry over a whole run of calls.
-/

namespace OsMoap.Pack

open OsMoap.Lib

/-! ## Enumeration orders -/

mutual

/-- The same directory, enumerated in another order. -/
inductive Dir.Reorder : Dir → Dir → Prop
  | mk {files files' : List (Text × Bytes)} {dirs dirs' : Dirs} (hf : files.Perm files')
      (hd : Dirs.Reorder dirs dirs') : Dir.Reorder (.mk files dirs) (.mk files' dirs')

inductive Dirs.Reorder : Dirs → Dirs → Prop
  | nil : Dirs.Reorder .nil .nil
  | cons (name : Text) {dir dir' : Dir} {rest rest' : Dirs} (hd : Dir.Reorder dir dir')
      (hr : Dirs.Reorder rest rest') : Dirs.Reorder (.cons name dir rest) (.cons name dir' rest')
  | swap (n m : Text) (d e : Dir) (rest : Dirs) :
      Dirs.Reorder (.cons n d (.cons m e rest)) (.cons m e (.cons n d rest))
  | trans {as bs cs : Dirs} (h : Dirs.Reorder as bs) (h' : Dirs.Reorder bs cs) :
      Dirs.Reorder as cs

end

mutual

theorem Dir.Reorder.refl : ∀ d : Dir, Dir.Reorder d d
  | .mk files dirs => .mk (List.Perm.refl files) (Dirs.Reorder.refl dirs)

theorem Dirs.Reorder.refl : ∀ ds : Dirs, Dirs.Reorder ds ds
  | .nil => .nil
  | .cons name dir rest => .cons name (Dir.Reorder.refl dir) (Dirs.Reorder.refl rest)

end

theorem Dirs.names_perm {ds ds' : Dirs} : Dirs.Reorder ds ds' → ds.names.Perm ds'.names
  | .nil => List.Perm.refl _
  | .cons name _ hr => (Dirs.names_perm hr).cons name
  | .swap n m _ _ _ => List.Perm.swap m n _
  | .trans h h' => (Dirs.names_perm h).trans (Dirs.names_perm h')

mutual

theorem Dir.Reorder.wf {d d' : Dir} : Dir.Reorder d d' → d.WF → d'.WF
  | .mk hf hd, hwf => by
    obtain ⟨hnodup, hfiles, hdirs⟩ := hwf
    refine ⟨?_, fun f hmem => hfiles f (hf.mem_iff.mpr hmem), Dirs.Reorder.wf hd hdirs⟩
    exact ((hf.map Prod.fst).append (Dirs.names_perm hd)).nodup_iff.mp hnodup

theorem Dirs.Reorder.wf {ds ds' : Dirs} : Dirs.Reorder ds ds' → ds.WF → ds'.WF
  | .nil, _ => trivial
  | .cons _ hd hr, ⟨hname, hdir, hrest⟩ => ⟨hname, Dir.Reorder.wf hd hdir, Dirs.Reorder.wf hr hrest⟩
  | .swap _ _ _ _ _, ⟨hn, hd, hm, he, hrest⟩ => ⟨hm, he, hn, hd, hrest⟩
  | .trans h h', hwf => Dirs.Reorder.wf h' (Dirs.Reorder.wf h hwf)

end

theorem Dirs.names_walks (rel : Text) : ∀ ds : Dirs, (ds.walks rel).map Prod.fst = ds.names
  | .nil => rfl
  | .cons name dir rest => by
    rw [Dirs.walks, List.map_cons, Dirs.names_walks rel rest, Dirs.names]

mutual

/-- **The walk does not see the order of enumeration.** -/
theorem Dir.Reorder.walk_eq {d d' : Dir} : Dir.Reorder d d' → d.WF → ∀ rel,
    d.walk rel = d'.walk rel
  | @Dir.Reorder.mk files files' dirs dirs' hf hd, hwf, rel => by
    obtain ⟨hnodup, -, hdirs⟩ := hwf
    obtain ⟨hfiles, hnames, -⟩ := List.nodup_append.mp hnodup
    have hsub : (dirs.walks rel).mergeSort byName = (dirs'.walks rel).mergeSort byName := by
      apply mergeSort_byName_congr (Dirs.Reorder.walks_perm hd hdirs rel)
      rwa [Dirs.names_walks]
    rw [Dir.walk, Dir.walk, mergeSort_byName_congr hf hfiles, hsub]

theorem Dirs.Reorder.walks_perm {ds ds' : Dirs} : Dirs.Reorder ds ds' → ds.WF → ∀ rel,
    (ds.walks rel).Perm (ds'.walks rel)
  | .nil, _, _ => List.Perm.refl _
  | .cons name hd hr, ⟨_, hdir, hrest⟩, rel => by
    rw [Dirs.walks, Dirs.walks, Dir.Reorder.walk_eq hd hdir]
    exact (Dirs.Reorder.walks_perm hr hrest rel).cons _
  | .swap _ _ _ _ _, _, _ => List.Perm.swap _ _ _
  | .trans h h', hwf, rel =>
    (Dirs.Reorder.walks_perm h hwf rel).trans
      (Dirs.Reorder.walks_perm h' (Dirs.Reorder.wf h hwf) rel)

end

/-! ## One call -/

variable {gzip : Bytes → Bytes}

theorem any_pkginfo_iff {entries : List TarEntry} :
    (entries.any fun e => e.1 = pkginfoName) = true ↔ pkginfoName ∈ entries.map Prod.fst := by
  simp

/-- The root of a stage holds the file that `os.walk` calls `.PKGINFO`. -/
theorem mem_arcs_of_mem_files {d : Dir} (hd : d.WF) {f : Text × Bytes} (hf : f ∈ d.files) :
    f.1 ∈ (d.walk []).map Prod.fst := by
  obtain ⟨files, dirs⟩ := d
  have hmem : arcOf ([f.1], f.2) ∈ (Dir.mk files dirs).listing.map arcOf :=
    List.mem_map_of_mem (List.mem_append_left _ (List.mem_map_of_mem hf))
  have hwalk : (arcOf ([f.1], f.2)).1 ∈ ((Dir.mk files dirs).walk []).map Prod.fst :=
    List.mem_map_of_mem ((walk_perm_arcOf hd).mem_iff.mpr hmem)
  rwa [arcOf, joinSlash_singleton] at hwalk

/-- The stage with its `.PKGINFO` stored. -/
def Dir.withInfo (d : Dir) (info : Bytes) : Dir := .mk (d.files ++ [(pkginfoName, info)]) d.dirs

theorem wf_withInfo {d : Dir} (hd : d.WF) (info : Bytes)
    (hfile : pkginfoName ∉ (d.walk []).map Prod.fst) (hdir : pkginfoName ∉ d.dirs.names) :
    (d.withInfo info).WF := by
  have hfresh : pkginfoName ∉ d.files.map Prod.fst := by
    intro hmem
    obtain ⟨f, hf, heq⟩ := List.mem_map.mp hmem
    exact hfile (heq ▸ mem_arcs_of_mem_files hd hf)
  obtain ⟨files, dirs⟩ := d
  obtain ⟨hnodup, hfiles, hdirs⟩ := hd
  refine ⟨?_, ?_, hdirs⟩
  · have hperm : ((files ++ [(pkginfoName, info)]).map Prod.fst ++ dirs.names).Perm
        (pkginfoName :: (files.map Prod.fst ++ dirs.names)) := by
      rw [List.map_append, List.append_assoc]
      exact List.perm_middle
    refine hperm.nodup_iff.mpr (List.nodup_cons.mpr ⟨?_, hnodup⟩)
    intro hmem
    rcases List.mem_append.mp hmem with hmem | hmem
    · exact hfresh hmem
    · exact hdir hmem
  · intro f hf
    rcases List.mem_append.mp hf with hf | hf
    · exact hfiles f hf
    · obtain rfl := List.mem_singleton.mp hf
      show FileName pkginfoName
      decide

/-- The entries the synthesised `.PKGINFO` is added to are those of the stored stage. -/
theorem walk_withInfo_perm {d : Dir} (hd : d.WF) (info : Bytes) (hd' : (d.withInfo info).WF) :
    ((d.withInfo info).walk []).Perm (d.walk [] ++ [(pkginfoName, info)]) := by
  refine (walk_perm_arcOf hd').trans ?_
  refine List.Perm.trans ?_ ((walk_perm_arcOf hd).symm.append_right _)
  obtain ⟨files, dirs⟩ := d
  have hinfo : arcOf ([pkginfoName], info) = (pkginfoName, info) := by
    rw [arcOf, joinSlash_singleton]
  simp only [Dir.withInfo, Dir.files, Dir.dirs, Dir.listing, List.map_append, List.map_cons,
    List.map_nil, List.append_assoc, hinfo]
  exact List.Perm.append_left _ (List.perm_append_comm)

/-- **What a call does**: it refuses and leaves the stage, or it packs the stage with the
`.PKGINFO` that is there, or it stores one and packs the stage with it. -/
theorem stageEntries_cases (a : PkgArgs) {d : Dir} (hd : d.WF) :
    (∃ msg, ∀ b, stageEntries b d = (.error msg, d)) ∨
    (pkginfoName ∈ (d.walk []).map Prod.fst ∧ (∀ e ∈ d.walk [], underHome e.1 = false) ∧
      ∀ b, stageEntries b d = (.ok (d.walk []), d)) ∨
    ((d.withInfo (storedInfo a (d.walk []))).WF ∧ pkginfoName ∉ (d.walk []).map Prod.fst ∧
      (∀ e ∈ d.walk [], underHome e.1 = false) ∧
      stageEntries a d = (.ok (d.walk [] ++ [(pkginfoName, storedInfo a (d.walk []))]),
        d.withInfo (storedInfo a (d.walk [])))) := by
  cases hfind : (d.walk []).find? fun e => underHome e.1 with
  | some e => exact Or.inl ⟨_, fun b => by rw [stageEntries, hfind]⟩
  | none =>
    have hhome : ∀ e ∈ d.walk [], underHome e.1 = false := by simpa using hfind
    by_cases hany : ((d.walk []).any fun e => e.1 = pkginfoName) = true
    · refine Or.inr (Or.inl ⟨any_pkginfo_iff.mp hany, hhome, fun b => ?_⟩)
      rw [stageEntries, hfind]
      exact if_pos hany
    · have hfile : pkginfoName ∉ (d.walk []).map Prod.fst := fun h => hany (any_pkginfo_iff.mpr h)
      by_cases hdir : pkginfoName ∈ d.dirs.names
      · refine Or.inl ⟨"IsADirectoryError".toList, fun b => ?_⟩
        simp only [stageEntries, hfind]
        rw [if_neg hany, if_pos hdir]
      · refine Or.inr (Or.inr ⟨wf_withInfo hd _ hfile hdir, hfile, hhome, ?_⟩)
        simp only [stageEntries, hfind]
        rw [if_neg hany, if_neg hdir]
        rfl

theorem buildTar_congr {entries entries' : List TarEntry} (hperm : entries.Perm entries')
    (hnodup : (entries.map Prod.fst).Nodup) : buildTar entries = buildTar entries' := by
  have hsort : sortEntries entries = sortEntries entries' := mergeSort_byName_congr hperm hnodup
  rw [buildTar, buildTar, hsort]

/-- A call on the stage an earlier call left yields the earlier result and leaves the stage. -/
theorem buildGz_again (a b : PkgArgs) {d : Dir} (hd : d.WF) :
    buildGz gzip b (buildGz gzip a d).2 = buildGz gzip a d := by
  rcases stageEntries_cases a hd with ⟨msg, h⟩ | ⟨-, -, h⟩ | ⟨hwf, hfile, hhome, h⟩
  · simp only [buildGz, h]
  · simp only [buildGz, h]
  · generalize storedInfo a (d.walk []) = info at hwf h
    have hperm := walk_withInfo_perm hd info hwf
    have hmem : pkginfoName ∈ ((d.withInfo info).walk []).map Prod.fst :=
      (hperm.map Prod.fst).mem_iff.mpr (by simp)
    have hok : ∀ e ∈ (d.withInfo info).walk [], underHome e.1 = false := by
      intro e he
      rcases List.mem_append.mp (hperm.mem_iff.mp he) with he | he
      · exact hhome e he
      · obtain rfl := List.mem_singleton.mp he
        show underHome pkginfoName = false
        decide
    have hagain : stageEntries b (d.withInfo info)
        = (.ok ((d.withInfo info).walk []), d.withInfo info) := by
      rcases stageEntries_cases b hwf with ⟨msg, h'⟩ | ⟨-, -, h'⟩ | ⟨-, hno, -⟩
      · exfalso
        have hfind : ((d.withInfo info).walk []).find? (fun e => underHome e.1) = none := by
          simpa using hok
        have hfst := congrArg Prod.fst (h' b)
        simp [stageEntries, hfind, any_pkginfo_iff.mpr hmem] at hfst
      · exact h' b
      · exact absurd hmem hno
    have htar : buildTar ((d.withInfo info).walk [])
        = buildTar (d.walk [] ++ [(pkginfoName, info)]) := buildTar_congr hperm (nodup_arcs hwf)
    simp only [buildGz, h, hagain, tarOf, htar]

/-- A call does not see the order of enumeration. -/
theorem buildGz_reorder (a : PkgArgs) {d d' : Dir} (h : Dir.Reorder d d') (hd : d.WF) :
    (buildGz gzip a d).1 = (buildGz gzip a d').1 ∧
      Dir.Reorder (buildGz gzip a d).2 (buildGz gzip a d').2 := by
  have hwalk := h.walk_eq hd []
  obtain @⟨files, files', dirs, dirs', hf, hdirs⟩ := h
  have hnames : pkginfoName ∈ (Dir.mk files dirs).dirs.names ↔
      pkginfoName ∈ (Dir.mk files' dirs').dirs.names := (Dirs.names_perm hdirs).mem_iff
  have hsame : (stageEntries a (.mk files dirs)).1 = (stageEntries a (.mk files' dirs')).1 ∧
      Dir.Reorder (stageEntries a (.mk files dirs)).2 (stageEntries a (.mk files' dirs')).2 := by
    simp only [stageEntries, hwalk]
    cases hfind : ((Dir.mk files' dirs').walk []).find? fun e => underHome e.1 with
    | some e => exact ⟨rfl, .mk hf hdirs⟩
    | none =>
      by_cases hany : (((Dir.mk files' dirs').walk []).any fun e => e.1 = pkginfoName) = true
      · rw [if_pos hany, if_pos hany]
        exact ⟨rfl, .mk hf hdirs⟩
      · rw [if_neg hany, if_neg hany]
        by_cases hdir : pkginfoName ∈ (Dir.mk files dirs).dirs.names
        · rw [if_pos hdir, if_pos (hnames.mp hdir)]
          exact ⟨rfl, .mk hf hdirs⟩
        · rw [if_neg hdir, if_neg fun h => hdir (hnames.mpr h)]
          exact ⟨rfl, .mk (hf.append_right _) hdirs⟩
  exact ⟨congrArg (tarOf gzip) hsame.1, hsame.2⟩

theorem wf_buildGz (a : PkgArgs) {d : Dir} (hd : d.WF) : (buildGz gzip a d).2.WF := by
  rcases stageEntries_cases a hd with ⟨msg, h⟩ | ⟨-, -, h⟩ | ⟨hwf, -, -, h⟩
  · simpa only [buildGz, h] using hd
  · simpa only [buildGz, h] using hd
  · simpa only [buildGz, h] using hwf

/-! ## Runs of calls -/

/-- Calls of `build_gz` on one stage, each after the operating system has enumerated it
anew, with their arguments and results. -/
inductive Calls (gzip : Bytes → Bytes) :
    Dir → List PkgArgs → List (Except Text (Bytes × Bytes)) → Prop
  | nil (d : Dir) : Calls gzip d [] []
  | cons {d d' : Dir} {a : PkgArgs} {as : List PkgArgs} {outs : List (Except Text (Bytes × Bytes))}
      (h : Dir.Reorder d d') (rest : Calls gzip (buildGz gzip a d').2 as outs) :
      Calls gzip d (a :: as) ((buildGz gzip a d').1 :: outs)

/-- Calls on a stage that an earlier call left all yield its result. -/
theorem Calls.eq_of_settled {d : Dir} {as : List PkgArgs}
    {outs : List (Except Text (Bytes × Bytes))} {out : Except Text (Bytes × Bytes)}
    (h : Calls gzip d as outs) (hd : d.WF) (hout : ∀ b, buildGz gzip b d = (out, d)) :
    ∀ r ∈ outs, r = out := by
  induction h with
  | nil d => simp
  | @cons d d' a as outs hre _ ih =>
    have hd' := hre.wf hd
    have hfirst : (buildGz gzip a d').1 = out := by
      rw [← (buildGz_reorder a hre hd).1, hout]
    intro r hr
    rcases List.mem_cons.mp hr with rfl | hr
    · exact hfirst
    · refine ih (wf_buildGz a hd') (fun b => ?_) r hr
      rw [buildGz_again a b hd', ← hfirst]

/-- In a run every call yields the result of the first. -/
theorem Calls.eq_first {d : Dir} {a : PkgArgs} {as : List PkgArgs}
    {outs : List (Except Text (Bytes × Bytes))} (h : Calls gzip d (a :: as) outs) (hd : d.WF) :
    ∀ r ∈ outs, r = (buildGz gzip a d).1 := by
  cases h with
  | @cons _ d' _ _ outs hre hrest =>
    have hd' := hre.wf hd
    have hfirst : (buildGz gzip a d).1 = (buildGz gzip a d').1 := (buildGz_reorder a hre hd).1
    have hsettled : ∀ b, buildGz gzip b (buildGz gzip a d').2
        = ((buildGz gzip a d).1, (buildGz gzip a d').2) := by
      intro b
      rw [buildGz_again a b hd', hfirst]
    intro r hr
    rcases List.mem_cons.mp hr with rfl | hr
    · exact hfirst.symm
    · exact hrest.eq_of_settled (wf_buildGz a hd') hsettled r hr

theorem ok_of_tarOf {entries : Except Text (List TarEntry)} {out : Bytes × Bytes}
    (h : tarOf gzip entries = .ok out) :
    ∃ es, entries = .ok es ∧ buildTar es = some out.1 ∧ out.2 = gzip out.1 := by
  cases entries with
  | error e => simp [tarOf] at h
  | ok es =>
    cases hraw : buildTar es with
    | none => simp [tarOf, hraw] at h
    | some raw =>
      simp only [tarOf, hraw, Except.ok.injEq] at h
      subst h
      exact ⟨es, rfl, hraw, rfl⟩

/-- The archive depends on the files alone. -/
theorem eq_of_listing_perm {d d' : Dir} (hd : d.WF) (hd' : d'.WF)
    (hfiles : d.listing.Perm d'.listing) {a b : PkgArgs} {out out' : Bytes × Bytes}
    (hargs : a = b ∨ ∃ info, ([pkginfoName], info) ∈ d.listing)
    (h : (buildGz gzip a d).1 = .ok out) (h' : (buildGz gzip b d').1 = .ok out') : out = out' := by
  have hwalks : (d.walk []).Perm (d'.walk []) :=
    (walk_perm_arcOf hd).trans ((hfiles.map arcOf).trans (walk_perm_arcOf hd').symm)
  have harcs : pkginfoName ∈ (d.walk []).map Prod.fst ↔ pkginfoName ∈ (d'.walk []).map Prod.fst :=
    (hwalks.map Prod.fst).mem_iff
  have hinfo : pkginfoName ∉ (d.walk []).map Prod.fst → a = b := by
    intro hno
    rcases hargs with heq | ⟨info, hmem⟩
    · exact heq
    · have harc := List.mem_map_of_mem (f := arcOf) hmem
      rw [← (walk_perm_arcOf hd).mem_iff, arcOf, joinSlash_singleton] at harc
      exact absurd (List.mem_map_of_mem harc) hno
  obtain ⟨es, hes, hraw, hgz⟩ := ok_of_tarOf h
  obtain ⟨es', hes', hraw', hgz'⟩ := ok_of_tarOf h'
  -- both stages have a `.PKGINFO`, or both are packed with the same one
  have htars : buildTar es = buildTar es' := by
    rcases stageEntries_cases a hd with ⟨msg, hc⟩ | ⟨hin, -, hc⟩ | ⟨hwf, hin, -, hc⟩
    · simp [hc] at hes
    · rcases stageEntries_cases b hd' with ⟨msg, hc'⟩ | ⟨-, -, hc'⟩ | ⟨-, hin', -⟩
      · simp [hc'] at hes'
      · rw [hc, Except.ok.injEq] at hes
        rw [hc', Except.ok.injEq] at hes'
        rw [← hes, ← hes']
        exact buildTar_congr hwalks (nodup_arcs hd)
      · exact absurd (harcs.mp hin) hin'
    · rcases stageEntries_cases b hd' with ⟨msg, hc'⟩ | ⟨hin', -, -⟩ | ⟨-, -, -, hc'⟩
      · simp [hc'] at hes'
      · exact absurd (harcs.mpr hin') hin
      · rw [hc, Except.ok.injEq] at hes
        rw [hc', Except.ok.injEq, ← hinfo hin] at hes'
        have hsize : storedInfo a (d.walk []) = storedInfo a (d'.walk []) := by
          rw [storedInfo, storedInfo, (hwalks.map fun e => e.2.length).sum_nat]
        rw [← hes, ← hes', ← hsize]
        refine buildTar_congr (hwalks.append_right _) ?_
        exact ((walk_withInfo_perm hd _ hwf).map Prod.fst).nodup_iff.mp (nodup_arcs hwf)
  have hraws : out.1 = out'.1 := Option.some.inj (hraw.symm.trans (htars.trans hraw'))
  exact Prod.ext hraws (by rw [hgz, hgz', hraws])

/-- **Byte-identical packages.**  In every run of calls on one stage, whatever the order of
enumeration and the arguments of the later calls, every call yields the result of the first.
Archives of stages with the same files are the same, whatever the arguments, where the
`.PKGINFO` is one of the files; and the manifest of the cards and the index entry of the blob
carry the same hash. -/
theorem calls_reproducible (gzip : Bytes → Bytes) (stage : Stage) {a : PkgArgs}
    {as : List PkgArgs} {outs : List (Except Text (Bytes × Bytes))}
    (h : Calls gzip stage.root (a :: as) outs) :
    (∀ out ∈ outs, out = (buildGz gzip a stage.root).1) ∧
    (∀ (stage' : Stage) (b : PkgArgs) (out out' : Bytes × Bytes),
      stage.root.listing.Perm stage'.root.listing →
      a = b ∨ (∃ info, ([pkginfoName], info) ∈ stage.root.listing) →
      (buildGz gzip a stage.root).1 = .ok out → (buildGz gzip b stage'.root).1 = .ok out' →
      out = out') ∧
    ∀ (sha256 : Bytes → Text) (unpack : Bytes → Option (ℕ × Text)) (raw gz raw' gz' : Bytes)
      (file : Text) (e : IndexEntry), .ok (raw, gz) ∈ outs → .ok (raw', gz') ∈ outs →
      indexEntry unpack sha256 (file, gz') = some e →
      (cardManifest sha256 geometry raw gz).bs = e.bs := by
  have hall := h.eq_first stage.wf
  refine ⟨hall, fun stage' b out out' hfiles hargs => ?_, ?_⟩
  · exact eq_of_listing_perm stage.wf stage'.wf hfiles hargs
  · intro sha256 unpack raw gz raw' gz' file e hm hm' he
    have hsame : (raw, gz) = (raw', gz') :=
      Except.ok.inj ((hall _ hm).trans (hall _ hm').symm)
    obtain ⟨pi, -, rfl⟩ := Option.map_eq_some_iff.mp he
    exact congrArg (fun r => sha256 r.2) hsame

/-- A stage with one program, `bin/less`. -/
def lessStage : Stage where
  root := .mk [] (.cons "bin".toList (.mk [("less".toList, [1, 2, 3])] .nil) .nil)
  wf := by
    refine ⟨by decide, by simp, by decide, ⟨by decide, ?_, trivial⟩, trivial⟩
    intro f hf
    obtain rfl := List.mem_singleton.mp hf
    show FileName "less".toList
    decide

/-- The cards are packed from the stage, then the blob under another version. -/
theorem calls_reproducible_less :
    let a : PkgArgs := ⟨"less".toList, "608-r0".toList, [], []⟩
    let b : PkgArgs := ⟨"less".toList, "608-r1".toList, [], []⟩
    let first := buildGz id a lessStage.root
    Calls id lessStage.root [a, b] [first.1, (buildGz id b first.2).1] ∧
      (buildGz id b first.2).1 = first.1 := by
  intro a b first
  have hcalls : Calls id lessStage.root [a, b] [first.1, (buildGz id b first.2).1] :=
    .cons (Dir.Reorder.refl _) (.cons (Dir.Reorder.refl _) (.nil _))
  exact ⟨hcalls, (calls_reproducible id lessStage hcalls).1 _ (by simp)⟩

end OsMoap.Pack
