import OsMoap.Pack.Repo

/-!
# What a Blob Was Published As

A blob is named after the arguments of the invocation, but the index entry is read from the
`.PKGINFO` inside it.  The two agree when the invocation synthesised the `.PKGINFO` and the
name and the version survive being written as lines and stripped (`Clean`).  A `.PKGINFO` that
the stage already has is packed as it is, whatever the arguments say: the author's own, or the
one an earlier invocation left there.
-/

namespace OsMoap.Pack

open OsMoap.Lib

/-! ## First lines -/

/-- The text before the first line boundary. -/
def firstLine (t : Text) : Text := t.takeWhile fun c => !isLineBreak c

theorem splitlines_ne_nil {t : Text} (h : t ≠ []) : splitlines t ≠ [] := by
  induction t using splitlines.induct with
  | case1 => exact absurd rfl h
  | case2 t ih => simp [splitlines]
  | case3 c t hcr hbreak ih =>
    rw [splitlines, if_pos hbreak]
    · simp
    · exact hcr
  | case4 c t hcr hbreak hnil ih =>
    rw [splitlines, if_neg hbreak, hnil]
    · simp
    · exact hcr
  | case5 c t hcr hbreak l ls hls ih =>
    rw [splitlines, if_neg hbreak, hls]
    · simp
    · exact hcr

theorem head_splitlines {t : Text} (h : t ≠ []) : (splitlines t).head? = some (firstLine t) := by
  induction t using splitlines.induct with
  | case1 => exact absurd rfl h
  | case2 t ih => rfl
  | case3 c t hcr hbreak ih =>
    rw [splitlines, if_pos hbreak, firstLine, List.takeWhile_cons_of_neg (by simp [hbreak])]
    · rfl
    · exact hcr
  | case4 c t hcr hbreak hnil ih =>
    have ht : t = [] := by_contra fun ht => splitlines_ne_nil ht hnil
    rw [splitlines, if_neg hbreak, hnil, firstLine, List.takeWhile_cons_of_pos (by simp [hbreak]),
      ht]
    · rfl
    · exact hcr
  | case5 c t hcr hbreak l ls hls ih =>
    have ht : t ≠ [] := by
      rintro rfl
      simp [splitlines] at hls
    have hhead := ih ht
    rw [hls, List.head?_cons, Option.some.injEq] at hhead
    rw [splitlines, if_neg hbreak, hls, firstLine, List.takeWhile_cons_of_pos (by simp [hbreak]),
      hhead]
    · rfl
    · exact hcr

theorem firstLine_eq_self {t : Text} (h : ∀ c ∈ t, isLineBreak c = false) : firstLine t = t := by
  have happ : firstLine (t ++ []) = t ++ firstLine [] := by
    rw [firstLine, List.takeWhile_append_of_pos]
    · rfl
    · intro c hc
      simp [h c hc]
  simpa [firstLine] using happ

/-- A written line ends at the newline behind it, or at a boundary of its own. -/
theorem firstLine_append {p : Text} (hp : ∀ c ∈ p, isLineBreak c = false) (t rest : Text) :
    firstLine (p ++ (t ++ '\n' :: rest)) = p ++ firstLine t := by
  rw [firstLine, List.takeWhile_append_of_pos (by simpa using hp)]
  congr 1
  induction t with
  | nil =>
    rw [List.nil_append, List.takeWhile_cons_of_neg (by decide)]
    rfl
  | cons c t ih =>
    by_cases hc : isLineBreak c = true
    · rw [List.cons_append, List.takeWhile_cons_of_neg (by simp [hc]), firstLine,
        List.takeWhile_cons_of_neg (by simp [hc])]
    · rw [List.cons_append, List.takeWhile_cons_of_pos (by simp [hc]), ih, firstLine, firstLine,
        List.takeWhile_cons_of_pos (by simp [hc])]

/-! ## Values that survive -/

/-- One line, without white space around it. -/
def Clean (t : Text) : Prop := strip t = t ∧ ∀ c ∈ t, isLineBreak c = false

theorem noBreak_of_all {t : Text} (h : (t.all fun c => !isLineBreak c) = true) :
    ∀ c ∈ t, isLineBreak c = false := by
  simpa using h

theorem clean_of_all {t : Text} (hstrip : strip t = t)
    (hall : (t.all fun c => !isLineBreak c) = true) : Clean t := ⟨hstrip, noBreak_of_all hall⟩

theorem length_strip_le (t : Text) : (strip t).length ≤ t.length := by
  rw [strip, List.length_reverse]
  calc ((t.dropWhile isSpaceChar).reverse.dropWhile isSpaceChar).length
      ≤ (t.dropWhile isSpaceChar).reverse.length := (List.dropWhile_sublist _).length_le
    _ = (t.dropWhile isSpaceChar).length := List.length_reverse
    _ ≤ t.length := (List.dropWhile_sublist _).length_le

/-- A value is read back exactly when it is clean. -/
theorem strip_firstLine_iff (t : Text) : strip (firstLine t) = t ↔ Clean t := by
  constructor
  · intro h
    have hpre : firstLine t <+: t := List.takeWhile_prefix _
    have hlen : (firstLine t).length = t.length := by
      have hle := length_strip_le (firstLine t)
      rw [h] at hle
      exact le_antisymm hpre.length_le hle
    have hall : firstLine t = t := hpre.eq_of_length hlen
    refine ⟨by rw [← hall, h, hall], fun c hc => ?_⟩
    rw [← hall] at hc
    simpa using List.all_eq_true.mp List.all_takeWhile c hc
  · rintro ⟨hstrip, hline⟩
    rw [firstLine_eq_self hline, hstrip]

/-! ## The synthesised `.PKGINFO` -/

/-- A key without blanks is cut off at its `' = '`. -/
theorem cutEquals_key {k : Text} (hk : ' ' ∉ k) (v : Text) :
    cutEquals (k ++ ' ' :: '=' :: ' ' :: v) = some (k, v) := by
  induction k with
  | nil => rfl
  | cons c k ih =>
    have hc : c ≠ ' ' := fun h => hk (h ▸ List.mem_cons_self)
    rw [List.cons_append, cutEquals]
    · rw [ih fun h => hk (List.mem_cons_of_mem _ h)]
      rfl
    · rintro rest rfl
      exact absurd rfl hc

/-- The first line of a text gives the first value of its key. -/
theorem head_pkginfoValues {k v : Text} (hblank : ' ' ∉ k) (hline : ∀ c ∈ k, isLineBreak c = false)
    (hkey : strip k = k) (rest : Text) :
    (pkginfoValues (infoLine k v ++ rest) k).head? = some (strip (firstLine v)) := by
  have hsep : ∀ c ∈ " = ".toList, isLineBreak c = false := noBreak_of_all (by decide)
  have hpfx : ∀ c ∈ k ++ " = ".toList, isLineBreak c = false := by
    intro c hc
    rcases List.mem_append.mp hc with hc | hc
    · exact hline c hc
    · exact hsep c hc
  have hline : infoLine k v ++ rest = k ++ " = ".toList ++ (v ++ '\n' :: rest) := by
    simp only [infoLine, List.append_assoc, List.singleton_append]
  have hhead := @head_splitlines (infoLine k v ++ rest) (by simp [infoLine])
  rw [hline, firstLine_append hpfx] at hhead
  obtain ⟨ls, hls⟩ : ∃ ls, splitlines (k ++ " = ".toList ++ (v ++ '\n' :: rest))
      = (k ++ " = ".toList ++ firstLine v) :: ls := List.head?_eq_some_iff.mp hhead
  have hcut : cutEquals (k ++ " = ".toList ++ firstLine v) = some (k, firstLine v) := by
    rw [List.append_assoc]
    exact cutEquals_key hblank _
  rw [pkginfoValues, hline, hls, List.filterMap_cons_some hcut,
    List.filterMap_cons_some (by rw [if_pos hkey])]
  rfl

/-- A line of another key gives no value. -/
theorem pkginfoValues_other {k k' v : Text} (hblank : ' ' ∉ k)
    (hline : ∀ c ∈ k ++ " = ".toList ++ v, isLineBreak c = false) (hkey : strip k ≠ k')
    (rest : Text) :
    pkginfoValues (infoLine k v ++ rest) k' = pkginfoValues rest k' := by
  have hcut : cutEquals (k ++ " = ".toList ++ v) = some (k, v) := by
    rw [List.append_assoc]
    exact cutEquals_key hblank _
  rw [pkginfoValues, infoLine, List.append_assoc, List.singleton_append,
    splitlines_append_newline hline, List.filterMap_cons_some hcut,
    List.filterMap_cons_none (by rw [if_neg hkey])]
  rfl

/-- **What a synthesised `.PKGINFO` says**: the name and the version, where both are clean. -/
theorem pkginfoOfText_synthesized_iff (a : PkgArgs) (size rb : ℕ) :
    (∃ pi, pkginfoOfText rb (synthesizedInfo a size) = some pi ∧ pi.name = a.name ∧
      pi.ver = a.ver) ↔ Clean a.name ∧ Clean a.ver := by
  have hname : (pkginfoValues (synthesizedInfo a size) "pkgname".toList).head?
      = some (strip (firstLine a.name)) := by
    exact head_pkginfoValues (by decide) (noBreak_of_all (by decide)) (by decide) _
  -- a name with a line break in it puts lines of its own before the version
  have hver : Clean a.name → (pkginfoValues (synthesizedInfo a size) "pkgver".toList).head?
      = some (strip (firstLine a.ver)) := by
    intro hclean
    have hkey : ∀ c ∈ "pkgname".toList ++ " = ".toList, isLineBreak c = false :=
      noBreak_of_all (by decide)
    have hline : ∀ c ∈ "pkgname".toList ++ " = ".toList ++ a.name, isLineBreak c = false := by
      intro c hc
      rcases List.mem_append.mp hc with hc | hc
      · exact hkey c hc
      · exact hclean.2 c hc
    rw [synthesizedInfo, pkginfoValues_other (by decide) hline (by decide)]
    exact head_pkginfoValues (by decide) (noBreak_of_all (by decide)) (by decide) _
  have hread : (∃ pi, pkginfoOfText rb (synthesizedInfo a size) = some pi ∧ pi.name = a.name ∧
      pi.ver = a.ver) ↔ strip (firstLine a.name) = a.name ∧
        (pkginfoValues (synthesizedInfo a size) "pkgver".toList).head? = some a.ver := by
    simp only [pkginfoOfText, hname, Option.bind_eq_bind, Option.bind_some,
      Option.bind_eq_some_iff, Option.some.injEq]
    constructor
    · rintro ⟨pi, ⟨ver, hv, rfl⟩, hn, rfl⟩
      exact ⟨hn, hv⟩
    · rintro ⟨hn, hv⟩
      exact ⟨_, ⟨a.ver, hv, rfl⟩, hn, rfl⟩
  rw [hread, strip_firstLine_iff]
  refine and_congr_right fun hclean => ?_
  rw [hver hclean, Option.some.injEq, strip_firstLine_iff]

/-! ## Reading a blob back -/

variable {gzip : Bytes → Bytes} {gunzip : Bytes → Option Bytes}

/-- `pkginfo_from_blob` reports this name and this version. -/
def Reports (gunzip : Bytes → Option Bytes) (gz : Bytes) (name ver : Text) : Prop :=
  ∃ pi, pkginfoFromBlob (unpackBlob gunzip) gz = some pi ∧ pi.name = name ∧ pi.ver = ver

theorem Reports.unique {gz : Bytes} {name ver name' ver' : Text} (h : Reports gunzip gz name ver)
    (h' : Reports gunzip gz name' ver') : name = name' ∧ ver = ver' := by
  obtain ⟨pi, hpi, rfl, rfl⟩ := h
  obtain ⟨pi', hpi', rfl, rfl⟩ := h'
  obtain rfl := Option.some.inj (hpi.symm.trans hpi')
  exact ⟨rfl, rfl⟩

theorem isArc_of_mem_walk {d : Dir} (hd : d.WF) {e : TarEntry} (he : e ∈ d.walk []) :
    IsArc e.1 := by
  obtain ⟨p, hp, rfl⟩ := List.mem_map.mp ((walk_perm_arcOf hd).mem_iff.mp he)
  exact ⟨p.1, Dir.path_ne_nil d p hp, Dir.fileName_of_mem d hd p hp, rfl⟩

theorem mem_walk_iff_mem_listing {d : Dir} (hd : d.WF) {info : Bytes} :
    (pkginfoName, info) ∈ d.walk [] ↔ ([pkginfoName], info) ∈ d.listing := by
  rw [(walk_perm_arcOf hd).mem_iff, List.mem_map]
  constructor
  · rintro ⟨p, hp, heq⟩
    obtain ⟨hname, hinfo⟩ := Prod.mk.inj heq
    have hpath : p.1 = [pkginfoName] := by
      refine joinSlash_injective (Dir.path_ne_nil d p hp) (by simp)
        (Dir.fileName_of_mem d hd p hp) ?_ (hname.trans (joinSlash_singleton _).symm)
      intro c hc
      obtain rfl := List.mem_singleton.mp hc
      decide
    rw [← hpath, ← hinfo]
    exact hp
  · intro hp
    exact ⟨_, hp, by rw [arcOf, joinSlash_singleton]⟩

/-- The `.PKGINFO` among the packed entries is the one read back. -/
theorem pkginfoFromBlob_packed (hgz : ∀ raw, gunzip (gzip raw) = some raw)
    {entries : List TarEntry} (harcs : ∀ e ∈ entries, IsArc e.1)
    (hnodup : (entries.map Prod.fst).Nodup) {raw info : Bytes} (hraw : buildTar entries = some raw)
    (hinfo : (pkginfoName, info) ∈ entries) :
    pkginfoFromBlob (unpackBlob gunzip) (gzip raw)
      = (utf8Decode info).bind (pkginfoOfText raw.length) := by
  have hread : extractfile raw (utf8 pkginfoName) = some info :=
    extractfile_buildTar harcs hnodup hraw hinfo
  simp only [pkginfoFromBlob, unpackBlob, hgz, hread, Option.bind_eq_bind, Option.bind_some]
  cases utf8Decode info with
  | none => rfl
  | some text => rfl

/-- A stage without a `.PKGINFO` is packed with the synthesised one. -/
theorem built_fresh {d : Dir} (hd : d.WF) {a : PkgArgs} {raw gz : Bytes}
    (h : (buildGz gzip a d).1 = .ok (raw, gz)) (hnone : ∀ info, ([pkginfoName], info) ∉ d.listing) :
    gz = gzip raw ∧ ∃ entries size, buildTar entries = some raw ∧
      (∀ e ∈ entries, IsArc e.1) ∧ (entries.map Prod.fst).Nodup ∧
      (pkginfoName, utf8 (synthesizedInfo a size)) ∈ entries := by
  obtain ⟨es, hes, hraw, hgzip⟩ := ok_of_tarOf h
  rcases stageEntries_cases a hd with ⟨msg, hc⟩ | ⟨hin, -, hc⟩ | ⟨hwf, hno, -, hc⟩
  · simp [hc] at hes
  · obtain ⟨⟨n, info⟩, hmem, hn⟩ := List.mem_map.mp hin
    obtain rfl : n = pkginfoName := hn
    exact absurd ((mem_walk_iff_mem_listing hd).mp hmem) (hnone info)
  · rw [hc, Except.ok.injEq] at hes
    subst hes
    have hperm := walk_withInfo_perm hd _ hwf
    refine ⟨hgzip, _, (d.walk [] |>.map fun e => e.2.length).sum, hraw, fun e he => ?_, ?_, ?_⟩
    · exact isArc_of_mem_walk hwf (hperm.mem_iff.mpr he)
    · exact (hperm.map Prod.fst).nodup_iff.mp (nodup_arcs hwf)
    · exact List.mem_append_right _ (List.mem_singleton_self _)

/-- **What a built blob says**: what the `.PKGINFO` of the stage says, or, where there is none,
the name and the version it was built for if these are clean. -/
theorem reports_buildGz (hgz : ∀ raw, gunzip (gzip raw) = some raw) {d : Dir} (hd : d.WF)
    {a : PkgArgs} {raw gz : Bytes} (h : (buildGz gzip a d).1 = .ok (raw, gz)) :
    (∀ info, ([pkginfoName], info) ∈ d.listing →
      pkginfoFromBlob (unpackBlob gunzip) gz = (utf8Decode info).bind (pkginfoOfText raw.length)) ∧
    ((∀ info, ([pkginfoName], info) ∉ d.listing) →
      (Reports gunzip gz a.name a.ver ↔ Clean a.name ∧ Clean a.ver)) := by
  constructor
  · intro info hinfo
    obtain ⟨es, hes, hraw, hgzip⟩ := ok_of_tarOf h
    dsimp only at hraw hgzip
    subst hgzip
    rcases stageEntries_cases a hd with ⟨msg, hc⟩ | ⟨-, -, hc⟩ | ⟨-, hno, -, -⟩
    · simp [hc] at hes
    · rw [hc, Except.ok.injEq] at hes
      subst hes
      exact pkginfoFromBlob_packed hgz (fun e he => isArc_of_mem_walk hd he) (nodup_arcs hd) hraw
        ((mem_walk_iff_mem_listing hd).mpr hinfo)
    · exact absurd (List.mem_map_of_mem ((mem_walk_iff_mem_listing hd).mpr hinfo)) hno
  · intro hnone
    obtain ⟨rfl, entries, size, hraw, harcs, hnodup, hinfo⟩ := built_fresh hd h hnone
    have hblob := pkginfoFromBlob_packed hgz harcs hnodup hraw hinfo
    rw [utf8Decode_utf8, Option.bind_some] at hblob
    rw [Reports, hblob]
    exact pkginfoOfText_synthesized_iff a _ _

/-! ## Publishing -/

theorem built_of_packBlob {name ver desc deps : Text} {stage : Dir} {cards : RomCards}
    {repo repo' : RepoDir}
    (h : packBlob gzip (.pack name ver desc deps stage cards) repo = .ok repo') :
    ∃ raw gz, (buildGz gzip ⟨name, ver, desc, splitWords deps⟩ stage).1 = .ok (raw, gz) ∧
      publish repo name ver gz = .ok repo' := by
  simp only [packBlob, Invocation.blob] at h
  by_cases hargs : name = [] ∨ ver = []
  · simp [if_pos hargs] at h
  · rw [if_neg hargs] at h
    cases hbuild : (buildGz gzip ⟨name, ver, desc, splitWords deps⟩ stage).1 with
    | error e => simp [hbuild, Except.map] at h
    | ok out =>
      simp only [hbuild, Except.map] at h
      exact ⟨out.1, out.2, rfl, h⟩

/-- **A published blob says what its stage says.**  After a packing invocation has written
`N-V.tar.gz`: a `.PKGINFO` the stage already had is what the blob reports; where the stage had
none, the blob reports `N` and `V` exactly when both are single lines without white space
around them; and an index entry for the file carries what the blob reports. -/
theorem published_says (hgz : ∀ raw, gunzip (gzip raw) = some raw) (stage : Stage)
    {name ver desc deps : Text} {cards : RomCards} {repo repo' : RepoDir}
    (hpack : packBlob gzip (.pack name ver desc deps stage.root cards) repo = .ok repo') :
    ∃ raw gz, repo'.lookup (blobName name ver) = some gz ∧ gunzip gz = some raw ∧
      (∀ info, ([pkginfoName], info) ∈ stage.root.listing →
        pkginfoFromBlob (unpackBlob gunzip) gz
          = (utf8Decode info).bind (pkginfoOfText raw.length)) ∧
      ((∀ info, ([pkginfoName], info) ∉ stage.root.listing) →
        (Reports gunzip gz name ver ↔ Clean name ∧ Clean ver)) ∧
      ∀ sha256 index P e, reindex (unpackBlob gunzip) sha256 repo' = some index →
        index.lookup P = some e → e.file = blobName name ver → Reports gunzip gz e.name e.ver := by
  obtain ⟨raw, gz, hbuild, hpub⟩ := built_of_packBlob hpack
  obtain ⟨hlookup, -, -⟩ := lookup_publish hpub
  obtain ⟨hown, hsynth⟩ := reports_buildGz hgz stage.wf hbuild
  obtain ⟨-, -, -, hgzip⟩ := ok_of_tarOf hbuild
  have hgzip : gz = gzip raw := hgzip
  refine ⟨raw, gz, hlookup, ?_, hown, hsynth, ?_⟩
  · rw [hgzip, hgz]
  · intro sha256 index P e hindex he hfile
    obtain ⟨-, b, hb, hbe⟩ := blob_of_lookup hindex he
    obtain ⟨⟨pi, hpi, hname, hver⟩, hfile', -, -⟩ := indexEntry_fields hbe
    have hbytes := (mem_blobs.mp hb).1
    rw [← hfile', hfile, hlookup, Option.some.injEq] at hbytes
    rw [← hbytes] at hpi
    exact ⟨pi, hpi, hname.symm, hver.symm⟩

/-- A stage packed before, under other arguments, yields the earlier blob, which says what the
earlier arguments said. -/
theorem reports_of_packed_before (hgz : ∀ raw, gunzip (gzip raw) = some raw) (stage : Stage)
    {a : PkgArgs} {out : Bytes × Bytes} (hout : (buildGz gzip a stage.root).1 = .ok out)
    (hnone : ∀ info, ([pkginfoName], info) ∉ stage.root.listing)
    (hname : Clean a.name) (hver : Clean a.ver) (b : PkgArgs) :
    ∃ stage' : Stage, stage'.root = (buildGz gzip a stage.root).2 ∧
      (buildGz gzip b stage'.root).1 = .ok out ∧ Reports gunzip out.2 a.name a.ver := by
  refine ⟨⟨(buildGz gzip a stage.root).2, wf_buildGz a stage.wf⟩, rfl, ?_, ?_⟩
  · rw [buildGz_again a b stage.wf, hout]
  · exact ((reports_buildGz hgz stage.wf hout).2 hnone).mpr ⟨hname, hver⟩

/-- The invocation that packs a release of `less` into an empty repository. -/
theorem packBlob_less {ver : Text} (hver : ver ≠ []) {stage : Dir} {out : Bytes × Bytes}
    (h : (buildGz id (lessArgs ver) stage).1 = .ok out) :
    packBlob id (.pack "less".toList ver [] [] stage fun _ => none) ∅
      = .ok ((∅ : RepoDir).insert (blobName "less".toList ver) out.2) := by
  have hargs : (⟨"less".toList, ver, [], splitWords []⟩ : PkgArgs) = lessArgs ver := rfl
  have hblob : (Invocation.pack "less".toList ver [] [] stage fun _ => none).blob id
      = some (.ok ("less".toList, ver, out.2)) := by
    rw [Invocation.blob, if_neg (by simp [hver]), hargs, h]
    rfl
  rw [packBlob, hblob]
  rfl

theorem pkginfo_not_mem_lessStage (info : Bytes) :
    ([pkginfoName], info) ∉ lessStage.root.listing := by
  rw [← mem_walk_iff_mem_listing lessStage.wf, walk_lessStage]
  intro h
  rw [List.mem_singleton] at h
  exact absurd (Prod.mk.inj h).1 (by decide)

/-- The first release packed from the stage of `less` says what it was published as. -/
theorem published_says_less :
    ∃ gz, packBlob id (.pack "less".toList "608-r0".toList [] [] lessStage.root fun _ => none) ∅
        = .ok ((∅ : RepoDir).insert (blobName "less".toList "608-r0".toList) gz) ∧
      Reports some gz "less".toList "608-r0".toList := by
  obtain ⟨out, hout⟩ := @buildGz_lessStage (lessArgs "608-r0".toList) (by decide +kernel)
  have hpack := packBlob_less (by decide) hout
  obtain ⟨raw, gz, hgz, -, -, hsynth, -⟩ := published_says (fun _ => rfl) lessStage hpack
  rw [AList.lookup_insert, Option.some.injEq] at hgz
  rw [← hgz] at hsynth
  refine ⟨out.2, hpack, (hsynth pkginfo_not_mem_lessStage).mpr ⟨?_, ?_⟩⟩
  · exact clean_of_all (by decide) (by decide)
  · exact clean_of_all (by decide) (by decide)

/-- Packed again as `608-r1`, the same stage yields a blob that still says `608-r0`. -/
theorem published_says_old_less :
    ∃ (stage : Stage) (gz : Bytes),
      stage.root = (buildGz id (lessArgs "608-r0".toList) lessStage.root).2 ∧
      packBlob id (.pack "less".toList "608-r1".toList [] [] stage.root fun _ => none) ∅
        = .ok ((∅ : RepoDir).insert (blobName "less".toList "608-r1".toList) gz) ∧
      Reports some gz "less".toList "608-r0".toList ∧
      ¬ Reports some gz "less".toList "608-r1".toList := by
  obtain ⟨out, hout⟩ := @buildGz_lessStage (lessArgs "608-r0".toList) (by decide +kernel)
  obtain ⟨stage, hroot, hbuild, hreports⟩ := reports_of_packed_before (fun _ => rfl) lessStage hout
    pkginfo_not_mem_lessStage (clean_of_all (by decide) (by decide))
    (clean_of_all (by decide) (by decide)) (lessArgs "608-r1".toList)
  refine ⟨stage, out.2, hroot, packBlob_less (by decide) hbuild, hreports, fun h => ?_⟩
  exact absurd (hreports.unique h).2 (by decide)

end OsMoap.Pack
