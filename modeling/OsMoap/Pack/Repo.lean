import OsMoap.Pack.Reproducible
import OsMoap.Pack.TarRead

/-!
# Publishing to the Static Repository

`main` of `tools/pack_repo.py` as a step on the repository directory: build the blob from its
stage, refuse to change a blob that exists, rebuild `APKINDEX.json` from the blobs, and verify
what was written.  A failing invocation stops where it fails, with the directory as it is
then.

Every invocation keeps every `.tar.gz` there is (`lookup_packRepo`).  What the index says of a
blob was computed from the blob itself, so after each rebuild the entries hold of the directory
(`indexSound_of_reindex`); over a run both hold at every invocation.

`gzip`, SHA-256 and the notecard manifests under `rom/` are parameters; the `git` commands of
`--publish` touch none of the files.
-/

namespace OsMoap.Pack

open OsMoap.Lib

/-! ## `pkginfo_from_blob` -/

/-- The length of the tar and the text of its `.PKGINFO`. -/
def unpackBlob (gunzip : Bytes → Option Bytes) (gz : Bytes) : Option (ℕ × Text) := do
  let raw ← gunzip gz
  let info ← extractfile raw (utf8 pkginfoName)
  let text ← utf8Decode info
  some (raw.length, text)

/-! ## `APKINDEX.json` -/

def indexName : Text := "APKINDEX.json".toList

/-- `ARCH`. -/
def arch : Text := "wasm32-wasip1".toList

def IndexEntry.toJson (e : IndexEntry) : Json :=
  .obj [("name".toList, .str e.name), ("ver".toList, .str e.ver), ("desc".toList, .str e.desc),
    ("deps".toList, .arr (e.deps.map .str)), ("rb".toList, .num e.rb), ("zb".toList, .num e.zb),
    ("bs".toList, .str e.bs), ("file".toList, .str e.file)]

/-- The text of `APKINDEX.json`. -/
def indexText (pkgs : List IndexEntry) : Text :=
  dumps (.obj [("v".toList, .num 1), ("arch".toList, .str arch),
    ("pkgs".toList, .arr (pkgs.map IndexEntry.toJson))]) ++ ['\n']

/-- `[by_name[n] for n in sorted(by_name)]`. -/
def indexEntries (byName : ByName) : List IndexEntry :=
  (byName.keys.mergeSort fun a b => decide (a ≤ b)).filterMap byName.lookup

/-- `reindex` writes the index into the repository. -/
def writeIndex (repo : RepoDir) (pkgs : List IndexEntry) : RepoDir :=
  repo.insert indexName (asciiEncode (indexText pkgs))

/-! ## `verify` -/

/-- What `verify` finds of a package's manifest card: no card, a card it cannot read, or the
`ver` and `bs` on it. -/
abbrev RomCards := Text → Option (Option (Text × Text))

section Verify

variable (sha256 : Bytes → Text)

/-- The assertions of `verify` about one blob. -/
def verifyBlob (repo : RepoDir) (e : IndexEntry) : Except Text Unit := do
  assertThat ('/' ∉ e.file) (e.name ++ ": file has a path separator".toList)
  let gz ← orRaise (repo.lookup e.file) "FileNotFoundError"
  assertThat (sha256 gz = e.bs) (e.file ++ ": bs mismatch".toList)
  assertThat (gz.length = e.zb) (e.file ++ ": zb mismatch".toList)

/-- The cross-tier assertion: a card of the same version carries the same hash. -/
def verifyCard (cards : RomCards) (e : IndexEntry) : Except Text Unit :=
  match cards e.name with
  -- a package without cards is not checked
  | none => .ok ()
  | some none => .error "json.JSONDecodeError".toList
  | some (some (ver, bs)) =>
    if ver = e.ver then
      assertThat (bs = e.bs)
        (e.name ++ " ".toList ++ e.ver ++ ": card bs != blob bs -- tiers diverged".toList)
    else .ok ()

/-- `verify`. -/
def verifyRepo (cards : RomCards) (repo : RepoDir) (pkgs : List IndexEntry) : Except Text Unit :=
  pkgs.forM fun e => do
    verifyBlob sha256 repo e
    verifyCard cards e

end Verify

/-! ## `main` -/

/-- The command line, with the stage that `--dir` names and the cards under `rom/`. -/
inductive Invocation where
  | reindex (cards : RomCards)
  | pack (name ver desc deps : Text) (stage : Dir) (cards : RomCards)

def Invocation.cards : Invocation → RomCards
  | .reindex cards => cards
  | .pack _ _ _ _ _ cards => cards

section Main

variable (gzip : Bytes → Bytes) (gunzip : Bytes → Option Bytes) (sha256 : Bytes → Text)

/-- The message of `ap.error`. -/
def usageError : Text := "--name/--ver/--dir required unless --reindex".toList

/-- The blob an invocation builds: its name, its version and its bytes. -/
def Invocation.blob : Invocation → Option (Except Text (Text × Text × Bytes))
  | .reindex _ => none
  | .pack name ver desc deps stage _ => some <|
    -- an empty argument counts as none
    if name = [] ∨ ver = [] then .error usageError
    else (buildGz gzip ⟨name, ver, desc, splitWords deps⟩ stage).1.map fun out =>
      (name, ver, out.2)

/-- The blobs after the packing half of `main`. -/
def packBlob (inv : Invocation) (repo : RepoDir) : Except Text RepoDir :=
  match inv.blob gzip with
  | none => .ok repo
  | some (.error e) => .error e
  | some (.ok (name, ver, gz)) => publish repo name ver gz

/-- `main`: its exit and the repository it leaves. -/
def packRepo (inv : Invocation) (repo : RepoDir) : Except Text Unit × RepoDir :=
  match packBlob gzip inv repo with
  | .error e => (.error e, repo)
  | .ok blobs =>
    match reindex (unpackBlob gunzip) sha256 blobs with
    -- the new blob is published before the index is built
    | none => (.error "reindex".toList, blobs)
    | some byName =>
      let pkgs := indexEntries byName
      -- a failed assertion comes after everything has been written
      (verifyRepo sha256 inv.cards (writeIndex blobs pkgs) pkgs, writeIndex blobs pkgs)

/-- The repository after a sequence of invocations. -/
def runRepo (invs : List Invocation) (repo : RepoDir) : RepoDir :=
  invs.foldl (fun r inv => (packRepo gzip gunzip sha256 inv r).2) repo

end Main

/-! ## What an index says -/

/-- The index lists distinct names in sorted order, and says of each listed file what the
directory holds. -/
structure IndexSound (sha256 : Bytes → Text) (repo : RepoDir) (pkgs : List IndexEntry) : Prop where
  sorted : pkgs.Pairwise fun a b => a.name < b.name
  holds : ∀ e ∈ pkgs, '/' ∉ e.file ∧
    ∃ gz, repo.lookup e.file = some gz ∧ e.bs = sha256 gz ∧ e.zb = gz.length

variable {gzip : Bytes → Bytes} {gunzip : Bytes → Option Bytes} {sha256 : Bytes → Text}

/-- What an entry says comes from its blob. -/
theorem indexEntry_fields {unpack : Bytes → Option (ℕ × Text)} {b : Text × Bytes} {e : IndexEntry}
    (h : indexEntry unpack sha256 b = some e) :
    (∃ pi, pkginfoFromBlob unpack b.2 = some pi ∧ e.name = pi.name ∧ e.ver = pi.ver) ∧
      e.file = b.1 ∧ e.bs = sha256 b.2 ∧ e.zb = b.2.length := by
  rw [indexEntry, Option.map_eq_some_iff] at h
  obtain ⟨pi, hpi, rfl⟩ := h
  exact ⟨⟨pi, hpi, rfl, rfl⟩, rfl, rfl, rfl⟩

/-- An entry of the index comes from a blob of its name. -/
theorem blob_of_lookup {unpack : Bytes → Option (ℕ × Text)} {repo : RepoDir} {index : ByName}
    (h : reindex unpack sha256 repo = some index) {P : Text} {e : IndexEntry}
    (he : index.lookup P = some e) :
    e.name = P ∧ ∃ b ∈ blobs repo, indexEntry unpack sha256 b = some e := by
  have hfold := lookup_reindex h P
  rw [he] at hfold
  rcases mem_of_holderAfter entryBeats hfold with hnone | hmem
  · simp at hnone
  · obtain ⟨hP, b, hb, hbe, -⟩ := mem_contenders hmem
    exact ⟨hP, b, hb, hbe⟩

theorem mem_indexEntries {index : ByName} {e : IndexEntry} (h : e ∈ indexEntries index) :
    ∃ P, index.lookup P = some e := by
  obtain ⟨P, -, hP⟩ := List.mem_filterMap.mp h
  exact ⟨P, hP⟩

/-- The names are sorted and distinct. -/
theorem pairwise_indexEntries {index : ByName}
    (hname : ∀ P e, index.lookup P = some e → e.name = P) :
    (indexEntries index).Pairwise fun a b => a.name < b.name := by
  have hle : (index.keys.mergeSort fun a b => decide (a ≤ b)).Pairwise fun a b => a ≤ b := by
    refine (List.pairwise_mergeSort ?_ ?_ index.keys).imp fun h => of_decide_eq_true h
    · intro a b c hab hbc
      simp only [decide_eq_true_eq] at hab hbc ⊢
      exact le_trans hab hbc
    · intro a b
      simp only [Bool.or_eq_true, decide_eq_true_eq]
      exact le_total a b
  have hne : (index.keys.mergeSort fun a b => decide (a ≤ b)).Pairwise fun a b => a ≠ b :=
    (List.mergeSort_perm _ _).nodup_iff.mpr index.keys_nodup
  refine List.pairwise_filterMap.mpr ((hle.and hne).imp ?_)
  rintro P Q ⟨hPQ, hne⟩ a ha b hb
  rw [hname P a ha, hname Q b hb]
  exact lt_of_le_of_ne hPQ hne

theorem isBlobName_indexName : isBlobName indexName = false := by decide

theorem lookup_writeIndex_of_ne {repo : RepoDir} {pkgs : List IndexEntry} {f : Text}
    (h : f ≠ indexName) : (writeIndex repo pkgs).lookup f = repo.lookup f :=
  AList.lookup_insert_ne h

theorem ne_indexName_of_isBlobName {f : Text} (h : isBlobName f = true) : f ≠ indexName := by
  rintro rfl
  rw [isBlobName_indexName] at h
  simp at h

theorem ne_indexName_of_suffix {f : Text} (h : ".tar.gz".toList <:+ f) : f ≠ indexName := by
  rintro rfl
  revert h
  decide

/-- **A rebuilt index holds of the directory** it is written into. -/
theorem indexSound_of_reindex {unpack : Bytes → Option (ℕ × Text)} {repo : RepoDir}
    {index : ByName} (h : reindex unpack sha256 repo = some index) :
    IndexSound sha256 (writeIndex repo (indexEntries index)) (indexEntries index) where
  sorted := pairwise_indexEntries fun P e he => (blob_of_lookup h he).1
  holds := by
    intro e he
    obtain ⟨P, hP⟩ := mem_indexEntries he
    obtain ⟨-, b, hb, hbe⟩ := blob_of_lookup h hP
    obtain ⟨hlookup, hblob⟩ := mem_blobs.mp hb
    obtain ⟨-, hfile, hbs, hzb⟩ := indexEntry_fields hbe
    have hslash : '/' ∉ b.1 := by
      simp only [isBlobName, Bool.and_eq_true, Bool.not_eq_true', List.contains_eq_mem,
        decide_eq_false_iff_not] at hblob
      exact hblob.2
    refine ⟨hfile ▸ hslash, b.2, ?_, hbs, hzb⟩
    rw [hfile, lookup_writeIndex_of_ne (ne_indexName_of_isBlobName hblob), hlookup]

/-- What holds of the directory passes the assertions. -/
theorem verifyBlob_of_indexSound {repo : RepoDir} {pkgs : List IndexEntry}
    (h : IndexSound sha256 repo pkgs) {e : IndexEntry} (he : e ∈ pkgs) :
    verifyBlob sha256 repo e = .ok () := by
  obtain ⟨hslash, gz, hlookup, hbs, hzb⟩ := h.holds e he
  have hread : orRaise (repo.lookup e.file) "FileNotFoundError" = .ok gz := by
    rw [hlookup]
    rfl
  have hpass : ∀ {p : Prop} [Decidable p] (msg : Text), p → assertThat p msg = .ok () :=
    fun msg h => if_pos h
  rw [verifyBlob, hread, hpass _ hslash]
  show (do
    assertThat (sha256 gz = e.bs) _
    assertThat (gz.length = e.zb) _) = Except.ok ()
  rw [hpass _ hbs.symm, hpass _ hzb.symm]
  rfl

/-! ## One invocation -/

/-- Packing adds at most one blob and changes none. -/
theorem lookup_packBlob {inv : Invocation} {repo repo' : RepoDir}
    (h : packBlob gzip inv repo = .ok repo') {f : Text} {gz : Bytes}
    (hf : repo.lookup f = some gz) : repo'.lookup f = some gz := by
  unfold packBlob at h
  split at h
  · obtain rfl := Except.ok.inj h
    exact hf
  · simp at h
  · rename_i name ver new _
    obtain ⟨hnew, hothers, hold⟩ := lookup_publish h
    by_cases hname : f = blobName name ver
    · subst hname
      rw [hnew, hold gz hf]
    · rw [hothers f hname, hf]

/-- **Blobs are immutable**: no invocation changes a `.tar.gz` that exists. -/
theorem lookup_packRepo (inv : Invocation) {repo : RepoDir} {f : Text} {gz : Bytes}
    (htar : ".tar.gz".toList <:+ f) (hf : repo.lookup f = some gz) :
    (packRepo gzip gunzip sha256 inv repo).2.lookup f = some gz := by
  cases hpack : packBlob gzip inv repo with
  | error e => simpa only [packRepo, hpack] using hf
  | ok blobs =>
    have hblobs := lookup_packBlob hpack hf
    cases hindex : reindex (unpackBlob gunzip) sha256 blobs with
    | none => simpa only [packRepo, hpack, hindex] using hblobs
    | some byName =>
      simp only [packRepo, hpack, hindex]
      rw [lookup_writeIndex_of_ne (ne_indexName_of_suffix htar), hblobs]

theorem lookup_runRepo (invs : List Invocation) {repo : RepoDir} {f : Text} {gz : Bytes}
    (htar : ".tar.gz".toList <:+ f) (hf : repo.lookup f = some gz) :
    (runRepo gzip gunzip sha256 invs repo).lookup f = some gz := by
  induction invs generalizing repo with
  | nil => exact hf
  | cons inv invs ih => exact ih (lookup_packRepo inv htar hf)

/-- An invocation whose blob exists with other bytes is refused before it writes anything. -/
theorem packRepo_refused {inv : Invocation} {repo : RepoDir} {name ver : Text} {gz old : Bytes}
    (hblob : inv.blob gzip = some (.ok (name, ver, gz)))
    (hold : repo.lookup (blobName name ver) = some old) (hne : old ≠ gz) :
    packRepo gzip gunzip sha256 inv repo
      = (.error ("pack_repo: ".toList ++ blobName name ver ++
          " exists with DIFFERENT bytes -- blobs are immutable, bump -rN instead".toList), repo) := by
  have hpub : publish repo name ver gz = .error ("pack_repo: ".toList ++ blobName name ver ++
      " exists with DIFFERENT bytes -- blobs are immutable, bump -rN instead".toList) := by
    simp only [publish, hold]
    rw [if_pos hne]
  rw [packRepo, packBlob, hblob]
  simp only [hpub]

/-- A successful invocation has written an index that holds. -/
theorem indexSound_of_packRepo {inv : Invocation} {repo : RepoDir}
    (h : (packRepo gzip gunzip sha256 inv repo).1 = .ok ()) :
    ∃ pkgs, (packRepo gzip gunzip sha256 inv repo).2.lookup indexName
        = some (asciiEncode (indexText pkgs)) ∧
      IndexSound sha256 (packRepo gzip gunzip sha256 inv repo).2 pkgs := by
  cases hpack : packBlob gzip inv repo with
  | error e => simp [packRepo, hpack] at h
  | ok blobs =>
    cases hindex : reindex (unpackBlob gunzip) sha256 blobs with
    | none => simp [packRepo, hpack, hindex] at h
    | some byName =>
      simp only [packRepo, hpack, hindex]
      exact ⟨indexEntries byName, AList.lookup_insert _, indexSound_of_reindex hindex⟩

/-! ## Runs -/

/-- **The repository over a run.**  At every invocation of every run: the blobs there are stay
as they are, then and through all later invocations; an invocation refused because its blob
exists with other bytes leaves the whole directory; and a successful one leaves an index with
sorted distinct names whose entries hold of the directory and pass the assertions about their
blobs. -/
theorem repo_over_runs (gzip : Bytes → Bytes) (gunzip : Bytes → Option Bytes)
    (sha256 : Bytes → Text) (start : RepoDir) (before after : List Invocation)
    (inv : Invocation) :
    let s := runRepo gzip gunzip sha256 before start
    let out := packRepo gzip gunzip sha256 inv s
    (∀ f gz, ".tar.gz".toList <:+ f → s.lookup f = some gz →
      out.2.lookup f = some gz ∧
      (runRepo gzip gunzip sha256 (before ++ inv :: after) start).lookup f = some gz) ∧
    (∀ name ver gz old, inv.blob gzip = some (.ok (name, ver, gz)) →
      s.lookup (blobName name ver) = some old → old ≠ gz → ∃ msg, out = (.error msg, s)) ∧
    (out.1 = .ok () → ∃ pkgs, out.2.lookup indexName = some (asciiEncode (indexText pkgs)) ∧
      IndexSound sha256 out.2 pkgs ∧ ∀ e ∈ pkgs, verifyBlob sha256 out.2 e = .ok ()) := by
  intro s out
  refine ⟨fun f gz htar hf => ?_, fun name ver gz old hblob hold hne => ?_, fun hok => ?_⟩
  · have hrun : runRepo gzip gunzip sha256 (before ++ inv :: after) start
        = runRepo gzip gunzip sha256 (inv :: after) s := List.foldl_append
    rw [hrun]
    exact ⟨lookup_packRepo inv htar hf, lookup_runRepo (inv :: after) htar hf⟩
  · exact ⟨_, packRepo_refused hblob hold hne⟩
  · obtain ⟨pkgs, htext, hsound⟩ := indexSound_of_packRepo hok
    exact ⟨pkgs, htext, hsound, fun e he => verifyBlob_of_indexSound hsound he⟩

theorem walk_lessStage : lessStage.root.walk [] = [("bin/less".toList, [1, 2, 3])] := by
  simp [lessStage, Dir.walk, Dirs.walks, joinPath]

/-- The package arguments of a release of `less`. -/
def lessArgs (ver : Text) : PkgArgs := ⟨"less".toList, ver, [], []⟩

theorem stageEntries_lessStage (a : PkgArgs) : stageEntries a lessStage.root
    = (.ok [("bin/less".toList, [1, 2, 3]), (pkginfoName, utf8 (synthesizedInfo a 3))],
      lessStage.root.withInfo (utf8 (synthesizedInfo a 3))) := by
  have hno : pkginfoName ∉ lessStage.root.dirs.names := by decide
  rw [stageEntries, walk_lessStage]
  rw [show ([("bin/less".toList, ([1, 2, 3] : Bytes))].find? fun e => underHome e.1) = none by decide]
  dsimp only
  rw [if_neg (by decide), if_neg hno]
  rfl

/-- The stage of `less` can be packed. -/
theorem buildGz_lessStage {a : PkgArgs}
    (hinfo : (addfile (pkginfoName, utf8 (synthesizedInfo a 3))).isSome) :
    ∃ out, (buildGz id a lessStage.root).1 = .ok out := by
  obtain ⟨raw, hraw⟩ := @buildTar_isSome [("bin/less".toList, [1, 2, 3]),
      (pkginfoName, utf8 (synthesizedInfo a 3))] (by
    intro e he
    rcases List.mem_pair.mp he with rfl | rfl
    · decide
    · exact hinfo)
  exact ⟨(raw, raw), by simp only [buildGz, stageEntries_lessStage, tarOf, hraw, id]⟩

/-- A release of `less` is refused where its blob exists with other bytes, and a rebuild of an
empty repository writes an index that holds. -/
theorem repo_over_runs_less :
    (∃ old msg, packRepo id some (fun _ => [])
        (.pack "less".toList "608-r0".toList [] [] lessStage.root fun _ => none)
        (AList.singleton (blobName "less".toList "608-r0".toList) old)
      = (.error msg, AList.singleton (blobName "less".toList "608-r0".toList) old)) ∧
    ∃ pkgs, (packRepo id some (fun _ => []) (.reindex fun _ => none) ∅).2.lookup indexName
        = some (asciiEncode (indexText pkgs)) ∧
      IndexSound (fun _ => []) (packRepo id some (fun _ => []) (.reindex fun _ => none) ∅).2 pkgs := by
  constructor
  · obtain ⟨out, hout⟩ := @buildGz_lessStage (lessArgs "608-r0".toList) (by decide +kernel)
    have hblob : (Invocation.pack "less".toList "608-r0".toList [] [] lessStage.root
        fun _ => none).blob id = some (.ok ("less".toList, "608-r0".toList, out.2)) := by
      rw [Invocation.blob, if_neg (by decide)]
      rw [show (⟨"less".toList, "608-r0".toList, [], splitWords []⟩ : PkgArgs)
        = lessArgs "608-r0".toList from rfl, hout]
      rfl
    have hrun := repo_over_runs id some (fun _ => [])
      (AList.singleton (blobName "less".toList "608-r0".toList) (0 :: out.2)) [] []
      (.pack "less".toList "608-r0".toList [] [] lessStage.root fun _ => none)
    obtain ⟨msg, hmsg⟩ := hrun.2.1 _ _ _ (0 :: out.2) hblob (AList.lookup_insert ∅) (by simp)
    exact ⟨0 :: out.2, msg, hmsg⟩
  · have hblobs : blobs ∅ = [] := by simp [blobs]
    have hindex : reindex (unpackBlob some) (fun _ => []) ∅ = some ∅ := by
      rw [reindex, hblobs]
      rfl
    have hnone : indexEntries ∅ = [] := by simp [indexEntries]
    have hok : (packRepo id some (fun _ => []) (.reindex fun _ => none) ∅).1 = .ok () := by
      simp only [packRepo, packBlob, Invocation.blob, hindex, hnone]
      rfl
    have hrun := repo_over_runs id some (fun _ => []) ∅ [] [] (.reindex fun _ => none)
    obtain ⟨pkgs, htext, hsound, -⟩ := hrun.2.2 hok
    exact ⟨pkgs, htext, hsound⟩

end OsMoap.Pack
