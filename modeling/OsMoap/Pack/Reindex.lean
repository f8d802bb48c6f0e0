import OsMoap.Lib.Selection
import OsMoap.Pack.Version
import Mathlib.Data.List.AList
import Mathlib.Data.List.Sort
import Mathlib.Data.List.Perm.Basic

/-!
# The Static Repository and Its Index

`tools/pack_repo.py`: a directory of blobs `<name>-<ver>.tar.gz`, `reindex`, which folds over
the blobs in file-name order and keeps the entry whose version `vercmp`s higher, and the
publishing step with its immutability rule.

The index entry of a name is the holder of a left fold over the blobs of that name alone
(`lookup_reindex`), so `Lib.holder_eq_iff` says when a newly published blob is served.

Unpacking a blob (`gzip.decompress`, `tarfile`, UTF-8) and SHA-256 are parameters.
-/

namespace OsMoap.Pack

open OsMoap.Lib

/-! ## Index entries -/

/-- What `pkginfo_from_blob` returns. -/
structure PkgInfo where
  name : Text
  ver : Text
  desc : Text
  deps : List Text
  rb : ℕ

/-- An entry of `APKINDEX.json`. -/
structure IndexEntry extends PkgInfo where
  zb : ℕ
  bs : Text
  file : Text

/-- `str.isspace` of one character. -/
def isSpaceChar (c : Char) : Bool :=
  let n := c.toNat
  (0x09 ≤ n && n ≤ 0x0d) || (0x1c ≤ n && n ≤ 0x20) || (0x2000 ≤ n && n ≤ 0x200a) ||
    n ∈ [0x85, 0xa0, 0x1680, 0x2028, 0x2029, 0x202f, 0x205f, 0x3000]

/-- `str.split()`. -/
def splitWords (t : Text) : List Text := (t.splitOnP isSpaceChar).filter fun w => !w.isEmpty

/-- `str.strip()`. -/
def strip (t : Text) : Text :=
  ((t.dropWhile isSpaceChar).reverse.dropWhile isSpaceChar).reverse

/-- `line.split(' = ', 1)`, when the line has a `' = '`. -/
def cutEquals : Text → Option (Text × Text)
  | ' ' :: '=' :: ' ' :: rest => some ([], rest)
  -- the leftmost one counts, the value may hold others
  | c :: rest => (cutEquals rest).map fun kv => (c :: kv.1, kv.2)
  | [] => none

/-- The values of one key, in the order of their lines. -/
def pkginfoValues (text key : Text) : List Text :=
  ((splitlines text).filterMap cutEquals).filterMap fun kv =>
    if strip kv.1 = key then some (strip kv.2) else none

/-- `pkginfo_from_blob` after unpacking: `rb` is the length of the tar, `text` its
`.PKGINFO`; `none` on a missing key. -/
def pkginfoOfText (rb : ℕ) (text : Text) : Option PkgInfo := do
  let name ← (pkginfoValues text "pkgname".toList).head?
  let ver ← (pkginfoValues text "pkgver".toList).head?
  some { name, ver, rb
         desc := (pkginfoValues text "pkgdesc".toList).headD []
         deps := pkginfoValues text "depend".toList }

/-- `pkginfo_from_blob`: `unpack` yields the length of the tar and its `.PKGINFO`. -/
def pkginfoFromBlob (unpack : Bytes → Option (ℕ × Text)) (gz : Bytes) : Option PkgInfo :=
  (unpack gz).bind fun (rb, text) => pkginfoOfText rb text

/-- `sanitize`: the description on one line. -/
def sanitize (desc : Text) : Text :=
  [' '].intercalate
    (splitWords (desc.map fun c => if c = '\r' then ' ' else if c = '\n' then ' ' else c))

/-- The repository directory: file name to bytes. -/
abbrev RepoDir := AList fun _ : Text => Bytes

/-- The index while `reindex` builds it: name to entry. -/
abbrev ByName := AList fun _ : Text => IndexEntry

/-- Names matched by the glob `*.tar.gz`, which skips hidden files and subdirectories. -/
def isBlobName (f : Text) : Bool :=
  ".tar.gz".toList.isSuffixOf f && f.head? != some '.' && !f.contains '/'

/-- `sorted(glob.glob('*.tar.gz'))` with the bytes of each blob. -/
def blobs (repo : RepoDir) : List (Text × Bytes) :=
  ((repo.entries.map fun e => (e.1, e.2)).filter fun b => isBlobName b.1).mergeSort
    fun a b => decide (a.1 ≤ b.1)

section Reindex

variable (unpack : Bytes → Option (ℕ × Text)) (sha256 : Bytes → Text)

/-- The entry of one blob; `none` when its `.PKGINFO` cannot be read. -/
def indexEntry (b : Text × Bytes) : Option IndexEntry :=
  (pkginfoFromBlob unpack b.2).map fun pi =>
    { pi with desc := sanitize pi.desc, zb := b.2.length, bs := sha256 b.2, file := b.1 }

/-- `vercmp(e['ver'], cur['ver']) > 0`. -/
def entryBeats (e cur : IndexEntry) : Option Bool := verBeats e.ver cur.ver

/-- One blob of the loop of `reindex`. -/
def reindexStep (byName : ByName) (b : Text × Bytes) : Option ByName := do
  let e ← indexEntry unpack sha256 b
  match byName.lookup e.name with
  | none => some (byName.insert e.name e)
  | some cur =>
    let better ← entryBeats e cur
    some (if better then byName.insert e.name e else byName)

/-- `reindex`, up to the JSON text it writes; `none` when it raises. -/
def reindex (repo : RepoDir) : Option ByName :=
  (blobs repo).foldlM (reindexStep unpack sha256) ∅

/-- The file a package is published as. -/
def blobName (name ver : Text) : Text :=
  name ++ ("-".toList ++ (ver ++ ".tar.gz".toList))

/-- The publishing step of `main`: an existing blob is immutable. -/
def publish (repo : RepoDir) (name ver : Text) (gz : Bytes) : Except Text RepoDir :=
  let blob := blobName name ver
  match repo.lookup blob with
  | some old =>
    -- the same bytes again are no error: nothing is written
    if old ≠ gz then
      .error ("pack_repo: ".toList ++ blob ++
        " exists with DIFFERENT bytes -- blobs are immutable, bump -rN instead".toList)
    else .ok repo
  | none => .ok (repo.insert blob gz)

/-! ## One name at a time -/

/-- The blobs of one name, in the order `reindex` meets them. -/
def contenders (P : Text) (bs : List (Text × Bytes)) : List IndexEntry :=
  (bs.filterMap (indexEntry unpack sha256)).filter fun e => e.name = P

variable {unpack sha256}

theorem contenders_append (P : Text) (as bs : List (Text × Bytes)) :
    contenders unpack sha256 P (as ++ bs)
      = contenders unpack sha256 P as ++ contenders unpack sha256 P bs := by
  simp [contenders, List.filterMap_append]

theorem contenders_cons {b : Text × Bytes} {e : IndexEntry} (P : Text) (bs : List (Text × Bytes))
    (h : indexEntry unpack sha256 b = some e) :
    contenders unpack sha256 P (b :: bs)
      = (if e.name = P then [e] else []) ++ contenders unpack sha256 P bs := by
  by_cases hP : e.name = P <;> simp [contenders, h, hP]

theorem file_of_indexEntry {b : Text × Bytes} {e : IndexEntry}
    (h : indexEntry unpack sha256 b = some e) : e.file = b.1 := by
  rw [indexEntry, Option.map_eq_some_iff] at h
  obtain ⟨pi, -, rfl⟩ := h
  rfl

theorem mem_contenders {P : Text} {bs : List (Text × Bytes)} {e : IndexEntry}
    (h : e ∈ contenders unpack sha256 P bs) :
    e.name = P ∧ ∃ b ∈ bs, indexEntry unpack sha256 b = some e ∧ b.1 = e.file := by
  simp only [contenders, List.mem_filter, List.mem_filterMap, decide_eq_true_eq] at h
  obtain ⟨⟨b, hb, he⟩, hP⟩ := h
  exact ⟨hP, b, hb, he, (file_of_indexEntry he).symm⟩

/-- One step moves the holder of the blob's own name and no other. -/
theorem reindexStep_eq_some {byName byName' : ByName} {b : Text × Bytes}
    (h : reindexStep unpack sha256 byName b = some byName') :
    ∃ e, indexEntry unpack sha256 b = some e ∧
      challenge entryBeats (byName.lookup e.name) e = some (byName'.lookup e.name) ∧
      ∀ P, P ≠ e.name → byName'.lookup P = byName.lookup P := by
  unfold reindexStep at h
  rw [Option.bind_eq_bind, Option.bind_eq_some_iff] at h
  obtain ⟨e, he, h⟩ := h
  refine ⟨e, he, ?_⟩
  cases hcur : byName.lookup e.name with
  | none =>
    rw [hcur] at h
    obtain rfl := Option.some.inj h
    exact ⟨by rw [challenge, AList.lookup_insert], fun P hP => AList.lookup_insert_ne hP⟩
  | some cur =>
    rw [hcur] at h
    simp only [Option.bind_eq_bind, Option.bind_eq_some_iff] at h
    obtain ⟨better, hb, h⟩ := h
    obtain rfl := Option.some.inj h
    cases better
    · exact ⟨by simp [challenge, hb, hcur], fun P _ => rfl⟩
    · exact ⟨by simp [challenge, hb], fun P hP => AList.lookup_insert_ne hP⟩

/-- A step succeeds when the blob is readable and its comparison does not raise. -/
theorem reindexStep_isSome {byName : ByName} {b : Text × Bytes} {e : IndexEntry}
    (he : indexEntry unpack sha256 b = some e) {holder : Option IndexEntry}
    (hc : challenge entryBeats (byName.lookup e.name) e = some holder) :
    ∃ byName', reindexStep unpack sha256 byName b = some byName' := by
  cases hcur : byName.lookup e.name with
  | none => exact ⟨byName.insert e.name e, by simp [reindexStep, he, hcur]⟩
  | some cur =>
    rw [hcur, challenge, Option.map_eq_some_iff] at hc
    obtain ⟨better, hb, -⟩ := hc
    exact ⟨if better then byName.insert e.name e else byName,
      by simp [reindexStep, he, hcur, hb]⟩

/-- The loop succeeds and leaves a given index entry for each name exactly when every blob
is readable and the fold over that name's own blobs leaves that holder. -/
theorem foldlM_reindexStep_lookup {bs : List (Text × Bytes)} {byName byName' : ByName}
    (h : bs.foldlM (reindexStep unpack sha256) byName = some byName') (P : Text) :
    holderAfter entryBeats (byName.lookup P) (contenders unpack sha256 P bs)
      = some (byName'.lookup P) := by
  induction bs generalizing byName with
  | nil =>
    obtain rfl := Option.some.inj h
    rfl
  | cons b bs ih =>
    rw [List.foldlM_cons, Option.bind_eq_bind, Option.bind_eq_some_iff] at h
    obtain ⟨mid, hstep, hrest⟩ := h
    obtain ⟨e, he, hself, hothers⟩ := reindexStep_eq_some hstep
    rw [contenders_cons P bs he]
    by_cases hP : e.name = P
    · subst hP
      rw [if_pos rfl, List.singleton_append, holderAfter_cons, hself, Option.bind_some]
      exact ih hrest
    · rw [if_neg hP, List.nil_append, ← hothers P fun h => hP h.symm]
      exact ih hrest

theorem foldlM_reindexStep_isSome {bs : List (Text × Bytes)} {byName : ByName}
    (hread : ∀ b ∈ bs, ∃ e, indexEntry unpack sha256 b = some e)
    (hfold : ∀ P, ∃ h, holderAfter entryBeats (byName.lookup P)
      (contenders unpack sha256 P bs) = some h) :
    ∃ byName', bs.foldlM (reindexStep unpack sha256) byName = some byName' := by
  induction bs generalizing byName with
  | nil => exact ⟨byName, rfl⟩
  | cons b bs ih =>
    obtain ⟨e, he⟩ := hread b List.mem_cons_self
    obtain ⟨h, hh⟩ := hfold e.name
    rw [contenders_cons e.name bs he, if_pos rfl, List.singleton_append, holderAfter_cons,
      Option.bind_eq_some_iff] at hh
    obtain ⟨holder, hchal, -⟩ := hh
    obtain ⟨mid, hmid⟩ := reindexStep_isSome he hchal
    obtain ⟨e', he', hself, hothers⟩ := reindexStep_eq_some hmid
    obtain rfl : e = e' := Option.some.inj (he.symm.trans he')
    rw [List.foldlM_cons, hmid]
    refine ih (fun b' hb' => hread b' (List.mem_cons_of_mem _ hb')) fun P => ?_
    obtain ⟨hP, hhP⟩ := hfold P
    rw [contenders_cons P bs he] at hhP
    by_cases hPe : e.name = P
    · subst hPe
      rw [if_pos rfl, List.singleton_append, holderAfter_cons, hself, Option.bind_some] at hhP
      exact ⟨hP, hhP⟩
    · rw [if_neg hPe, List.nil_append, ← hothers P fun h => hPe h.symm] at hhP
      exact ⟨hP, hhP⟩

/-- Every blob of a successful loop was readable. -/
theorem readable_of_foldlM {bs : List (Text × Bytes)} {byName byName' : ByName}
    (h : bs.foldlM (reindexStep unpack sha256) byName = some byName') :
    ∀ b ∈ bs, ∃ e, indexEntry unpack sha256 b = some e := by
  induction bs generalizing byName with
  | nil => simp
  | cons b bs ih =>
    rw [List.foldlM_cons, Option.bind_eq_bind, Option.bind_eq_some_iff] at h
    obtain ⟨mid, hstep, hrest⟩ := h
    obtain ⟨e, he, -⟩ := reindexStep_eq_some hstep
    intro b' hb'
    rcases List.mem_cons.mp hb' with rfl | hmem
    · exact ⟨e, he⟩
    · exact ih hrest b' hmem

/-- **The index entry of a name** is the holder left by the blobs of that name. -/
theorem lookup_reindex {repo : RepoDir} {index : ByName}
    (h : reindex unpack sha256 repo = some index) (P : Text) :
    holderAfter entryBeats none (contenders unpack sha256 P (blobs repo))
      = some (index.lookup P) := by
  have hfold := foldlM_reindexStep_lookup h P
  rwa [AList.lookup_empty] at hfold

end Reindex

/-! ## The order of the blobs -/

theorem mem_blobs {repo : RepoDir} {b : Text × Bytes} :
    b ∈ blobs repo ↔ repo.lookup b.1 = some b.2 ∧ isBlobName b.1 = true := by
  rw [blobs, List.mem_mergeSort, List.mem_filter, ← Option.mem_def, AList.mem_lookup_iff,
    List.mem_map]
  constructor
  · rintro ⟨⟨e, he, rfl⟩, hb⟩
    exact ⟨he, hb⟩
  · rintro ⟨he, hb⟩
    exact ⟨⟨⟨b.1, b.2⟩, he, rfl⟩, hb⟩

theorem pairwise_blobs (repo : RepoDir) : (blobs repo).Pairwise fun a b => a.1 < b.1 := by
  have hle : (blobs repo).Pairwise fun a b => decide (a.1 ≤ b.1) = true := by
    refine List.pairwise_mergeSort ?_ ?_ _
    · intro a b c hab hbc
      simp only [decide_eq_true_eq] at hab hbc ⊢
      exact le_trans hab hbc
    · intro a b
      simp only [Bool.or_eq_true, decide_eq_true_eq]
      exact le_total a.1 b.1
  have hne : (blobs repo).Pairwise fun a b => a.1 ≠ b.1 := by
    have hnodup : (repo.entries.map fun e => (e.1, e.2)).Pairwise fun a b => a.1 ≠ b.1 :=
      List.pairwise_map.mpr (List.pairwise_map.mp repo.nodupKeys)
    exact ((List.mergeSort_perm _ _).pairwise_iff fun h => h.symm).mpr (hnodup.filter _)
  exact hle.imp₂ (fun _ _ h h' => lt_of_le_of_ne (of_decide_eq_true h) h') hne

/-! ## Publishing -/

/-- After publishing, the blob is there and every other file is as before; a blob that was
there already had the same bytes. -/
theorem lookup_publish {repo repo' : RepoDir} {name ver : Text} {gz : Bytes}
    (h : publish repo name ver gz = .ok repo') :
    repo'.lookup (blobName name ver) = some gz ∧
      (∀ f, f ≠ blobName name ver → repo'.lookup f = repo.lookup f) ∧
      ∀ old, repo.lookup (blobName name ver) = some old → old = gz := by
  unfold publish at h
  cases hold : repo.lookup (blobName name ver) with
  | none =>
    simp only [hold, Except.ok.injEq] at h
    subst h
    exact ⟨AList.lookup_insert repo, fun f hf => AList.lookup_insert_ne hf, by simp⟩
  | some old =>
    simp only [hold] at h
    split_ifs at h with hne
    obtain rfl : old = gz := not_not.mp hne
    obtain rfl := Except.ok.inj h
    exact ⟨hold, fun _ _ => rfl, by simp⟩

end OsMoap.Pack
