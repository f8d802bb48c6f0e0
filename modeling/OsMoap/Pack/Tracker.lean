import OsMoap.Pack.Reindex

/-!
# The Version Oracle and What It Publishes

`.github/workflows/track-alpine.yml`: the oracle compares Alpine's version of each port with
the one the index serves, both stripped of `-rN`; a port that is behind is rebuilt and
published as `<name>-<version>-r0` by `tools/pack_repo.py`, and the index is rebuilt.

`Converges` says that the rebuilt index serves the published blob, so that the next run of
the oracle is content.  `converges_iff_prevails` says when that happens in any repository;
`tracker_converges_iff` spells the condition out on the two versions for a port with one
published blob.
-/

namespace OsMoap.Pack

open OsMoap.Lib

/-! ## The version oracle -/

/-- One port of the oracle's loop: the bump it adds, if any.  `alpine` gives the version
Alpine's index has for the port, `ours` the version our index has. -/
def oraclePort (force : Text) (alpine ours : Text → Option Text) (name : Text) :
    Option (List (Text × Text)) :=
  if name.head? = some '_' then some []
  else match alpine name with
    | none => some []
    | some v =>
      let alpineUp := upstream v
      let ourUp := upstream ((ours name).getD "0".toList)
      if name = force then some [(name, alpineUp)]
      else (verBeats alpineUp ourUp).map fun newer => if newer then [(name, alpineUp)] else []

/-- The bump list, with the forced package appended when it is not yet in it. -/
def oracle (force : Text) (alpine ours : Text → Option Text) (ports : List Text) :
    Option (List (Text × Text)) := do
  let bumps ← ports.mapM (oraclePort force alpine ours)
  let bumps := bumps.flatten
  if force ≠ [] ∧ ¬ bumps.any (fun b => b.1 = force) then
    some (bumps ++ [(force, upstream ((ours force).getD "0".toList))])
  else some bumps

/-- `{p['name']: p['ver'] for p in APKINDEX['pkgs']}`. -/
def ourVersions (index : ByName) (name : Text) : Option Text := (index.lookup name).map (·.ver)

private theorem mem_of_mapM {α β : Type*} {f : α → Option β} {xs : List α} {ys : List β} {y : β}
    (h : xs.mapM f = some ys) (hy : y ∈ ys) : ∃ x ∈ xs, f x = some y := by
  induction xs generalizing ys with
  | nil =>
    obtain rfl : [] = ys := by simpa using h
    simp at hy
  | cons x xs ih =>
    simp only [List.mapM_cons, Option.bind_eq_bind, Option.bind_eq_some_iff, Option.pure_def,
      Option.some.injEq] at h
    obtain ⟨z, hz, zs, hzs, rfl⟩ := h
    rcases List.mem_cons.mp hy with rfl | hmem
    · exact ⟨x, List.mem_cons_self, hz⟩
    · obtain ⟨x', hx', hf⟩ := ih hzs hmem
      exact ⟨x', List.mem_cons_of_mem _ hx', hf⟩

/-- What one port adds without a forced rebuild: its own name, because it is behind. -/
private theorem mem_oraclePort {force : Text} {alpine ours : Text → Option Text} {name P A : Text}
    {bumps : List (Text × Text)} (h : oraclePort force alpine ours name = some bumps)
    (hmem : (P, A) ∈ bumps) (hforce : P ≠ force) :
    verBeats A (upstream ((ours P).getD "0".toList)) = some true ∧
      ∃ v, alpine P = some v ∧ A = upstream v := by
  have hskip : ¬ name.head? = some '_' := by
    intro hskip
    rw [oraclePort, if_pos hskip] at h
    rw [← Option.some.inj h] at hmem
    simp at hmem
  rw [oraclePort, if_neg hskip] at h
  cases halp : alpine name with
  | none =>
    rw [halp] at h
    rw [← Option.some.inj h] at hmem
    simp at hmem
  | some v =>
    simp only [halp] at h
    by_cases hf : name = force
    · rw [if_pos hf] at h
      rw [← Option.some.inj h, List.mem_singleton] at hmem
      exact absurd ((Prod.mk.inj hmem).1.trans hf) hforce
    · rw [if_neg hf, Option.map_eq_some_iff] at h
      obtain ⟨newer, hnewer, rfl⟩ := h
      cases newer
      · simp at hmem
      · simp only [if_true, List.mem_singleton, Prod.mk.injEq] at hmem
        obtain ⟨rfl, rfl⟩ := hmem
        exact ⟨hnewer, v, halp, rfl⟩

/-- A package without a forced rebuild is in the bump list only because it is behind. -/
theorem behind_of_mem_oracle {force : Text} {alpine ours : Text → Option Text}
    {ports : List Text} {bumps : List (Text × Text)} {P A : Text}
    (h : oracle force alpine ours ports = some bumps) (hmem : (P, A) ∈ bumps)
    (hforce : P ≠ force) :
    verBeats A (upstream ((ours P).getD "0".toList)) = some true ∧
      ∃ v, alpine P = some v ∧ A = upstream v := by
  rw [oracle, Option.bind_eq_bind, Option.bind_eq_some_iff] at h
  obtain ⟨perPort, hports, h⟩ := h
  have hmem' : (P, A) ∈ perPort.flatten := by
    simp only at h
    split_ifs at h with hc
    · rw [← Option.some.inj h, List.mem_append, List.mem_singleton] at hmem
      rcases hmem with hmem | hmem
      · exact hmem
      · exact absurd (Prod.mk.inj hmem).1 hforce
    · rwa [← Option.some.inj h] at hmem
  obtain ⟨l, hl, hPA⟩ := List.mem_flatten.mp hmem'
  obtain ⟨name, -, hport⟩ := mem_of_mapM hports hl
  exact mem_oraclePort hport hPA hforce

/-! ## Publishing one blob -/

/-- Directories that agree on the names of a kind have the same blobs of that kind. -/
theorem filter_blobs_congr {repo repo' : RepoDir} {p : Text → Bool}
    (h : ∀ f, p f = true → repo'.lookup f = repo.lookup f) :
    (blobs repo').filter (fun b => p b.1) = (blobs repo).filter (fun b => p b.1) := by
  have : Std.Irrefl fun a b : Text × Bytes => a.1 < b.1 := ⟨fun a => lt_irrefl a.1⟩
  have : Std.Antisymm fun a b : Text × Bytes => a.1 < b.1 :=
    ⟨fun a b hab hba => absurd hba (lt_asymm hab)⟩
  refine ((pairwise_blobs repo').filter _).eq_of_mem_iff ((pairwise_blobs repo).filter _) ?_
  intro b
  simp only [List.mem_filter, mem_blobs]
  constructor
  · rintro ⟨⟨hl, hb⟩, hp⟩
    exact ⟨⟨by rw [← h b.1 hp, hl], hb⟩, hp⟩
  · rintro ⟨⟨hl, hb⟩, hp⟩
    exact ⟨⟨by rw [h b.1 hp, hl], hb⟩, hp⟩

section Convergence

variable {unpack : Bytes → Option (ℕ × Text)} {sha256 : Bytes → Text}

/-- Selecting blobs by file name selects the contenders by file name. -/
theorem contenders_filter (P : Text) (bs : List (Text × Bytes)) (p : Text → Bool) :
    contenders unpack sha256 P (bs.filter fun b => p b.1)
      = (contenders unpack sha256 P bs).filter fun e => p e.file := by
  induction bs with
  | nil => rfl
  | cons b bs ih =>
    cases he : indexEntry unpack sha256 b with
    | none =>
      have hskip : ∀ cs, contenders unpack sha256 P (b :: cs)
          = contenders unpack sha256 P cs := fun cs => by simp [contenders, he]
      by_cases hp : p b.1 = true
      · rw [List.filter_cons_of_pos (p := fun b : Text × Bytes => p b.1) hp, hskip, hskip, ih]
      · rw [List.filter_cons_of_neg (p := fun b : Text × Bytes => p b.1) hp, hskip, ih]
    | some e =>
      have hfile := file_of_indexEntry he
      by_cases hp : p b.1 = true
      · rw [List.filter_cons_of_pos (p := fun b : Text × Bytes => p b.1) hp, contenders_cons P _ he, contenders_cons P _ he, ih,
          List.filter_append]
        by_cases hP : e.name = P <;> simp [hP, hfile, hp]
      · rw [List.filter_cons_of_neg (p := fun b : Text × Bytes => p b.1) hp, contenders_cons P _ he, ih, List.filter_append]
        by_cases hP : e.name = P <;> simp [hP, hfile, hp]

/-- What has happened when a run of the tracker has published `P` at Alpine's version `A`
without being forced: the index served `old`, at `B-rN`; the oracle listed `P` at `A`; and
`gz`, whose `.PKGINFO` says `P` and `A-r0`, went into the repository. -/
structure TrackerRun (unpack : Bytes → Option (ℕ × Text)) (sha256 : Bytes → Text)
    (force : Text) (alpine : Text → Option Text) (ports : List Text) (repo : RepoDir)
    (P A B : Text) (N : ℕ) (old : IndexEntry) (gz : Bytes) (repo' : RepoDir) : Prop where
  serves : ∃ index, reindex unpack sha256 repo = some index ∧
    index.lookup P = some old ∧
    ∃ bumps, oracle force alpine (ourVersions index) ports = some bumps ∧ (P, A) ∈ bumps
  old_ver : old.ver = withRevision B N
  not_forced : P ≠ force
  built : ∃ pi, pkginfoFromBlob unpack gz = some pi ∧ pi.name = P ∧ pi.ver = withRevision A 0
  published : publish repo P (withRevision A 0) gz = .ok repo'

/-- The rebuilt index serves the published blob at `A-r0`, and no unforced run of the oracle
against it, with the same Alpine versions, lists `P` again. -/
def Converges (unpack : Bytes → Option (ℕ × Text)) (sha256 : Bytes → Text)
    (alpine : Text → Option Text) (ports : List Text) (P A : Text) (gz : Bytes)
    (repo' : RepoDir) : Prop :=
  ∃ index new, reindex unpack sha256 repo' = some index ∧
    indexEntry unpack sha256 (blobName P (withRevision A 0), gz) = some new ∧
    index.lookup P = some new ∧ new.ver = withRevision A 0 ∧
    ∀ force bumps, P ≠ force → oracle force alpine (ourVersions index) ports = some bumps →
      ∀ v, (P, v) ∉ bumps

/-- `new` beats whatever the blobs of `P` sorting before it leave, and none sorting after it
beats `new`. -/
def Prevails (rivals : List IndexEntry) (new : IndexEntry) : Prop :=
  (∃ h, holderAfter entryBeats none (rivals.filter fun e => e.file < new.file) = some h ∧
    ∀ c, h = some c → entryBeats new c = some true) ∧
  ∀ y ∈ rivals.filter (fun e => new.file < e.file), entryBeats y new = some false

variable {force : Text} {alpine : Text → Option Text} {ports : List Text} {repo repo' : RepoDir}
  {P A B : Text} {N : ℕ} {old : IndexEntry} {gz : Bytes}

theorem TrackerRun.behind
    (h : TrackerRun unpack sha256 force alpine ports repo P A B N old gz repo') :
    vercmp A B = some 1 ∧ ∃ v, alpine P = some v ∧ A = upstream v := by
  obtain ⟨index, -, hold, bumps, horacle, hmem⟩ := h.serves
  have hbehind := behind_of_mem_oracle horacle hmem h.not_forced
  have hours : ourVersions index P = some (withRevision B N) := by
    rw [ourVersions, hold, Option.map_some, h.old_ver]
  rw [hours, Option.getD_some, upstream_withRevision, verBeats_eq_true_iff] at hbehind
  exact hbehind

/-- The entry of the published blob. -/
theorem TrackerRun.new_entry
    (h : TrackerRun unpack sha256 force alpine ports repo P A B N old gz repo') :
    ∃ new, indexEntry unpack sha256 (blobName P (withRevision A 0), gz) = some new ∧
      new.name = P ∧ new.ver = withRevision A 0 ∧ new.file = blobName P (withRevision A 0) := by
  obtain ⟨pi, hpi, hname, hver⟩ := h.built
  refine ⟨{ pi with
    desc := sanitize pi.desc, zb := gz.length, bs := sha256 gz,
    file := blobName P (withRevision A 0) }, ?_, hname, hver, rfl⟩
  rw [indexEntry, hpi]
  rfl

/-- Once the index serves `A-r0`, the oracle is content. -/
theorem not_mem_oracle_of_served {index : ByName} {new : IndexEntry} {v : Text}
    (hlookup : index.lookup P = some new) (hver : new.ver = withRevision A 0)
    (halpine : alpine P = some v) (hA : A = upstream v) :
    ∀ force bumps, P ≠ force → oracle force alpine (ourVersions index) ports = some bumps →
      ∀ w, (P, w) ∉ bumps := by
  intro force bumps hforce horacle w hmem
  obtain ⟨hbeats, v', hv', rfl⟩ := behind_of_mem_oracle horacle hmem hforce
  obtain rfl : v = v' := Option.some.inj (halpine.symm.trans hv')
  have hours : ourVersions index P = some (withRevision A 0) := by
    rw [ourVersions, hlookup, Option.map_some, hver]
  rw [hours, Option.getD_some, upstream_withRevision, ← hA, verBeats_eq_true_iff,
    vercmp_self] at hbeats
  simp at hbeats

/-- The blobs of `P` after publishing: the old ones around the new one. -/
theorem TrackerRun.contenders_after
    (h : TrackerRun unpack sha256 force alpine ports repo P A B N old gz repo')
    {new : IndexEntry}
    (hnew : indexEntry unpack sha256 (blobName P (withRevision A 0), gz) = some new)
    (hname : new.name = P) (hblob : isBlobName (blobName P (withRevision A 0)) = true) :
    contenders unpack sha256 P (blobs repo')
      = (contenders unpack sha256 P (blobs repo)).filter (fun e => e.file < new.file)
        ++ new :: (contenders unpack sha256 P (blobs repo)).filter
          fun e => new.file < e.file := by
  obtain ⟨hself, hothers, -⟩ := lookup_publish h.published
  have hfile := file_of_indexEntry hnew
  have hmem : (blobName P (withRevision A 0), gz) ∈ blobs repo' := mem_blobs.mpr ⟨hself, hblob⟩
  have hsplit := split_at_mem Prod.fst (pairwise_blobs repo') hmem
  have hbefore := filter_blobs_congr
    (p := fun f => f < blobName P (withRevision A 0)) fun f hf =>
      hothers f (ne_of_lt (of_decide_eq_true hf))
  have hafter := filter_blobs_congr
    (p := fun f => blobName P (withRevision A 0) < f) fun f hf =>
      hothers f (ne_of_gt (of_decide_eq_true hf))
  dsimp only at hsplit
  rw [hbefore, hafter] at hsplit
  rw [hsplit, contenders_append, contenders_cons P _ hnew, if_pos hname, List.singleton_append,
    contenders_filter P _ fun f => decide (f < blobName P (withRevision A 0)),
    contenders_filter P _ fun f => decide (blobName P (withRevision A 0) < f), hfile]

/-- Publishing leaves every other name's blobs as they were. -/
theorem TrackerRun.contenders_other
    (h : TrackerRun unpack sha256 force alpine ports repo P A B N old gz repo')
    {Q : Text} (hQ : Q ≠ P) :
    contenders unpack sha256 Q (blobs repo')
      = contenders unpack sha256 Q (blobs repo) := by
  obtain ⟨hself, hothers, hsame⟩ := lookup_publish h.published
  obtain ⟨new, hnew, hname, -, -⟩ := h.new_entry
  -- a contender of another name is not the published file, before or after
  have hdrop : ∀ r : RepoDir, (∀ b, r.lookup (blobName P (withRevision A 0)) = some b → b = gz) →
      (contenders unpack sha256 Q (blobs r)).filter
        (fun e => decide (e.file ≠ blobName P (withRevision A 0)))
        = contenders unpack sha256 Q (blobs r) := by
    intro r hr
    refine List.filter_eq_self.mpr fun e he => decide_eq_true fun hfile => ?_
    obtain ⟨heQ, b, hb, hbe, hbf⟩ := mem_contenders he
    obtain ⟨f, bytes⟩ := b
    obtain rfl : f = blobName P (withRevision A 0) := hbf.trans hfile
    obtain rfl := hr bytes (mem_blobs.mp hb).1
    obtain rfl := Option.some.inj (hnew.symm.trans hbe)
    exact hQ (heQ.symm.trans hname)
  have hfilter := filter_blobs_congr
    (p := fun f => decide (f ≠ blobName P (withRevision A 0))) fun f hf =>
      hothers f (of_decide_eq_true hf)
  rw [← hdrop repo' fun b hb => Option.some.inj (hb.symm.trans hself), ← hdrop repo hsame,
    ← contenders_filter Q _ fun f => decide (f ≠ blobName P (withRevision A 0)),
    ← contenders_filter Q _ fun f => decide (f ≠ blobName P (withRevision A 0)), hfilter]

/-- Rebuilding the index succeeds as soon as the blobs of `P` can be compared. -/
theorem TrackerRun.reindex_isSome
    (h : TrackerRun unpack sha256 force alpine ports repo P A B N old gz repo')
    {holder : Option IndexEntry}
    (hP : holderAfter entryBeats none (contenders unpack sha256 P (blobs repo'))
      = some holder) :
    ∃ index', reindex unpack sha256 repo' = some index' := by
  obtain ⟨index, hindex, -⟩ := h.serves
  obtain ⟨hself, hothers, -⟩ := lookup_publish h.published
  obtain ⟨new, hnew, -⟩ := h.new_entry
  refine foldlM_reindexStep_isSome ?_ fun Q => ?_
  · rintro ⟨f, bytes⟩ hb
    obtain ⟨hl, hblob⟩ := mem_blobs.mp hb
    by_cases hf : f = blobName P (withRevision A 0)
    · subst hf
      obtain rfl := Option.some.inj (hself.symm.trans hl)
      exact ⟨new, hnew⟩
    · rw [hothers f hf] at hl
      exact readable_of_foldlM hindex _ (mem_blobs.mpr ⟨hl, hblob⟩)
  · rw [AList.lookup_empty]
    by_cases hQ : Q = P
    · subst hQ
      exact ⟨holder, hP⟩
    · rw [h.contenders_other hQ]
      exact ⟨_, lookup_reindex hindex Q⟩

/-- **When the tracker converges**, in any repository: the new blob is one the index scans,
and it prevails over the blobs of its name already there. -/
theorem TrackerRun.converges_iff_prevails
    (h : TrackerRun unpack sha256 force alpine ports repo P A B N old gz repo')
    {new : IndexEntry}
    (hnew : indexEntry unpack sha256 (blobName P (withRevision A 0), gz) = some new) :
    Converges unpack sha256 alpine ports P A gz repo' ↔
      isBlobName (blobName P (withRevision A 0)) = true ∧
        Prevails (contenders unpack sha256 P (blobs repo)) new := by
  obtain ⟨new', hnew', hname, hver, hfile⟩ := h.new_entry
  obtain rfl := Option.some.inj (hnew.symm.trans hnew')
  obtain ⟨-, v, halpine, hA⟩ := h.behind
  -- the file of the new entry is its own: it cannot stand among the others
  have hfresh : ∀ p : IndexEntry → Prop, [DecidablePred p] → (∀ e, p e → e.file ≠ new.file) →
      new ∉ (contenders unpack sha256 P (blobs repo)).filter p := by
    intro p _ hp hmem
    exact hp new (by simpa using (List.mem_filter.mp hmem).2) rfl
  have hbefore := hfresh (fun e => e.file < new.file) fun e he => ne_of_lt he
  have hafter := hfresh (fun e => new.file < e.file) fun e he => ne_of_gt he
  constructor
  · rintro ⟨index', new', hindex', hn, hlookup, -, -⟩
    obtain rfl := Option.some.inj (hnew.symm.trans hn)
    have hfold := lookup_reindex hindex' P
    rw [hlookup] at hfold
    have hblob : isBlobName (blobName P (withRevision A 0)) = true := by
      rcases mem_of_holderAfter _ hfold with hnone | hmem
      · simp at hnone
      · obtain ⟨-, b, hb, -, hbf⟩ := mem_contenders hmem
        rw [← hfile, ← hbf]
        exact (mem_blobs.mp hb).2
    rw [h.contenders_after hnew hname hblob] at hfold
    exact ⟨hblob, (holder_eq_iff _ hbefore hafter).mp hfold⟩
  · rintro ⟨hblob, hprev⟩
    have hfold := (holder_eq_iff _ hbefore hafter).mpr hprev
    rw [← h.contenders_after hnew hname hblob] at hfold
    obtain ⟨index', hindex'⟩ := h.reindex_isSome hfold
    have hlookup : index'.lookup P = some new :=
      (Option.some.inj (hfold.symm.trans (lookup_reindex hindex' P))).symm
    exact ⟨index', new, hindex', hnew, hlookup, hver,
      not_mem_oracle_of_served hlookup hver halpine hA⟩

theorem TrackerRun.old_ne_new
    (h : TrackerRun unpack sha256 force alpine ports repo P A B N old gz repo')
    (hold : old ∈ contenders unpack sha256 P (blobs repo)) :
    old.file ≠ blobName P (withRevision A 0) := by
  intro hfile
  obtain ⟨-, -, hsame⟩ := lookup_publish h.published
  obtain ⟨new, hnew, -, hver, -⟩ := h.new_entry
  obtain ⟨-, ⟨f, bytes⟩, hb, hbe, hbf⟩ := mem_contenders hold
  obtain rfl : f = blobName P (withRevision A 0) := hbf.trans hfile
  obtain rfl := hsame bytes (mem_blobs.mp hb).1
  obtain rfl := Option.some.inj (hnew.symm.trans hbe)
  have hAB : A = B := by
    have := congrArg upstream (hver.symm.trans h.old_ver)
    rwa [upstream_withRevision, upstream_withRevision] at this
  have hbehind := h.behind.1
  rw [hAB, vercmp_self] at hbehind
  simp at hbehind

/-- Against a single old blob, the new one prevails unless its version continues the old one
below the revision, or the versions differ in numerals of one value and the old blob is
visited last. -/
theorem TrackerRun.prevails_iff_of_single
    (h : TrackerRun unpack sha256 force alpine ports repo P A B N old gz repo')
    (hne : old.file ≠ blobName P (withRevision A 0)) {new : IndexEntry}
    (hver : new.ver = withRevision A 0) (hfile : new.file = blobName P (withRevision A 0)) :
    Prevails [old] new ↔ ¬ ContinuesBelow A B N ∧
      ¬ (SameValueDiff A B ∧ blobName P (withRevision A 0) < old.file) := by
  obtain ⟨hwin, hlose⟩ := vercmp_revision N h.behind.1
  rw [← h.old_ver, ← hver] at hwin hlose
  rcases lt_or_gt_of_ne hne with hlt | hgt
  · -- the old blob is visited first
    have hprev : Prevails [old] new ↔ vercmp new.ver old.ver = some 1 := by
      rw [← hfile] at hlt
      simp [Prevails, hlt, lt_asymm hlt, Lib.holderAfter, Lib.challenge, entryBeats,
        verBeats_eq_true_iff]
    rw [hprev]
    constructor
    · intro hbeats
      refine ⟨fun hc => ?_, fun hs => absurd hs.2 (lt_asymm hlt)⟩
      rw [(hlose hc).1] at hbeats
      simp at hbeats
    · exact fun hc => (hwin hc.1).1
  · -- the old blob is visited last
    have hprev : Prevails [old] new ↔ verBeats old.ver new.ver = some false := by
      have hgt' : new.file < old.file := hfile ▸ hgt
      simp [Prevails, hgt', lt_asymm hgt', entryBeats]
    rw [hprev]
    constructor
    · intro hkeeps
      constructor
      · intro hc
        rw [verBeats_eq_true_iff.mpr (hlose hc).2] at hkeeps
        simp at hkeeps
      · rintro ⟨hs, -⟩
        by_cases hc : ContinuesBelow A B N
        · rw [verBeats_eq_true_iff.mpr (hlose hc).2] at hkeeps
          simp at hkeeps
        · rw [verBeats_eq_true_iff.mpr ((hwin hc).2.1 hs)] at hkeeps
          simp at hkeeps
    · rintro ⟨hc, hs⟩
      have := (hwin hc).2.2 fun hv => hs ⟨hv, hgt⟩
      simp [verBeats, this]

/-- For dotted-numeric versions the revisions turn the comparison round exactly when the
new version continues the old one. -/
theorem verBeats_withRevision_iff {a b : Text} (n : ℕ) (ha : DottedNumeric a)
    (h : verBeats a b = some true) :
    verBeats (withRevision a 0) (withRevision b n) = some true ↔
      ¬ segments b <+: segments a := by
  rw [verBeats_eq_true_iff] at h ⊢
  rw [← continuesBelow_iff_of_dottedNumeric n ha h]
  obtain ⟨hwin, hlose⟩ := vercmp_revision n h
  constructor
  · intro hbeats hc
    rw [(hlose hc).1] at hbeats
    simp at hbeats
  · exact fun hc => (hwin hc).1

/-- Convergence for a port with a single published blob. -/
theorem TrackerRun.converges_iff_of_single
    (h : TrackerRun unpack sha256 force alpine ports repo P A B N old gz repo')
    (hsingle : contenders unpack sha256 P (blobs repo) = [old]) :
    Converges unpack sha256 alpine ports P A gz repo' ↔
      isBlobName (blobName P (withRevision A 0)) = true ∧ ¬ ContinuesBelow A B N ∧
        ¬ (SameValueDiff A B ∧ blobName P (withRevision A 0) < old.file) := by
  obtain ⟨new, hnew, -, hver, hfile⟩ := h.new_entry
  have hne := h.old_ne_new (hsingle ▸ List.mem_singleton_self old)
  rw [h.converges_iff_prevails hnew, hsingle, h.prevails_iff_of_single hne hver hfile]

/-- **When the tracker converges.**  In any repository the published blob is served exactly
when it prevails over the blobs of its name; for a port with one published blob that is a
condition on the two versions; and for dotted-numeric versions appending the revisions keeps
the order exactly when the new version does not continue the old one. -/
theorem tracker_converges_iff
    (h : TrackerRun unpack sha256 force alpine ports repo P A B N old gz repo') :
    (∀ new, indexEntry unpack sha256 (blobName P (withRevision A 0), gz) = some new →
      (Converges unpack sha256 alpine ports P A gz repo' ↔
        isBlobName (blobName P (withRevision A 0)) = true ∧
          Prevails (contenders unpack sha256 P (blobs repo)) new)) ∧
    (contenders unpack sha256 P (blobs repo) = [old] →
      (Converges unpack sha256 alpine ports P A gz repo' ↔
        isBlobName (blobName P (withRevision A 0)) = true ∧ ¬ ContinuesBelow A B N ∧
          ¬ (SameValueDiff A B ∧ blobName P (withRevision A 0) < old.file))) ∧
    ∀ a b n, DottedNumeric a → verBeats a b = some true →
      (verBeats (withRevision a 0) (withRevision b n) = some true ↔
        ¬ segments b <+: segments a) :=
  ⟨fun _ hnew => h.converges_iff_prevails hnew, h.converges_iff_of_single,
    fun _ _ n ha hab => verBeats_withRevision_iff n ha hab⟩

end Convergence

/-! ## Two releases of one port -/

/-- A blob reduced to its `.PKGINFO` text. -/
def plainUnpack (gz : Bytes) : Option (ℕ × Text) :=
  some (gz.length, gz.map fun b => Char.ofNat b.toNat)

/-- The `.PKGINFO` of a release of `less`. -/
def lessBlob (ver : Text) : Bytes :=
  ("pkgname = less\npkgver = ".toList ++ ver).map fun c => UInt8.ofNat c.toNat

/-- A repository with one release of `less`. -/
def lessRepo (ver : Text) : RepoDir := AList.singleton (blobName "less".toList ver) (lessBlob ver)

/-- The index entry of that release, with an empty hash. -/
def lessEntry (ver : Text) : IndexEntry where
  name := "less".toList
  ver := ver
  desc := []
  deps := []
  rb := (lessBlob ver).length
  zb := (lessBlob ver).length
  bs := []
  file := blobName "less".toList ver

/-- The repository after `A-r0` was published next to `B-rN`. -/
def lessRepoNext (A B : Text) (N : ℕ) : RepoDir :=
  (lessRepo (withRevision B N)).insert (blobName "less".toList (withRevision A 0))
    (lessBlob (withRevision A 0))

private theorem blobs_lessRepo {ver : Text}
    (hblob : isBlobName (blobName "less".toList ver) = true) :
    blobs (lessRepo ver) = [(blobName "less".toList ver, lessBlob ver)] := by
  have hfilter : ((lessRepo ver).entries.map fun e => (e.1, e.2)).filter (fun b => isBlobName b.1)
      = [(blobName "less".toList ver, lessBlob ver)] :=
    List.filter_cons_of_pos hblob
  rw [blobs, hfilter, List.mergeSort_singleton]

/-- The tracker follows Alpine from `B` to `A` once both blobs can be read back. -/
theorem lessRun {A B : Text} {N : ℕ}
    (hold : indexEntry plainUnpack (fun _ => [])
      (blobName "less".toList (withRevision B N), lessBlob (withRevision B N))
        = some (lessEntry (withRevision B N)))
    (hnew : pkginfoFromBlob plainUnpack (lessBlob (withRevision A 0))
      = some (lessEntry (withRevision A 0)).toPkgInfo)
    (hblob : isBlobName (blobName "less".toList (withRevision B N)) = true)
    (hfresh : blobName "less".toList (withRevision A 0) ≠ blobName "less".toList (withRevision B N))
    (hbehind : verBeats A B = some true) :
    TrackerRun plainUnpack (fun _ => []) [] (fun _ => some (withRevision A 3)) ["less".toList]
      (lessRepo (withRevision B N)) "less".toList A B N (lessEntry (withRevision B N))
      (lessBlob (withRevision A 0)) (lessRepoNext A B N) ∧
    contenders plainUnpack (fun _ => []) "less".toList (blobs (lessRepo (withRevision B N)))
      = [lessEntry (withRevision B N)] := by
  refine ⟨⟨?_, rfl, by decide, ⟨_, hnew, rfl, rfl⟩, ?_⟩, ?_⟩
  · refine ⟨(∅ : ByName).insert "less".toList (lessEntry (withRevision B N)), ?_,
      AList.lookup_insert _, [("less".toList, A)], ?_, List.mem_singleton_self _⟩
    · rw [reindex, blobs_lessRepo hblob, List.foldlM_cons, reindexStep, hold]
      rfl
    · have hport : oraclePort [] (fun _ => some (withRevision A 3))
          (ourVersions ((∅ : ByName).insert "less".toList (lessEntry (withRevision B N))))
          "less".toList = some [("less".toList, A)] := by
        have hours : ourVersions ((∅ : ByName).insert "less".toList (lessEntry (withRevision B N)))
            "less".toList = some (withRevision B N) := by
          rw [ourVersions, AList.lookup_insert]
          rfl
        rw [oraclePort, if_neg (by decide), hours]
        simp only [Option.getD_some, upstream_withRevision]
        rw [if_neg (by decide), hbehind]
        rfl
      rw [oracle, List.mapM_cons, hport]
      rfl
  · have hnone : (lessRepo (withRevision B N)).lookup (blobName "less".toList (withRevision A 0))
        = none := by
      rw [AList.lookup_eq_none, lessRepo, AList.mem_keys, AList.keys_singleton,
        List.mem_singleton]
      exact hfresh
    rw [publish, hnone]
    rfl
  · rw [blobs_lessRepo hblob, contenders_cons _ _ hold]
    rfl

/-- A release that changes the last segment is served. -/
theorem tracker_converges_iff_less :
    Converges plainUnpack (fun _ => []) (fun _ => some (withRevision "609".toList 3))
      ["less".toList] "less".toList "609".toList (lessBlob (withRevision "609".toList 0))
      (lessRepoNext "609".toList "608".toList 2) := by
  obtain ⟨hrun, hsingle⟩ := lessRun (A := "609".toList) (B := "608".toList) (N := 2) rfl rfl
    (by decide) (by decide) (by decide)
  refine ((tracker_converges_iff hrun).2.1 hsingle).mpr ⟨by decide, ?_, ?_⟩
  · rintro ⟨s, rest, hext, -⟩
    have hnew : segments "609".toList = ["609".toList] := by decide
    have hold : segments "608".toList = ["608".toList] := by decide
    rw [hnew, hold] at hext
    simp at hext
  · rintro ⟨-, hlt⟩
    revert hlt
    decide

/-- Alpine's `608.1` after our `608-r2`: the bump is published and never served, so every
later run of the oracle publishes it again. -/
theorem tracker_loops_less :
    verBeats "608.1".toList "608".toList = some true ∧
    TrackerRun plainUnpack (fun _ => []) [] (fun _ => some (withRevision "608.1".toList 3))
      ["less".toList] (lessRepo (withRevision "608".toList 2)) "less".toList "608.1".toList
      "608".toList 2 (lessEntry (withRevision "608".toList 2))
      (lessBlob (withRevision "608.1".toList 0)) (lessRepoNext "608.1".toList "608".toList 2) ∧
    ¬ Converges plainUnpack (fun _ => []) (fun _ => some (withRevision "608.1".toList 3))
      ["less".toList] "less".toList "608.1".toList (lessBlob (withRevision "608.1".toList 0))
      (lessRepoNext "608.1".toList "608".toList 2) ∧
    verBeats (withRevision "608.1".toList 0) (withRevision "608".toList 2) = some false := by
  obtain ⟨hrun, hsingle⟩ := lessRun (A := "608.1".toList) (B := "608".toList) (N := 2) rfl rfl
    (by decide) (by decide) (by decide)
  refine ⟨by decide, hrun, fun hconv => ?_, by decide⟩
  obtain ⟨-, hnot, -⟩ := (hrun.converges_iff_of_single hsingle).mp hconv
  exact hnot ⟨"1".toList, [], by decide, by decide⟩

end OsMoap.Pack
