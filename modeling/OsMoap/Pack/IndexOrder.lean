import OsMoap.Pack.Tracker

/-!
# The Highest Version

The index is meant to carry, for each name, the highest version among its blobs.  `reindex`
finds it with a left fold and a pairwise comparison, which needs more than any two versions
being comparable: with `vercmp` the versions `10`, `9` and `1a` beat each other in a circle,
and `01` and `1` beat each other.

Where some version of a name is beaten by no other, every visiting order ends at a version
that compares equal to it (`Lib.holderAfter_favourite`); where every version is beaten, no
order can be right.
-/

namespace OsMoap.Pack

open OsMoap.Lib

variable {unpack : Bytes → Option (ℕ × Text)} {sha256 : Bytes → Text}

/-! ## Visiting orders -/

/-- The loop of `reindex` over blobs in a given order. -/
def reindexIn (unpack : Bytes → Option (ℕ × Text)) (sha256 : Bytes → Text)
    (order : List (Text × Bytes)) : Option ByName :=
  order.foldlM (reindexStep unpack sha256) ∅

/-- `reindex` visits the blobs in file-name order. -/
theorem reindex_eq_reindexIn (repo : RepoDir) :
    reindex unpack sha256 repo = reindexIn unpack sha256 (blobs repo) := rfl

theorem lookup_reindexIn {order : List (Text × Bytes)} {index : ByName}
    (h : reindexIn unpack sha256 order = some index) (P : Text) :
    holderAfter entryBeats none (contenders unpack sha256 P order) = some (index.lookup P) := by
  have hfold := foldlM_reindexStep_lookup h P
  rwa [AList.lookup_empty] at hfold

theorem contenders_perm {bs bs' : List (Text × Bytes)} (h : bs.Perm bs') (P : Text) :
    (contenders unpack sha256 P bs).Perm (contenders unpack sha256 P bs') :=
  (h.filterMap _).filter _

/-- No version among the entries compares higher. -/
def Highest (es : List IndexEntry) (e : IndexEntry) : Prop :=
  ∀ e' ∈ es, ∃ c : ℤ, c ≤ 0 ∧ vercmp e'.ver e.ver = some c

/-- Whatever the visiting order, the index carries a highest version of each name, and two
orders carry versions that compare equal. -/
structure CarriesHighest (unpack : Bytes → Option (ℕ × Text)) (sha256 : Bytes → Text)
    (bs : List (Text × Bytes)) : Prop where
  highest : ∀ order, order.Perm bs → ∃ index, reindexIn unpack sha256 order = some index ∧
    ∀ P, contenders unpack sha256 P bs ≠ [] → ∃ e ∈ contenders unpack sha256 P bs,
      index.lookup P = some e ∧ Highest (contenders unpack sha256 P bs) e
  agree : ∀ order order', order.Perm bs → order'.Perm bs → ∀ index index',
    reindexIn unpack sha256 order = some index → reindexIn unpack sha256 order' = some index' →
    ∀ P e e', index.lookup P = some e → index'.lookup P = some e' →
      vercmp e.ver e'.ver = some 0

/-- Beaten by none of the entries. -/
def Unbeaten (es : List IndexEntry) (e : IndexEntry) : Prop :=
  ∀ e' ∈ es, vercmp e'.ver e.ver ≠ some 1

/-- Any two versions can be compared, and one of them is beaten by none. -/
def HasUnbeaten (es : List IndexEntry) : Prop :=
  (∀ e ∈ es, ∀ e' ∈ es, (vercmp e.ver e'.ver).isSome) ∧ ∃ e ∈ es, Unbeaten es e

/-! ## From an unbeaten version to every order -/

theorem highest_of_unbeaten {es : List IndexEntry} (htotal : ∀ e ∈ es, ∀ e' ∈ es,
    (vercmp e.ver e'.ver).isSome) {e : IndexEntry} (he : e ∈ es) (h : Unbeaten es e) :
    Highest es e := by
  intro e' he'
  obtain ⟨c, hc⟩ := Option.isSome_iff_exists.mp (htotal e' he' e he)
  refine ⟨c, ?_, hc⟩
  rcases vercmp_cases hc with rfl | rfl | rfl
  · decide
  · decide
  · exact absurd hc (h e' he')

/-- Two unbeaten versions compare equal. -/
theorem vercmp_of_unbeaten {es : List IndexEntry} (htotal : ∀ e ∈ es, ∀ e' ∈ es,
    (vercmp e.ver e'.ver).isSome) {e e' : IndexEntry} (he : e ∈ es) (he' : e' ∈ es)
    (h : Unbeaten es e) (h' : Unbeaten es e') : vercmp e.ver e'.ver = some 0 := by
  obtain ⟨c, hc⟩ := Option.isSome_iff_exists.mp (htotal e he e' he')
  rcases vercmp_cases hc with rfl | rfl | rfl
  · exact absurd (vercmp_of_swap_lost hc) (h e' he')
  · exact hc
  · exact absurd hc (h' e he)

/-- Each visiting order of comparable versions ends at an unbeaten one, if there is any. -/
theorem holderAfter_unbeaten {es : List IndexEntry} (h : HasUnbeaten es) :
    ∃ c ∈ es, Unbeaten es c ∧ holderAfter entryBeats none es = some (some c) := by
  obtain ⟨htotal, u, hu, hun⟩ := h
  have hsome : ∀ x ∈ es, ∀ y ∈ es, ∃ c, vercmp x.ver y.ver = some c := fun x hx y hy =>
    Option.isSome_iff_exists.mp (htotal x hx y hy)
  refine holderAfter_favourite entryBeats ?_ ?_ ?_ (fun y hy => hy) (by simp)
    (Or.inr ⟨u, hu, hun⟩)
  · intro x hx y hy
    obtain ⟨c, hc⟩ := hsome x hx y hy
    exact ⟨_, by rw [entryBeats, verBeats, hc, Option.map_some]⟩
  · -- what does not lose to an unbeaten version compares equal to it and is unbeaten too
    intro x hx y hy hfx hfy
    obtain ⟨c, hc⟩ := hsome y hy x hx
    rw [entryBeats, verBeats_eq_true_iff]
    rcases vercmp_cases hc with rfl | rfl | rfl
    · exact vercmp_of_swap_lost hc
    · refine absurd (fun z hz => ?_) hfy
      rw [vercmp_congr_right hc]
      exact hfx z hz
    · exact absurd hc (hfx y hy)
  · intro x hx y hy hfx _
    obtain ⟨c, hc⟩ := hsome y hy x hx
    have hc1 : c ≠ 1 := fun h1 => hfx y hy (h1 ▸ hc)
    rw [entryBeats, verBeats, hc, Option.map_some]
    rcases vercmp_cases hc with rfl | rfl | rfl
    · rfl
    · rfl
    · exact absurd rfl hc1

theorem HasUnbeaten.of_perm {es es' : List IndexEntry} (hperm : es.Perm es')
    (h : HasUnbeaten es) : HasUnbeaten es' := by
  obtain ⟨htotal, u, hu, hun⟩ := h
  refine ⟨fun e he e' he' => htotal e (hperm.mem_iff.mpr he) e' (hperm.mem_iff.mpr he'), u,
    hperm.mem_iff.mp hu, fun e' he' => hun e' (hperm.mem_iff.mpr he')⟩

/-- Where each name has an unbeaten version, an order ends with one for each name. -/
theorem reindexIn_unbeaten {bs order : List (Text × Bytes)}
    (hread : ∀ b ∈ bs, ∃ e, indexEntry unpack sha256 b = some e) (hperm : order.Perm bs)
    (h : ∀ P, contenders unpack sha256 P bs ≠ [] → HasUnbeaten (contenders unpack sha256 P bs)) :
    ∃ index, reindexIn unpack sha256 order = some index ∧
      ∀ P, contenders unpack sha256 P bs ≠ [] → ∃ e ∈ contenders unpack sha256 P bs,
        index.lookup P = some e ∧ Unbeaten (contenders unpack sha256 P bs) e := by
  have hends : ∀ P, contenders unpack sha256 P bs ≠ [] → ∃ c ∈ contenders unpack sha256 P bs,
      Unbeaten (contenders unpack sha256 P bs) c ∧
      holderAfter entryBeats none (contenders unpack sha256 P order) = some (some c) := by
    intro P hP
    have hcs : (contenders unpack sha256 P bs).Perm (contenders unpack sha256 P order) :=
      contenders_perm hperm.symm P
    obtain ⟨c, hc, hun, hend⟩ := holderAfter_unbeaten ((h P hP).of_perm hcs)
    exact ⟨c, hcs.mem_iff.mpr hc, fun e' he' => hun e' (hcs.mem_iff.mp he'), hend⟩
  -- no comparison raises, so the fold over the blobs gives an index
  have hfold : ∀ P, ∃ holder, holderAfter entryBeats ((∅ : ByName).lookup P)
      (contenders unpack sha256 P order) = some holder := by
    intro P
    rw [AList.lookup_empty]
    by_cases hP : contenders unpack sha256 P bs = []
    · have hnil : contenders unpack sha256 P order = [] :=
        List.Perm.eq_nil (hP ▸ contenders_perm hperm P)
      exact ⟨none, by rw [hnil, holderAfter_nil]⟩
    · obtain ⟨c, -, -, hend⟩ := hends P hP
      exact ⟨some c, hend⟩
  obtain ⟨index, hindex⟩ :=
    foldlM_reindexStep_isSome (fun b hb => hread b (hperm.mem_iff.mp hb)) hfold
  refine ⟨index, hindex, fun P hP => ?_⟩
  obtain ⟨c, hc, hun, hend⟩ := hends P hP
  have hlookup := lookup_reindexIn hindex P
  rw [hend, Option.some.injEq] at hlookup
  exact ⟨c, hc, hlookup.symm, hun⟩

/-! ## From every order to an unbeaten version -/

/-- Two blobs of a name are compared in the order that visits them first. -/
theorem comparable_of_carriesHighest {bs : List (Text × Bytes)}
    (h : CarriesHighest unpack sha256 bs) {P : Text} {e e' : IndexEntry}
    (he : e ∈ contenders unpack sha256 P bs) (he' : e' ∈ contenders unpack sha256 P bs) :
    (vercmp e.ver e'.ver).isSome := by
  by_cases hsame : e = e'
  · rw [hsame, vercmp_self]
    rfl
  obtain ⟨hP, b, hb, hbe, -⟩ := mem_contenders he
  obtain ⟨hP', b', hb', hbe', -⟩ := mem_contenders he'
  have hne : b ≠ b' := by
    rintro rfl
    exact hsame (Option.some.inj (hbe.symm.trans hbe'))
  -- `b'` is visited first, then `b`
  have horder : (b' :: b :: (bs.erase b').erase b).Perm bs := by
    have hmem : b ∈ bs.erase b' := (List.mem_erase_of_ne hne).mpr hb
    exact (((List.perm_cons_erase hmem).symm).cons b').trans (List.perm_cons_erase hb').symm
  obtain ⟨index, hindex, -⟩ := h.highest _ horder
  have hlookup := lookup_reindexIn hindex P
  rw [contenders_cons P _ hbe', contenders_cons P _ hbe, if_pos hP', if_pos hP,
    List.singleton_append, List.singleton_append, holderAfter_cons] at hlookup
  simp only [challenge, Option.bind_some] at hlookup
  rw [holderAfter_cons, Option.bind_eq_some_iff] at hlookup
  obtain ⟨holder, hchal, -⟩ := hlookup
  simp only [challenge, Option.map_eq_some_iff] at hchal
  obtain ⟨won, hwon, -⟩ := hchal
  rw [entryBeats, verBeats, Option.map_eq_some_iff] at hwon
  obtain ⟨c, hc, -⟩ := hwon
  rw [hc]
  rfl

/-- What every order carries is beaten by none. -/
theorem hasUnbeaten_of_carriesHighest {bs : List (Text × Bytes)}
    (h : CarriesHighest unpack sha256 bs) {P : Text} (hP : contenders unpack sha256 P bs ≠ []) :
    HasUnbeaten (contenders unpack sha256 P bs) := by
  refine ⟨fun e he e' he' => comparable_of_carriesHighest h he he', ?_⟩
  obtain ⟨index, -, hindex⟩ := h.highest bs (List.Perm.refl bs)
  obtain ⟨e, he, -, hhigh⟩ := hindex P hP
  refine ⟨e, he, fun e' he' hbeat => ?_⟩
  obtain ⟨c, hc, hcmp⟩ := hhigh e' he'
  rw [hbeat, Option.some.injEq] at hcmp
  omega

/-- **The index carries the highest version** of each name, whatever the visiting order,
exactly when any two versions of a name can be compared and one of them is beaten by none. -/
theorem carriesHighest_iff (bs : List (Text × Bytes))
    (hread : ∀ b ∈ bs, ∃ e, indexEntry unpack sha256 b = some e) :
    CarriesHighest unpack sha256 bs ↔
      ∀ P, contenders unpack sha256 P bs ≠ [] → HasUnbeaten (contenders unpack sha256 P bs) := by
  constructor
  · intro h P hP
    exact hasUnbeaten_of_carriesHighest h hP
  · intro h
    refine ⟨fun order hperm => ?_, ?_⟩
    · obtain ⟨index, hindex, hun⟩ := reindexIn_unbeaten hread hperm h
      refine ⟨index, hindex, fun P hP => ?_⟩
      obtain ⟨e, he, hlook, hbest⟩ := hun P hP
      exact ⟨e, he, hlook, highest_of_unbeaten (h P hP).1 he hbest⟩
    · intro order order' hperm hperm' index index' hindex hindex' P e e' hl hl'
      have hmem : e ∈ contenders unpack sha256 P order := by
        have hlook := lookup_reindexIn hindex P
        rw [hl] at hlook
        simpa using mem_of_holderAfter entryBeats hlook
      -- an entry that is served is one of the contenders
      have hP : contenders unpack sha256 P bs ≠ [] := by
        intro hnil
        have := (contenders_perm hperm P).mem_iff.mp hmem
        rw [hnil] at this
        simp at this
      obtain ⟨i, hi, hun⟩ := reindexIn_unbeaten hread hperm h
      obtain ⟨i', hi', hun'⟩ := reindexIn_unbeaten hread hperm' h
      obtain rfl := Option.some.inj (hindex.symm.trans hi)
      obtain rfl := Option.some.inj (hindex'.symm.trans hi')
      obtain ⟨u, hu, hlu, hbest⟩ := hun P hP
      obtain ⟨u', hu', hlu', hbest'⟩ := hun' P hP
      obtain rfl := Option.some.inj (hl.symm.trans hlu)
      obtain rfl := Option.some.inj (hl'.symm.trans hlu')
      exact vercmp_of_unbeaten (h P hP).1 hu hu' hbest hbest'

/-! ## Releases of `less` -/

/-- The blobs of some releases. -/
def lessReleases (vers : List Text) : List (Text × Bytes) :=
  vers.map fun v => (blobName "less".toList v, lessBlob v)

theorem contenders_lessReleases {vers : List Text}
    (hread : ∀ v ∈ vers, indexEntry plainUnpack (fun _ => []) (blobName "less".toList v, lessBlob v)
      = some (lessEntry v)) (P : Text) :
    contenders plainUnpack (fun _ => []) P (lessReleases vers)
      = if P = "less".toList then vers.map lessEntry else [] := by
  have hentries : (lessReleases vers).filterMap (indexEntry plainUnpack (fun _ => []))
      = vers.map lessEntry := by
    rw [lessReleases, List.filterMap_map]
    exact List.filterMap_eq_map_iff_forall_eq_some.mpr hread
  rw [contenders, hentries]
  by_cases hP : P = "less".toList
  · rw [if_pos hP, hP]
    refine List.filter_eq_self.mpr fun e he => ?_
    obtain ⟨v, -, rfl⟩ := List.mem_map.mp he
    rfl
  · rw [if_neg hP]
    refine List.filter_eq_nil_iff.mpr fun e he => ?_
    obtain ⟨v, -, rfl⟩ := List.mem_map.mp he
    rw [decide_eq_true_eq]
    exact fun h => hP h.symm

theorem readable_lessReleases {vers : List Text}
    (hread : ∀ v ∈ vers, indexEntry plainUnpack (fun _ => []) (blobName "less".toList v, lessBlob v)
      = some (lessEntry v)) :
    ∀ b ∈ lessReleases vers, ∃ e, indexEntry plainUnpack (fun _ => []) b = some e := by
  intro b hb
  obtain ⟨v, hv, rfl⟩ := List.mem_map.mp hb
  exact ⟨lessEntry v, hread v hv⟩

/-- Two releases that differ in a numeral. -/
theorem carriesHighest_less :
    CarriesHighest plainUnpack (fun _ => [])
      (lessReleases ["608-r0".toList, "609-r0".toList]) := by
  have hread : ∀ v ∈ ["608-r0".toList, "609-r0".toList],
      indexEntry plainUnpack (fun _ => []) (blobName "less".toList v, lessBlob v)
        = some (lessEntry v) := by
    intro v hv
    rcases List.mem_pair.mp hv with rfl | rfl <;> rfl
  refine (carriesHighest_iff _ (readable_lessReleases hread)).mpr fun P hP => ?_
  rw [contenders_lessReleases hread] at hP ⊢
  split_ifs at hP ⊢ with hless
  · refine ⟨?_, lessEntry "609-r0".toList, by simp, ?_⟩
    · intro e he e' he'
      simp only [List.map_cons, List.map_nil, List.mem_cons, List.not_mem_nil, or_false] at he he'
      rcases he with rfl | rfl <;> rcases he' with rfl | rfl <;> decide
    · intro e he
      simp only [List.map_cons, List.map_nil, List.mem_cons, List.not_mem_nil, or_false] at he
      rcases he with rfl | rfl <;> decide
  · exact absurd rfl hP

/-- `10` beats `9`, `9` beats `1a` and `1a` beats `10`: whichever version the index carries,
another beats it.  `01` and `1` beat each other. -/
theorem highest_missed_less :
    (∀ b ∈ lessReleases ["10".toList, "9".toList, "1a".toList],
      ∃ e, indexEntry plainUnpack (fun _ => []) b = some e) ∧
    ¬ CarriesHighest plainUnpack (fun _ => [])
      (lessReleases ["10".toList, "9".toList, "1a".toList]) ∧
    vercmp "01".toList "1".toList = some 1 ∧ vercmp "1".toList "01".toList = some 1 := by
  have hread : ∀ v ∈ ["10".toList, "9".toList, "1a".toList],
      indexEntry plainUnpack (fun _ => []) (blobName "less".toList v, lessBlob v)
        = some (lessEntry v) := by
    intro v hv
    simp only [List.mem_cons, List.not_mem_nil, or_false] at hv
    rcases hv with rfl | rfl | rfl <;> rfl
  refine ⟨readable_lessReleases hread, fun h => ?_, by decide, by decide⟩
  have hcs := contenders_lessReleases hread "less".toList
  rw [if_pos rfl] at hcs
  have hne : contenders plainUnpack (fun _ => []) "less".toList
      (lessReleases ["10".toList, "9".toList, "1a".toList]) ≠ [] := by
    rw [hcs]
    simp
  have hun := hasUnbeaten_of_carriesHighest h hne
  rw [hcs] at hun
  obtain ⟨-, e, he, hbest⟩ := hun
  simp only [List.map_cons, List.map_nil, List.mem_cons, List.not_mem_nil, or_false] at he
  rcases he with rfl | rfl | rfl
  · exact hbest (lessEntry "1a".toList) (by simp) (by decide)
  · exact hbest (lessEntry "10".toList) (by simp) (by decide)
  · exact hbest (lessEntry "9".toList) (by simp) (by decide)

end OsMoap.Pack
