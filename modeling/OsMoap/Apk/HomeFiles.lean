import OsMoap.Apk.RoundTrip
import Mathlib.Data.List.Flatten

/-!
# Packages and Home Directories

`stage_entries` refuses a file whose path starts with `home/`.  What `tar_extract` writes is
decided by the name field alone, which of a long path holds only what follows the slash it was
split at: the entry as it is `seen`.  A path that is refused by neither program can therefore
end up under `/home`.

`homeSafe_iff` says for which stages extraction keeps out of `/home`, whatever state it starts
in.  Files of `2 ^ 32 - 1` bytes and more are left out: the reader loses its place in the
archive behind them.
-/

namespace OsMoap.Apk

open OsMoap.Lib OsMoap.Pack

/-! ## Entries as the reader sees them -/

/-- An entry with the half of its name that is in the name field. -/
def seen (e : TarEntry) : TarEntry := (((ustarName e.1).map Prod.snd).getD e.1, e.2)

theorem seen_fst {e : TarEntry} {pfx name : Text} (h : ustarName e.1 = some (pfx, name)) :
    (seen e).1 = name := by
  rw [seen, h]
  rfl

theorem isArc_seen {e : TarEntry} {block : Bytes} (harc : IsArc e.1) (h : addfile e = some block) :
    IsArc (seen e).1 ∧ (utf8 (seen e).1).length ≤ 100 := by
  obtain ⟨pfx, name, -, hname, -, -⟩ := addfile_spec h
  obtain ⟨hisArc, hlen, -, -⟩ := nameField_spec harc hname
  rw [seen_fst hname]
  exact ⟨hisArc, hlen⟩

/-- A size that 32 bits hold, with one to spare. -/
def SmallFile (e : TarEntry) : Prop := e.2.length + 1 < 2 ^ 32

instance (e : TarEntry) : Decidable (SmallFile e) := inferInstanceAs (Decidable (_ < _))

theorem tarStep_seen {content rest : Bytes} {off : ℕ} {e : TarEntry} {block : Bytes}
    (harc : IsArc e.1) (hsmall : SmallFile e) (hblock : addfile e = some block)
    (hat : content.drop off = block ++ rest) :
    tarStep content off = if (seen e).1 = pkginfoName then .pkginfo (cstr e.2) (off + block.length)
      else .member (utf8 (seen e).1) e.2 (off + block.length) := by
  obtain ⟨pfx, name, -, hname, -, -⟩ := addfile_spec hblock
  have hlt : e.2.length + 1 < 2 ^ 32 := hsmall
  have hmod : e.2.length % 2 ^ 32 = e.2.length := Nat.mod_eq_of_lt (by omega)
  rw [tarStep_block harc hname hblock hat, hmod, if_neg (by omega), List.take_length,
    seen_fst hname, length_addfile hblock]
  simp only [Nat.add_assoc]

/-- **The members of a packed archive** are its entries as they are seen. -/
theorem membersFrom_blocks {content : Bytes} {es : List TarEntry} {blocks : List Bytes} {n : ℕ}
    (harcs : ∀ e ∈ es, IsArc e.1) (hsmall : ∀ e ∈ es, SmallFile e)
    (hblocks : es.mapM addfile = some blocks) (hn : 512 ≤ n) (fuel : ℕ) {off : ℕ}
    (hat : content.drop off = blocks.flatten ++ List.replicate n 0) :
    membersFrom content (es.length + (fuel + 1)) off = (membersOf (es.map seen), true) := by
  induction es generalizing off blocks with
  | nil =>
    obtain rfl : blocks = [] := by simpa using hblocks.symm
    rw [List.length_nil, Nat.zero_add, membersFrom, tarStep_zeros hn hat]
    rfl
  | cons e es ih =>
    rw [List.mapM_cons] at hblocks
    simp only [Option.bind_eq_bind, Option.bind_eq_some_iff, Option.pure_def,
      Option.some.injEq] at hblocks
    obtain ⟨block, hblock, blocks, hblocks, rfl⟩ := hblocks
    rw [List.flatten_cons, List.append_assoc] at hat
    have hstep := tarStep_seen (harcs e List.mem_cons_self) (hsmall e List.mem_cons_self) hblock hat
    have hat' : content.drop (off + block.length) = blocks.flatten ++ List.replicate n 0 := by
      rw [← List.drop_drop, hat, List.drop_left' rfl]
    have hrest := ih (fun e' he' => harcs e' (List.mem_cons_of_mem _ he'))
      (fun e' he' => hsmall e' (List.mem_cons_of_mem _ he')) hblocks hat'
    rw [List.length_cons, Nat.add_right_comm, membersFrom, hstep, List.map_cons]
    by_cases hpi : (seen e).1 = pkginfoName
    · rw [if_pos hpi, membersOf_cons_pkginfo hpi]
      exact hrest
    · rw [if_neg hpi, membersOf_cons hpi]
      simp only [hrest]
      rfl

theorem membersFrom_buildTar {entries : List TarEntry} {tar : Bytes}
    (harcs : ∀ e ∈ entries, IsArc e.1) (hsmall : ∀ e ∈ entries, SmallFile e)
    (htar : buildTar entries = some tar) :
    membersFrom tar (tar.length / 512 + 1) 0
      = (membersOf ((sortEntries entries).map seen), true) := by
  obtain ⟨blocks, n, hblocks, hn, hshape⟩ := buildTar_spec htar
  obtain ⟨fuel, hfuel⟩ : ∃ fuel, tar.length / 512 + 1
      = (sortEntries entries).length + (fuel + 1) := by
    have hcount := length_le_flatten hblocks
    have hlen : blocks.flatten.length ≤ tar.length := by
      rw [hshape]
      simp
    exact ⟨tar.length / 512 - (sortEntries entries).length, by omega⟩
  rw [hfuel]
  apply membersFrom_blocks (fun e he => harcs e (mem_sortEntries.mp he))
    (fun e he => hsmall e (mem_sortEntries.mp he)) hblocks hn fuel
  rw [List.drop_zero, hshape]

/-- A member among the first ones comes from an entry, and the members up to that entry are
among the first ones too. -/
theorem entry_of_mem_prefix {es : List TarEntry} {ms : List (Bytes × Bytes)} {m : Bytes × Bytes}
    (hpre : ms <+: membersOf (es.map seen)) (hm : m ∈ ms) :
    ∃ pre e post, es = pre ++ e :: post ∧ (seen e).1 ≠ pkginfoName ∧
      m = (utf8 (seen e).1, e.2) ∧ membersOf ((pre ++ [e]).map seen) ⊆ ms := by
  induction es generalizing ms with
  | nil =>
    rw [List.prefix_nil.mp hpre] at hm
    simp at hm
  | cons e es ih =>
    rw [List.map_cons] at hpre
    by_cases hpi : (seen e).1 = pkginfoName
    · rw [membersOf_cons_pkginfo hpi] at hpre
      obtain ⟨pre, e', post, rfl, hne, rfl, hsub⟩ := ih hpre hm
      refine ⟨e :: pre, e', post, rfl, hne, rfl, ?_⟩
      rwa [List.cons_append, List.map_cons, membersOf_cons_pkginfo hpi]
    · rw [membersOf_cons hpi] at hpre
      obtain ⟨first, ms, rfl⟩ := List.exists_cons_of_ne_nil (List.ne_nil_of_mem hm)
      obtain ⟨rfl, hpre'⟩ := List.cons_prefix_cons.mp hpre
      rcases List.mem_cons.mp hm with rfl | hm
      · refine ⟨[], e, es, rfl, hpi, rfl, ?_⟩
        rw [List.nil_append, List.map_singleton, membersOf_cons hpi]
        intro x hx
        exact List.mem_cons.mpr (Or.inl (List.mem_singleton.mp hx))
      · obtain ⟨pre, e', post, rfl, hne, rfl, hsub⟩ := ih hpre' hm
        refine ⟨e :: pre, e', post, rfl, hne, rfl, ?_⟩
        rw [List.cons_append, List.map_cons, membersOf_cons hpi]
        exact List.cons_subset_cons _ hsub

/-! ## What a run has written -/

/-- The first members that can be written, without touching the archive, are there when the run
is over, however it ends. -/
theorem tarLoop_writes {tar : FileRef Bytes} {content : Bytes} {fuel off : ℕ} {s : State}
    {files : Bytes} {pkginfo : Option Bytes} {t : FileTree Bytes Bytes}
    {first rest : List (Bytes × Bytes)} (hnow : archiveNow tar s = content)
    (hms : (membersFrom content fuel off).1 = first ++ rest)
    (hno : ∀ m ∈ first, keyOf (absPath m.1) ≠ some tar.key)
    (ht : writeMembers s.tree first = some t) :
    t.Le (tarLoop tar fuel s off files pkginfo).2.tree := by
  -- whatever the loop does afterwards, it takes nothing away
  have hgrow : ∀ {fuel off : ℕ} {s : State} {files : Bytes} {pkginfo : Option Bytes},
      s.tree.Le (tarLoop tar fuel s off files pkginfo).2.tree := by
    intro fuel off s files pkginfo
    induction fuel generalizing s off files pkginfo with
    | zero => exact FileTree.Le.refl _
    | succ fuel ih =>
      rw [tarLoop]
      split
      · exact FileTree.Le.refl _
      · exact FileTree.Le.refl _
      · exact ih
      · exact ih
      · split
        · rename_i hex
          exact (extractMember_spec hex).1
        · rename_i hex
          exact (extractMember_spec hex).1.trans ih
  induction fuel generalizing s off files pkginfo first with
  | zero =>
    obtain ⟨rfl, -⟩ := List.append_eq_nil_iff.mp (hms.symm.trans rfl)
    obtain rfl : s.tree = t := Option.some.inj ht
    exact hgrow
  | succ fuel ih =>
    cases first with
    | nil =>
      obtain rfl : s.tree = t := Option.some.inj ht
      exact hgrow
    | cons m first =>
      rw [membersFrom] at hms
      rw [tarLoop, hnow]
      cases hstep : tarStep content off with
      | stop => simp [hstep] at hms
      | truncated => simp [hstep] at hms
      | skip next =>
        rw [hstep] at hms
        exact ih hnow hms hno ht
      | pkginfo data next =>
        rw [hstep] at hms
        exact ih hnow hms hno ht
      | member name data next =>
        rw [hstep] at hms
        obtain ⟨rfl, hms'⟩ := List.cons.inj hms
        rw [writeMembers] at ht
        obtain ⟨t1, hput, ht⟩ := Option.bind_eq_some_iff.mp ht
        -- the member is not the archive, which therefore reads on unchanged
        have hnow' := archiveNow_of_put (hno _ List.mem_cons_self) hput
        simp only [extractMember_eq, hput]
        exact ih (hnow'.trans hnow) hms' (fun m hm => hno m (List.mem_cons_of_mem _ hm)) ht

/-! ## Keeping out of the home directories -/

/-- The place `/home` or one below it. -/
def HomeKey (k : List Bytes) : Prop := k.head? = some (utf8 "home".toList)

theorem homeKey_arcKey (arc : Text) : HomeKey (arcKey arc) ↔ underHome arc = true := by
  rw [HomeKey, arcKey, List.head?_map, underHome, decide_eq_true_iff]
  cases (arc.splitOn '/').head? with
  | none => simp
  | some c => rw [Option.map_some, Option.some.injEq, Option.some.injEq, utf8_injective.eq_iff]

/-- **Extraction keeps out of `/home`**: from whatever state it starts, and however it ends, no
file is there that was not there before. -/
def HomeSafe (tar : Bytes) : Prop :=
  ∀ tarpath ref s, fileRef tarpath = some ref → s.tree.read ref = some tar →
    ∀ k, HomeKey k → s.tree.file k = none → (tarExtract tarpath s).2.tree.file k = none

/-- One entry lies on the way to the other, as they are seen. -/
def Blocks (a b : TarEntry) : Prop :=
  (seen a).1 ≠ pkginfoName ∧ (seen b).1 ≠ pkginfoName ∧
    arcKey (seen a).1 <+: arcKey (seen b).1 ∧ arcKey (seen a).1 ≠ arcKey (seen b).1

/-- No entry is seen under `home`, unless two entries up to it cannot both be written. -/
def NoHomeSeen (es : List TarEntry) : Prop :=
  ∀ pre e post, es = pre ++ e :: post → underHome (seen e).1 = true →
    ∃ a ∈ pre ++ [e], ∃ b ∈ pre ++ [e], Blocks a b

/-- Two entries of which one lies on the way to the other cannot both be read. -/
theorem not_both_of_blocks {t : FileTree Bytes Bytes} {a b : TarEntry} (ha : IsArc (seen a).1)
    (hb : IsArc (seen b).1) (h : Blocks a b)
    (hreada : (readPath t (absPath (utf8 (seen a).1))).isSome)
    (hreadb : (readPath t (absPath (utf8 (seen b).1))).isSome) : False := by
  obtain ⟨-, -, hpre, hne⟩ := h
  obtain ⟨names, last, hkey, href, -⟩ := ref_of_isArc hb
  rw [readPath, href, Option.bind_some] at hreadb
  have hfits := FileTree.fits_of_read (FileTree.Le.refl t) hreadb
  rw [hkey] at hfits
  have hnil : arcKey (seen a).1 ≠ [] := by
    obtain ⟨cs, hcs, hnames, heq⟩ := ha
    rw [heq, arcKey, splitOn_joinSlash hcs hnames]
    simpa using hcs
  rw [readPath_arc ha, hfits.1 _ hpre hnil hne] at hreada
  simp at hreada

section Stages

variable {entries : List TarEntry} {tar : Bytes}

theorem isArc_seen_of_mem (harcs : ∀ e ∈ entries, IsArc e.1) (htar : buildTar entries = some tar)
    {e : TarEntry} (he : e ∈ sortEntries entries) :
    IsArc (seen e).1 ∧ (utf8 (seen e).1).length ≤ 100 := by
  obtain ⟨blocks, -, hblocks, -, -⟩ := buildTar_spec htar
  obtain ⟨pre, post, hes⟩ := List.append_of_mem he
  rw [hes] at hblocks
  obtain ⟨-, block, -, -, hblock, -⟩ := mapM_addfile_cons hblocks
  exact isArc_seen (harcs e (mem_sortEntries.mp he)) hblock

/-- No file under `home` is written where none is seen. -/
theorem homeSafe_of_noHomeSeen (harcs : ∀ e ∈ entries, IsArc e.1)
    (htar : buildTar entries = some tar) (hsmall : ∀ e ∈ entries, SmallFile e)
    (h : NoHomeSeen (sortEntries entries)) : HomeSafe tar := by
  intro tarpath ref s href hread k hk hnone
  obtain ⟨hrun, hnow⟩ := tarExtract_eq href hread
  rcases hout : tarLoop ref (tar.length / 512 + 1) s 0 [] none with ⟨r, s'⟩
  obtain ⟨ms, hpre, -, -, hfile, hreads, -⟩ := tarLoop_spec (Or.inl hnow) (by simp) hout
  rw [membersFrom_buildTar harcs hsmall htar] at hpre
  rw [hrun, hout, hfile]
  by_contra hsome
  -- a member was written at the place
  obtain ⟨m, hm, hmk⟩ : ∃ m ∈ ms, keyOf (absPath m.1) = some k := by
    by_contra hno
    push Not at hno
    rw [writeAll_of_forall_ne hno] at hsome
    exact hsome hnone
  obtain ⟨pre, e, post, hes, hne, rfl, hsub⟩ := entry_of_mem_prefix hpre hm
  have hin : ∀ a ∈ pre ++ [e], a ∈ sortEntries entries := by
    intro a ha
    rw [hes, ← List.singleton_append, ← List.append_assoc]
    exact List.mem_append_left _ ha
  have hisArc := fun {a} ha => (isArc_seen_of_mem harcs htar (hin a ha)).1
  rw [keyOf_arc (hisArc (by simp)), Option.some.injEq] at hmk
  rw [← hmk, homeKey_arcKey] at hk
  obtain ⟨a, ha, b, hb, hblocks⟩ := h pre e post hes hk
  have hread' : ∀ x ∈ pre ++ [e], (seen x).1 ≠ pkginfoName →
      (readPath s'.tree (absPath (utf8 (seen x).1))).isSome := by
    intro x hx hxne
    apply hreads (utf8 (seen x).1, x.2)
    apply hsub
    exact mem_membersOf.mpr ⟨seen x, List.mem_map_of_mem hx, hxne, rfl⟩
  exact not_both_of_blocks (hisArc ha) (hisArc hb) hblocks (hread' a ha hblocks.1)
    (hread' b hb hblocks.2.1)

/-- A component of an archive name is no longer than the name. -/
theorem length_le_of_mem_arcKey {arc : Text} {c : Bytes} (h : c ∈ arcKey arc) :
    c.length ≤ (utf8 arc).length := by
  obtain ⟨t, ht, rfl⟩ := List.mem_map.mp h
  exact ((sublist_of_mem_lines '/' ht).flatMap _).length_le

/-- A name that no member can have. -/
def freshName : Text := 'd' :: longName

/-- An entry seen under `home` is written where the archive lies out of the way, unless two
entries up to it cannot both be written. -/
theorem noHomeSeen_of_homeSafe (harcs : ∀ e ∈ entries, IsArc e.1)
    (htar : buildTar entries = some tar) (hsmall : ∀ e ∈ entries, SmallFile e)
    (h : HomeSafe tar) : NoHomeSeen (sortEntries entries) := by
  intro pre e post hes hhome
  by_contra hclear
  push Not at hclear
  have hin : ∀ a ∈ pre ++ [e], a ∈ sortEntries entries := by
    intro a ha
    rw [hes, ← List.singleton_append, ← List.append_assoc]
    exact List.mem_append_left _ ha
  have hisArc := fun {a} ha => (isArc_seen_of_mem harcs htar (hin a ha)).1
  have hne : (seen e).1 ≠ pkginfoName := by
    intro hpi
    rw [hpi] at hhome
    exact absurd hhome (by decide)
  -- no entry goes through the name of the archive
  have hfresh : ∀ a ∈ pre ++ [e], utf8 freshName ∉ arcKey (seen a).1 := by
    intro a ha hmem
    have hle := length_le_of_mem_arcKey hmem
    have hshort := (isArc_seen_of_mem harcs htar (hin a ha)).2
    have hlen : (utf8 freshName).length = 101 := by decide +kernel
    omega
  have hmap : ∀ a ∈ (pre ++ [e]).map seen, ∃ x ∈ pre ++ [e], seen x = a :=
    fun a ha => List.mem_map.mp ha
  obtain ⟨t, ht⟩ : ∃ t, writeMembers (archiveTree freshName tar)
      (membersOf ((pre ++ [e]).map seen)) = some t := by
    apply writeMembers_of_fits
    · intro a ha
      obtain ⟨x, hx, rfl⟩ := hmap a ha
      exact hisArc hx
    · refine List.pairwise_map.mpr (List.pairwise_of_forall_mem_list fun a ha b hb hane hbne => ?_)
      rintro (hp | hp)
      · by_contra hdiff
        exact hclear a ha b hb ⟨hane, hbne, hp, hdiff⟩
      · by_contra hdiff
        exact hclear b hb a ha ⟨hbne, hane, hp, fun heq => hdiff heq.symm⟩
    · intro a ha _
      obtain ⟨x, hx, rfl⟩ := hmap a ha
      apply fits_archiveTree
      intro hhead
      exact hfresh x hx (List.mem_of_mem_head? hhead)
  have hfileRef : fileRef (absPath (utf8 freshName)) = some (plainRef [] (utf8 freshName)) :=
    fileRef_archive (by decide)
  have hread := read_archiveTree freshName tar
  obtain ⟨hrun, hnow⟩ := @tarExtract_eq _ _ _ (archiveState freshName tar) hfileRef hread
  have hle : t.Le (tarExtract (absPath (utf8 freshName)) (archiveState freshName tar)).2.tree := by
    rw [hrun]
    apply @tarLoop_writes _ _ _ _ _ _ _ _ _ (membersOf (post.map seen)) hnow _ _ ht
    · rw [membersFrom_buildTar harcs hsmall htar, hes, ← membersOf_append, ← List.map_append,
        List.append_assoc, List.singleton_append]
    · intro m hm
      obtain ⟨a, ha, -, rfl⟩ := mem_membersOf.mp hm
      obtain ⟨x, hx, rfl⟩ := hmap a ha
      rw [keyOf_arc (hisArc hx), key_plainRef, List.nil_append, ne_eq, Option.some.injEq]
      intro heq
      exact hfresh x hx (by simp [heq])
  have hwritten : (t.file (arcKey (seen e).1)).isSome := by
    have hone : membersOf [seen e] = [(utf8 (seen e).1, e.2)] := membersOf_cons hne []
    rw [List.map_append, List.map_singleton, membersOf_append, hone, writeMembers_append] at ht
    obtain ⟨t1, -, ht⟩ := Option.bind_eq_some_iff.mp ht
    obtain ⟨-, hfile⟩ := writeMembers_spec ht
    rw [hfile, writeAll_cons (keyOf_arc (hisArc (by simp)))]
    simp [writeAll]
  have hnone : (archiveTree freshName tar).file (arcKey (seen e).1) = none := by
    rw [file_archiveTree, if_neg]
    intro heq
    exact hfresh e (by simp) (by simp [heq])
  have hstill := (hle (arcKey (seen e).1)).2 hwritten
  have hsafe := h _ _ (archiveState freshName tar) hfileRef hread _ ((homeKey_arcKey _).mpr hhome)
    hnone
  rw [FileTree.file] at hsafe
  rw [hsafe] at hstill
  simp at hstill

/-- **Extraction keeps out of `/home`** exactly when no entry of the stage is seen there. -/
theorem homeSafe_iff {a : PkgArgs} {d : Dir} (hd : d.WF)
    (hstage : (stageEntries a d).1 = .ok entries) (htar : buildTar entries = some tar)
    (hsmall : ∀ e ∈ entries, SmallFile e) :
    HomeSafe tar ↔ NoHomeSeen (sortEntries entries) := by
  have harcs := (accepted_of_stageEntries hd hstage).isArc
  exact ⟨noHomeSeen_of_homeSafe harcs htar hsmall, homeSafe_of_noHomeSeen harcs htar hsmall⟩

end Stages

/-- The archive of `less` keeps out of `/home`. -/
theorem homeSafe_less : ∃ tar, buildTar lessEntries = some tar ∧
    (HomeSafe tar ↔ NoHomeSeen (sortEntries lessEntries)) ∧ HomeSafe tar := by
  obtain ⟨tar, htar⟩ := buildTar_lessEntries
  have hstage : (stageEntries (lessArgs "1".toList) lessStage.root).1 = .ok lessEntries := by
    rw [stageEntries_lessStage]
    rfl
  have hiff := homeSafe_iff lessStage.wf hstage htar (by decide +kernel)
  have hnone : ∀ e ∈ lessEntries, underHome (seen e).1 = false := by decide +kernel
  refine ⟨tar, htar, hiff, hiff.mpr fun pre e post hes hhome => ?_⟩
  have he : e ∈ lessEntries := by
    apply mem_sortEntries.mp
    simp [hes]
  rw [hnone e he] at hhome
  simp at hhome

/-- The file below a long name and `home` is written under `/home`. -/
theorem longStage_not_homeSafe :
    ∃ a entries tar, (stageEntries a longStage.root).1 = .ok entries ∧
      buildTar entries = some tar ∧ ¬ HomeSafe tar := by
  obtain ⟨tar, htar⟩ := buildTar_longEntries
  refine ⟨lessArgs [], longEntries, tar, stageEntries_longStage _, htar, fun hsafe => ?_⟩
  have harcs := (accepted_of_stageEntries longStage.wf (stageEntries_longStage (lessArgs []))).isArc
  have hno := noHomeSeen_of_homeSafe harcs htar (by decide +kernel) hsafe
  have hsort : sortEntries longEntries = [(pkginfoName, longInfo)] ++ (longArc, [7]) :: [] := by
    apply List.mergeSort_of_pairwise
    decide +kernel
  obtain ⟨x, hx, y, hy, hxne, hyne, -, hdiff⟩ := hno _ _ _ hsort (by decide +kernel)
  -- only one of the two entries is a file to be written
  have hone : ∀ z ∈ [(pkginfoName, longInfo)] ++ [(longArc, ([7] : Bytes))],
      (seen z).1 ≠ pkginfoName → z = (longArc, [7]) := by decide +kernel
  rw [hone x hx hxne, hone y hy hyne] at hdiff
  exact hdiff rfl

end OsMoap.Apk
