import OsMoap.Apk.Files
import OsMoap.Apk.World

/-!
# `apk`: a Failed Upgrade and the Old Version

`upgrade` fetches the new archive of a package, removes the old version and only then
extracts.  A failed fetch leaves the old version as it was; an archive that cannot be
extracted makes the applet die when stanza, files and world line are gone.

The theorem is about the whole loop.  Up to the moment the new archive of the package is
delivered, the lines of other packages must not touch its old version (`othersSafe`); then
the old version is kept or the new one is installed exactly when that archive can be installed
in its place (`upgrade_keeps_old_iff`).
-/

namespace OsMoap.Apk

open OsMoap.Lib
open OsMoap.Pack (Bytes)

/-! ## The old version -/

/-- The stanza, every file it lists and the line in the world are there. -/
structure Kept (host : Host) (st : Stanza) (s : State) : Prop where
  stanza : ∃ ss, Holds s ss ∧ st ∈ ss
  files : ∀ p ∈ st.paths, (readPath s.tree (absolutize host.cwd p)).isSome
  world : st.name ∈ tokens nl (readFileOrEmpty s worldPath)

/-- It is a matter of the files only. -/
theorem kept_congr {host : Host} {st : Stanza} {s s' : State} (h : s.tree = s'.tree) :
    Kept host st s ↔ Kept host st s' := by
  have hmp : ∀ {a b : State}, a.tree = b.tree → Kept host st a → Kept host st b := by
    intro a b hab hk
    refine ⟨?_, fun p hp => hab ▸ hk.files p hp, ?_⟩
    · obtain ⟨ss, hss, hst⟩ := hk.stanza
      exact ⟨ss, by rw [Holds, ← hab, hss], hst⟩
    · rw [readFileOrEmpty, ← hab]
      exact hk.world
  exact ⟨hmp h, hmp h.symm⟩

/-- `Kept`, for the only stanza of its name and a world of whole lines. -/
structure Old (host : Host) (st : Stanza) (s : State) : Prop where
  name : st.name ≠ []
  stanza : ∃ ss, Holds s ss ∧ ss.filter (fun x => x.name = st.name) = [st]
  files : ∀ p ∈ st.paths, keyOf (absolutize host.cwd p) ≠ some tartmpRef.key ∧
    (readPath s.tree (absolutize host.cwd p)).isSome
  world : ∃ ws, worldRaw s = unlines nl ws ∧ (∀ l ∈ ws, Plain l) ∧ st.name ∈ ws

theorem textOf_world {s : State} {ws : List Bytes} (hraw : worldRaw s = unlines nl ws)
    (hws : ∀ l ∈ ws, Plain l) : textOf s.tree.file worldRef.key = unlines nl ws := by
  rw [textOf, ← worldRaw, hraw, cstr_unlines hws]

theorem Old.kept {host : Host} {st : Stanza} {s : State} (h : Old host st s) : Kept host st s := by
  obtain ⟨ss, hss, hfilter⟩ := h.stanza
  obtain ⟨ws, hraw, hws, hin⟩ := h.world
  refine ⟨⟨ss, hss, ?_⟩, fun p hp => (h.files p hp).2, ?_⟩
  · have hmem : st ∈ ss.filter fun x => x.name = st.name := by rw [hfilter]; simp
    exact (List.mem_filter.mp hmem).1
  · rw [readFileOrEmpty_world, textOf_world hraw hws, tokens,
      lines_unlines nl fun l hl => (hws l hl).1]
    exact List.mem_filter.mpr ⟨List.mem_append_left _ hin, by simpa using h.name⟩

/-- A database that is the text of two lists of stanzas has the same lines in both. -/
theorem dbLines_eq_of_holds {s : State} {ss ss' : List Stanza} (h : Holds s ss)
    (h' : Holds s ss') : dbLines ss = dbLines ss' := by
  have heq : render ss = render ss' := by rw [← h, ← h']
  have hlines := congrArg (lines nl) heq
  rw [render, render, lines_unlines nl fun l hl => (plain_of_mem_dbLines hl).1,
    lines_unlines nl fun l hl => (plain_of_mem_dbLines hl).1] at hlines
  exact List.append_cancel_right hlines

/-- Without a stanza of its name, a version is not kept. -/
theorem not_kept_of_holds {host : Host} {st : Stanza} {s : State} {ss : List Stanza}
    (h : Holds s ss) (hno : ∀ x ∈ ss, x.name ≠ st.name) : ¬ Kept host st s := by
  intro hkept
  obtain ⟨ss', hss', hst⟩ := hkept.stanza
  have hline : nameLine st.name ∈ dbLines ss := by
    rw [dbLines_eq_of_holds h hss']
    exact List.mem_flatMap.mpr ⟨st, hst, nameLine_mem_lines_iff.mpr rfl⟩
  obtain ⟨x, hx, hmem⟩ := List.mem_flatMap.mp hline
  exact hno x hx (nameLine_mem_lines_iff.mp hmem)

/-! ## Up to the delivery -/

/-- Along a loop: `other` at each call before the first one with `stop`, and `final` at that
one. -/
def Until {β : Type} (f : Bytes → State → Result β) (stop other final : Bytes → State → Prop) :
    List Bytes → State → Prop
  | [], _ => True
  | n :: ns, s => (stop n s → final n s) ∧
      (¬ stop n s → other n s ∧ ((f n s).1.isSome → Until f stop other final ns (f n s).2))

section Conditions

variable (host : Host) (st : Stanza)

/-- The new archive of the package is delivered at this line. -/
def delivery (ix db n : Bytes) (s : State) : Prop :=
  n = st.name ∧ Outdated ix db n ∧ ∃ tar, Delivered host n s tar

/-- Upgrading another package does not touch the old version: the archive ships neither the
database nor the world, the removal finds a name line first and unlinks neither the world nor
a file of the old version. -/
def othersSafe (ix db n : Bytes) (s : State) : Prop :=
  n ≠ st.name → Outdated ix db n → ∀ tar, Delivered host n s tar →
    SafeArchive tar ∧ SparesWorld tar ∧ (∀ ss, Holds s ss → NameLineFirst ss n) ∧
    ∀ before stanza after, located (readFileOrEmpty s dbPath) n = some (before, stanza, after) →
      ∀ d ∈ doomed host stanza, keyOf d ≠ some worldRef.key ∧
        ∀ p ∈ st.paths, keyOf d = none ∨ keyOf (absolutize host.cwd p) ≠ keyOf d

/-- At the delivery the archive ships neither the database nor its own temporary path, and the
removal finds the name line first and does not unlink the world. -/
def deliverySafe (n : Bytes) (s : State) : Prop :=
  ∀ tar, Delivered host n s tar →
    SafeArchive tar ∧ (∀ m ∈ members tar, keyOf (absPath m.1) ≠ some tartmpRef.key) ∧
    (∀ ss, Holds s ss → NameLineFirst ss n) ∧
    RemovalSparesWorld host (readFileOrEmpty s dbPath) n

/-- The delivered archive can be installed in place of the old version. -/
def replaceable (n : Bytes) (s : State) : Prop :=
  ∀ tar, Delivered host n s tar → Reinstallable host n s tar

end Conditions

/-! ## Lines of other packages -/

section Others

variable {host : Host} {st : Stanza} {n : Bytes} {s s' : State}

theorem Old.of_le (h : Old host st s) (hle : s.tree.Le s'.tree)
    (hdb : s'.tree.file dbRef.key = s.tree.file dbRef.key)
    (hworld : s'.tree.file worldRef.key = s.tree.file worldRef.key) : Old host st s' := by
  obtain ⟨ss, hss, hfilter⟩ := h.stanza
  obtain ⟨ws, hraw, hws⟩ := h.world
  exact ⟨h.name, ⟨ss, by rw [Holds, hdb, hss], hfilter⟩,
    fun p hp => ⟨(h.files p hp).1, readPath_isSome_of_le hle (h.files p hp).2⟩,
    ⟨ws, by rw [worldRaw, hworld, ← worldRaw, hraw], hws⟩⟩

/-- Removing another package. -/
theorem Old.del {r : Option ℕ} (h : Old host st s) (hn : Plain n) (hne : n ≠ st.name)
    (hfirst : ∀ ss, Holds s ss → NameLineFirst ss n)
    (hdoomed : ∀ before stanza after,
      located (textOf s.tree.file dbRef.key) n = some (before, stanza, after) →
      ∀ d ∈ doomed host stanza, keyOf d ≠ some worldRef.key ∧
        ∀ p ∈ st.paths, keyOf d = none ∨ keyOf (absolutize host.cwd p) ≠ keyOf d)
    (hdel : doDel host n s = (r, s')) : Old host st s' := by
  obtain ⟨ss, hss, hfilter⟩ := h.stanza
  obtain ⟨-, ⟨-, -, htree⟩ | ⟨before, stanza, after, hloc, -, hle, f, rfl, hfile⟩⟩ :=
    doDel_cases hdel
  · exact h.of_le (htree ▸ FileTree.Le.refl _) (by rw [htree]) (by rw [htree])
  · have hd := hdoomed before stanza after hloc
    refine ⟨h.name, ?_, fun p hp => ⟨(h.files p hp).1, readPath_isSome_of_le hle ?_⟩, ?_⟩
    · -- the stanza taken out has another name
      rcases located_render hn.1 (hfirst ss hss) with ⟨hnone, -⟩ | ⟨as, x, bs, rfl, hx, -, hloc'⟩
      · rw [hss.textOf, hnone] at hloc
        simp at hloc
      · refine ⟨as ++ bs, (hss.del hloc' hdel).2.1, ?_⟩
        have hx' : x.name ≠ st.name := hx ▸ hne
        rw [List.filter_append, List.filter_cons_of_neg (by simpa using hx')] at hfilter
        rw [List.filter_append, hfilter]
    · rw [(foldl_unlinkPath (doomed host stanza) s.tree).2.1 _ fun d hd' => (hd d hd').2 p hp]
      exact (h.files p hp).2
    · obtain ⟨ws, hraw, hws, hin⟩ := h.world
      have hspare : RemovalSparesWorld host (textOf s.tree.file dbRef.key) n :=
        fun before stanza after hloc d hd => (hdoomed before stanza after hloc d hd).1
      have hsame : s'.tree.file worldRef.key = s.tree.file worldRef.key →
          ∃ ws, worldRaw s' = unlines nl ws ∧ (∀ l ∈ ws, Plain l) ∧ st.name ∈ ws :=
        fun heq => ⟨ws, by rw [worldRaw, heq, ← worldRaw, hraw], hws, hin⟩
      rcases world_doDel (textOf_world hraw hws) hn.1 (fun l hl => (hws l hl).1) hspare hdel with
        ⟨-, htree⟩ | ⟨-, ⟨-, heq⟩ | ⟨-, as, bs, rfl, hsome⟩⟩
      · exact hsame (by rw [htree])
      · exact hsame heq
      · refine ⟨as ++ bs, by rw [worldRaw, hsome, Option.getD_some], fun l hl => hws l ?_, ?_⟩
        · rcases List.mem_append.mp hl with hl | hl
          · exact List.mem_append_left _ hl
          · exact List.mem_append_right _ (List.mem_cons_of_mem _ hl)
        · rcases List.mem_append.mp hin with hl | hl
          · exact List.mem_append_left _ hl
          · rcases List.mem_cons.mp hl with heq | hl
            · exact absurd heq.symm hne
            · exact List.mem_append_right _ hl

/-- Installing another package. -/
theorem Old.install {r : Option ℕ} (h : Old host st s) (hn : Plain n) (hne : n ≠ st.name)
    (harch : SafeArchive (archive s)) (hspare : SparesWorld (archive s))
    (hinst : installTarFile n true s = (r, s')) : Old host st s' := by
  obtain ⟨ss, hss, hfilter⟩ := h.stanza
  obtain ⟨ws, hraw, hws, hin⟩ := h.world
  obtain ⟨ms, ver, desc, hpre, -, -, -, hkeep, -, hout⟩ := installTarFile_spec hinst
  refine ⟨h.name, ?_, fun p hp => ?_, ?_⟩
  · obtain ⟨x, hx, hcases, -⟩ := hss.install hn harch hinst
    rcases hcases with hx' | ⟨-, hss'⟩
    · refine ⟨ss ++ [x], hx', ?_⟩
      rw [List.filter_append, hfilter, List.filter_cons_of_neg (by simpa [hx] using hne)]
      rfl
    · exact ⟨ss, hss', hfilter⟩
  · obtain ⟨hne', hread⟩ := h.files p hp
    exact ⟨hne', hkeep _ hne' hread⟩
  · have hsame : s'.tree.file worldRef.key = s.tree.file worldRef.key →
        ∃ ws, worldRaw s' = unlines nl ws ∧ (∀ l ∈ ws, Plain l) ∧ st.name ∈ ws := fun heq =>
      ⟨ws, by rw [worldRaw, heq, ← worldRaw, hraw], hws, hin⟩
    rcases hout.world fun m hm => hspare m (hpre.subset hm) with ⟨-, hworld⟩ | ⟨-, hworld⟩
    · exact hsame hworld
    · rcases world_recordText hraw hworld with ⟨-, heq⟩ | ⟨-, hraw'⟩
      · exact hsame heq
      · refine ⟨ws ++ [n], hraw', fun l hl => ?_, List.mem_append_left _ hin⟩
        rcases List.mem_append.mp hl with hl | hl
        · exact hws l hl
        · rw [List.mem_singleton.mp hl]
          exact hn

/-- A line at which the new archive is not delivered leaves the old version alone, and does
not count as an upgrade of the package. -/
theorem Old.line {ix db : Bytes} (h : Old host st s) (hn : Plain n)
    (hstop : ¬ delivery host st ix db n s) (hsafe : othersSafe host st ix db n s) :
    Old host st (upgradeLine host ix db n s).2 ∧
      ∀ rc, (upgradeLine host ix db n s).1 = some (rc, 1) → n ≠ st.name := by
  rcases hup : upgradeLine host ix db n s with ⟨r, s'⟩
  rcases upgradeLine_cases hup with ⟨-, rfl, rfl⟩ |
    ⟨hout, ⟨-, rfl, htree, -⟩ | ⟨tar, mid, rd, s1, ri, htar, hmid, hle, -, hfile, hfetched, hdel,
      hinst, -⟩⟩
  · exact ⟨h, by simp⟩
  · exact ⟨h.of_le (htree ▸ FileTree.Le.refl _) (by rw [htree]) (by rw [htree]), by simp⟩
  · have hdelivered : Delivered host n s tar := ⟨htar, by rw [hfetched]; rfl⟩
    have hne : n ≠ st.name := fun heq => hstop ⟨heq, hout, tar, hdelivered⟩
    obtain ⟨harch, hspare, hfirst, hdoomed⟩ := hsafe hne hout tar hdelivered
    have hdb : mid.tree.file dbRef.key = s.tree.file dbRef.key := by
      rw [hfile, Function.update_of_ne dbRef_ne_tartmpRef]
    have hmidOld : Old host st mid := h.of_le hle hdb (file_world_of_fetch hfile)
    rw [readFileOrEmpty_db, textOf, ← hdb] at hdoomed
    have hfirst' : ∀ ss, Holds mid ss → NameLineFirst ss n := fun ss hss =>
      hfirst ss (by rw [Holds, ← hdb, hss])
    have h1 := hmidOld.del hn hne hfirst' hdoomed hdel
    have harch1 : SafeArchive (archive s1) ∧ SparesWorld (archive s1) := by
      rcases archive_doDel hdel with heq | heq
      · rw [heq, hmid]
        exact ⟨harch, hspare⟩
      · rw [heq]
        exact ⟨safeArchive_nil, sparesWorld_nil⟩
    exact ⟨h1.install hn hne harch1.1 harch1.2 hinst, fun _ _ => hne⟩

end Others

/-! ## The line of the package -/

section Delivery

variable {host : Host} {st : Stanza} {ix db : Bytes} {s : State}

/-- The removal at the delivery takes out the old stanza and leaves database and world. -/
theorem Old.del_self {s' : State} {r : Option ℕ} (h : Old host st s)
    (hfirst : ∀ ss, Holds s ss → NameLineFirst ss st.name)
    (hspare : RemovalSparesWorld host (textOf s.tree.file dbRef.key) st.name)
    (hdel : doDel host st.name s = (r, s')) :
    (∃ ss, Holds s' ss ∧ ∀ x ∈ ss, x.name ≠ st.name) ∧ (s'.tree.file dbRef.key).isSome ∧
      (s'.tree.file worldRef.key).isSome := by
  obtain ⟨ss, hss, hfilter⟩ := h.stanza
  have hname : nl ∉ st.name := (st.plain _ (by simp)).1
  rcases located_render hname (hfirst ss hss) with ⟨-, hno⟩ | ⟨as, x, bs, rfl, hx, has, hloc⟩
  · have hst : st ∈ ss.filter fun x => x.name = st.name := by rw [hfilter]; simp
    exact absurd rfl (hno st (List.mem_filter.mp hst).1)
  · -- it was the only stanza of its name
    have hbs : ∀ y ∈ bs, y.name ≠ st.name := by
      rw [List.filter_append, List.filter_eq_nil_iff.mpr fun y hy => by simpa using has y hy,
        List.nil_append, List.filter_cons_of_pos (by simpa using hx)] at hfilter
      have hnil := (List.cons.inj hfilter).2
      intro y hy
      simpa using List.filter_eq_nil_iff.mp hnil y hy
    refine ⟨⟨as ++ bs, (hss.del hloc hdel).2.1, fun y hy => ?_⟩, ?_⟩
    · rcases List.mem_append.mp hy with hy | hy
      · exact has y hy
      · exact hbs y hy
    · obtain ⟨-, ⟨hnone, -⟩ | ⟨before, stanza, after, hloc', -, hle, f, rfl, hfile⟩⟩ :=
        doDel_cases hdel
      · rw [hss.textOf, hloc] at hnone
        simp at hnone
      · constructor
        · rw [hfile]
          split
          · simp
          · rw [Function.update_of_ne dbRef_ne_worldRef]
            simp
        · obtain ⟨ws, hraw, hws, hin⟩ := h.world
          refine file_isSome_of_le (by decide) hle ?_
          rw [(foldl_unlinkPath _ _).1 _ (hspare _ _ _ hloc')]
          cases hf : s.tree.file worldRef.key with
          | some b => rfl
          | none =>
            obtain ⟨as, bs, rfl⟩ := List.append_of_mem hin
            simp [worldRaw, hf] at hraw

/-- Extraction that dies ends the installation, with the database as it was. -/
theorem Holds.install_died {s' : State} {ss : List Stanza} {name : Bytes} (hs : Holds s ss)
    (harch : SafeArchive (archive s)) (hdied : (tarExtract tartmp s).1 = none)
    (hinst : installTarFile name true s = (none, s')) : Holds s' ss := by
  rcases hex : tarExtract tartmp s with ⟨r, s2⟩
  rw [hex] at hdied
  obtain rfl : r = none := hdied
  rw [installTarFile, hex, Result.andThen_none] at hinst
  obtain ⟨-, rfl⟩ := Prod.mk.inj hinst
  obtain ⟨ms, hpre, -, -, hfile, -⟩ := tarExtract_spec hex
  rw [Holds, hfile, writeAll_of_forall_ne fun m hm => (harch m (hpre.subset hm)).2, hs]

/-- **The delivery** installs the new version when it can be installed, and otherwise the
applet dies without the old stanza. -/
theorem Old.delivered (h : Old host st s) (hstop : delivery host st ix db st.name s)
    (hsafe : deliverySafe host st.name s) :
    (replaceable host st.name s → (upgradeLine host ix db st.name s).1 = some (0, 1)) ∧
      (¬ replaceable host st.name s → (upgradeLine host ix db st.name s).1 = none ∧
        ¬ Kept host st (upgradeLine host ix db st.name s).2) := by
  obtain ⟨-, hout, tar₀, hdelivered⟩ := hstop
  rcases hup : upgradeLine host ix db st.name s with ⟨r, s'⟩
  rcases upgradeLine_cases hup with ⟨hnot, -⟩ |
    ⟨-, ⟨hnot, -⟩ | ⟨tar, mid, rd, s1, ri, htar, hmid, hle, -, hfile, hfetched, hdel, hinst, rfl⟩⟩
  · exact absurd hout hnot
  · exact absurd hdelivered (hnot tar₀)
  · have hdelivered' : Delivered host st.name s tar := ⟨htar, by rw [hfetched]; rfl⟩
    obtain ⟨harch, hself, hfirst, hspare⟩ := hsafe tar hdelivered'
    have hdb : mid.tree.file dbRef.key = s.tree.file dbRef.key := by
      rw [hfile, Function.update_of_ne dbRef_ne_tartmpRef]
    have hmidOld : Old host st mid := h.of_le hle hdb (file_world_of_fetch hfile)
    rw [readFileOrEmpty_db, textOf, ← hdb] at hspare
    -- from here on the old version is gone, and everything hangs on the extraction
    obtain ⟨⟨ss, hss, hnone⟩, hdb1, hworld1⟩ := hmidOld.del_self
      (fun ss hss => hfirst ss (by rw [Holds, ← hdb, hss])) hspare hdel
    constructor
    · intro hrep
      have hret := (hrep tar hdelivered').install hfetched hdel hdb1 hworld1
      rw [hinst] at hret
      obtain rfl : ri = some 0 := hret
      rfl
    · intro hrep
      have hnot : ¬ (s1.tree.file tartmpRef.key = some tar ∧ Extracts s1.tree tar) := by
        rintro hgood
        refine hrep fun tar' htar' => ?_
        obtain rfl : tar = tar' := Except.ok.inj (htar.symm.trans htar'.1)
        refine ⟨hself, fun mid' hmid' => ?_⟩
        have htree : mid'.tree = mid.tree := Option.some.inj (hmid'.symm.trans hfetched)
        rw [doDel_congr htree host st.name, hdel]
        exact hgood
      -- the archive was removed with the old files, or does not extract
      have hdied : (tarExtract tartmp s1).1 = none := by
        have hmidfile : mid.tree.file tartmpRef.key = some tar := by
          rw [hfile, Function.update_self]
        rcases file_tartmp_doDel hdel with hsame | hgone
        · rw [hmidfile] at hsame
          have harch1 : archive s1 = tar := by rw [archive, hsame, Option.getD_some]
          have hiff := tarExtract_isSome_iff (s := s1) (by rw [hsame]; rfl) (by rwa [harch1])
          rw [harch1] at hiff
          rw [← Option.not_isSome_iff_eq_none, hiff]
          exact fun hextracts => hnot ⟨hsame, hextracts⟩
        · rw [tarExtract, fileRef_tartmp, readPath_tartmp, hgone]
          rfl
      have hri : ri = none := by
        rcases hex : tarExtract tartmp s1 with ⟨r, s2⟩
        rw [hex] at hdied
        obtain rfl : r = none := hdied
        rw [installTarFile, hex, Result.andThen_none] at hinst
        exact (Prod.mk.inj hinst).1.symm
      subst hri
      have harch1 : SafeArchive (archive s1) := by
        rcases archive_doDel hdel with heq | heq
        · rwa [heq, hmid]
        · rw [heq]
          exact safeArchive_nil
      exact ⟨rfl, not_kept_of_holds (hss.install_died harch1 hdied hinst) hnone⟩

end Delivery

/-! ## The loop and the command -/

/-- The package was upgraded in a loop over lines. -/
def Finishes (host : Host) (st : Stanza) (ix db : Bytes) (ns : List Bytes) (s : State) : Prop :=
  ∃ rc, (st.name, (rc, 1)) ∈ outcomes (upgradeLine host ix db) ns s

/-- The condition on the package itself, along the loop. -/
def Replaceable (host : Host) (st : Stanza) (ix db : Bytes) (ns : List Bytes) (s : State) : Prop :=
  Until (upgradeLine host ix db) (delivery host st ix db) (fun _ _ => True) (replaceable host) ns s

/-- The conditions on the other packages, along the loop. -/
def OthersSafe (host : Host) (st : Stanza) (ix db : Bytes) (ns : List Bytes) (s : State) : Prop :=
  Until (upgradeLine host ix db) (delivery host st ix db) (othersSafe host st ix db)
    (deliverySafe host) ns s

/-- A world of one package whose archive is not delivered. -/
theorem othersSafe_of_not_delivered {host : Host} {st : Stanza} {ix db : Bytes} {s : State}
    (h : ∀ tar, ¬ Delivered host st.name s tar) : OthersSafe host st ix db [st.name] s := by
  refine ⟨fun hstop => ?_, fun _ => ⟨fun hne => absurd rfl hne, fun _ => trivial⟩⟩
  obtain ⟨-, -, tar, hdelivered⟩ := hstop
  exact absurd hdelivered (h tar)

theorem Old.loop_iff {host : Host} {st : Stanza} {ix db : Bytes} {ns : List Bytes} {s : State}
    (h : Old host st s) (hns : ∀ n ∈ ns, Plain n) (hsafe : OthersSafe host st ix db ns s) :
    (¬ Finishes host st ix db ns s → Kept host st (each (upgradeLine host ix db) ns s).2) ↔
      Replaceable host st ix db ns s := by
  induction ns generalizing s with
  | nil => exact ⟨fun _ => trivial, fun _ _ => h.kept⟩
  | cons n ns ih =>
    obtain ⟨hfinal, hother⟩ := hsafe
    by_cases hstop : delivery host st ix db n s
    · -- the new archive is delivered here, and this line decides
      obtain rfl := hstop.1
      obtain ⟨hgood, hbad⟩ := h.delivered hstop (hfinal hstop)
      have hown : Replaceable host st ix db (st.name :: ns) s ↔ replaceable host st.name s :=
        ⟨fun hrep => hrep.1 hstop, fun hrep => ⟨fun _ => hrep, fun hno => absurd hstop hno⟩⟩
      rw [hown]
      constructor
      · intro hkept
        by_contra hrep
        obtain ⟨hdied, hgone⟩ := hbad hrep
        rcases hline : upgradeLine host ix db st.name s with ⟨r, s'⟩
        rw [hline] at hdied hgone
        obtain rfl : r = none := hdied
        refine hgone ?_
        rw [each, hline] at hkept
        exact hkept (by simp [Finishes, outcomes, hline])
      · intro hrep hno
        have hret := hgood hrep
        rcases hline : upgradeLine host ix db st.name s with ⟨r, s'⟩
        rw [hline] at hret
        obtain rfl : r = some (0, 1) := hret
        exact absurd ⟨0, by simp [outcomes, hline]⟩ hno
    · obtain ⟨hcond, hrest⟩ := hother hstop
      obtain ⟨hmid, hcount⟩ := h.line (hns n List.mem_cons_self) hstop hcond
      have hown : Replaceable host st ix db (n :: ns) s ↔
          ((upgradeLine host ix db n s).1.isSome →
            Replaceable host st ix db ns (upgradeLine host ix db n s).2) :=
        ⟨fun hrep => (hrep.2 hstop).2, fun hrep =>
          ⟨fun hyes => absurd hyes hstop, fun _ => ⟨trivial, hrep⟩⟩⟩
      rw [hown]
      rcases hline : upgradeLine host ix db n s with ⟨_ | b, mid⟩
      · rw [hline] at hmid
        constructor
        · exact fun _ hsome => absurd hsome (by simp)
        · intro _ _
          rw [each, hline]
          exact hmid.kept
      · rw [hline] at hmid hcount hrest
        have hfin : Finishes host st ix db (n :: ns) s ↔ Finishes host st ix db ns mid := by
          unfold Finishes
          rw [outcomes, hline]
          refine exists_congr fun rc => ?_
          rw [List.mem_cons, or_iff_right]
          rintro heq
          obtain ⟨hn, rfl⟩ := Prod.mk.inj heq
          exact hcount rc rfl hn.symm
        have heach : (each (upgradeLine host ix db) (n :: ns) s).2
            = (each (upgradeLine host ix db) ns mid).2 := by
          rw [each, hline, Result.andThen_some]
          rcases each (upgradeLine host ix db) ns mid with ⟨_ | bs, last⟩
          · rfl
          · rfl
        rw [hfin, heach, ih hmid (fun n' hn' => hns n' (List.mem_cons_of_mem _ hn')) (hrest rfl)]
        simp

/-- A condition on the loop of `upgrade`: on the index, the database and the lines read before
it, and on the state it starts in. -/
def InUpgrade (host : Host) (s : State) (P : Bytes → Bytes → List Bytes → State → Prop) : Prop :=
  ∀ ix, host.index s.calls = .ok ix →
    P (cstr ix) (readFileOrEmpty s dbPath) (tokens nl (readFileOrEmpty s worldPath))
      { s with calls := s.calls + 1 }

/-- **A failed upgrade and the old version.**  Where the lines of other packages do not touch
it, an `upgrade` that does not finish installing the new version keeps the old one exactly when
the new archive, if it is delivered, can be installed in its place. -/
theorem upgrade_keeps_old_iff {host : Host} {st : Stanza} {s : State} (h : Old host st s)
    (hsafe : InUpgrade host s (OthersSafe host st)) :
    (InUpgrade host s (fun ix db ns s => ¬ Finishes host st ix db ns s) →
        Kept host st (upgrade host s).2) ↔
      InUpgrade host s (Replaceable host st) := by
  cases hix : host.index s.calls with
  | error e =>
    have htree : (upgrade host s).2.tree = s.tree := by
      rw [upgrade, getIndex_error hix]
      rfl
    exact ⟨fun _ ix hok => by simp [hix] at hok, fun _ _ => (kept_congr htree).mpr h.kept⟩
  | ok ix =>
    have hstart : Old host st { s with calls := s.calls + 1 } :=
      h.of_le (FileTree.Le.refl _) rfl rfl
    have hloop := hstart.loop_iff (fun n hn => not_mem_of_mem_tokens hn) (hsafe ix hix)
    have honly : ∀ P, InUpgrade host s P ↔
        P (cstr ix) (readFileOrEmpty s dbPath) (tokens nl (readFileOrEmpty s worldPath))
          { s with calls := s.calls + 1 } := by
      refine fun P => ⟨fun hP => hP ix hix, fun hP ix' hix' => ?_⟩
      obtain rfl : ix = ix' := Except.ok.inj (hix.symm.trans hix')
      exact hP
    have htree : (upgrade host s).2.tree
        = (each (upgradeLine host (cstr ix) (readFileOrEmpty s dbPath))
            (tokens nl (readFileOrEmpty s worldPath)) { s with calls := s.calls + 1 }).2.tree := by
      rw [upgrade, getIndex_ok hix, Result.andThen_some]
      exact andThen_tree fun _ _ => rfl
    rw [honly, honly, ← hloop, kept_congr htree]

/-! ## A fetch that fails and an archive that is cut -/

/-- A host whose index has a new version of `less`, and which answers later fetches with
`again`. -/
def laterHost (again : Except Bytes Bytes) : Host where
  index := fun _ => .ok (ascii "less 661-r0 12 pager\n")
  fetch := fun calls _ => if calls = 0 then .ok terminfoTar else again
  cwd := [slash]

/-- The state after `apk add less`. -/
def lessAdded (again : Except Bytes Bytes) : State :=
  (runCommand (laterHost again) bareState (.add true [ascii "less"])).2

/-- The stanza it wrote. -/
def lessStanza : Stanza :=
  ⟨ascii "less", ascii "?", ascii "?", [ascii "/usr/share/terminfo/x/xterm"], by decide⟩

section LaterHost

variable {again : Except Bytes Bytes} {s : State}

theorem inUpgrade_laterHost_iff {P : Bytes → Bytes → List Bytes → State → Prop} :
    InUpgrade (laterHost again) s P ↔
      P (cstr (ascii "less 661-r0 12 pager\n")) (readFileOrEmpty s dbPath)
        (tokens nl (readFileOrEmpty s worldPath)) { s with calls := s.calls + 1 } := by
  refine ⟨fun h => h _ rfl, fun h ix hix => ?_⟩
  obtain rfl : ascii "less 661-r0 12 pager\n" = ix := Except.ok.inj hix
  exact h

theorem Delivered.of_laterHost {name tar : Bytes}
    (h : Delivered (laterHost again) name { s with calls := s.calls + 1 } tar) :
    again = .ok tar := by
  have hfetch := h.1
  simp only [laterHost, Nat.add_eq_zero_iff, one_ne_zero, and_false, if_false] at hfetch
  exact hfetch

/-- What `apk add less` leaves is an old version. -/
theorem old_of_files (hholds : Holds s [lessStanza])
    (hread : readPath s.tree (ascii "/usr/share/terminfo/x/xterm") = some [26, 1])
    (hworld : worldRaw s = unlines nl [ascii "less"]) : Old (laterHost again) lessStanza s := by
  refine ⟨by decide, ⟨[lessStanza], hholds, by simp⟩, fun p hp => ?_, ⟨_, hworld, ?_, ?_⟩⟩
  · obtain rfl : p = absPath (ascii "usr/share/terminfo/x/xterm") := List.mem_singleton.mp hp
    rw [absolutize_absPath]
    exact ⟨by decide, by rw [show absPath (ascii "usr/share/terminfo/x/xterm")
      = ascii "/usr/share/terminfo/x/xterm" from by decide, hread]; rfl⟩
  · decide
  · decide

end LaterHost

/-- The repository is down when `apk upgrade` runs. -/
def timedOut : Except Bytes Bytes := .error (ascii "Operation timed out")

theorem upgrade_keeps_old_timedOut :
    Old (laterHost timedOut) lessStanza (lessAdded timedOut) ∧
    InUpgrade (laterHost timedOut) (lessAdded timedOut)
      (OthersSafe (laterHost timedOut) lessStanza) ∧
    ((InUpgrade (laterHost timedOut) (lessAdded timedOut)
        (fun ix db ns s => ¬ Finishes (laterHost timedOut) lessStanza ix db ns s) →
      Kept (laterHost timedOut) lessStanza (upgrade (laterHost timedOut) (lessAdded timedOut)).2) ↔
    InUpgrade (laterHost timedOut) (lessAdded timedOut)
      (Replaceable (laterHost timedOut) lessStanza)) := by
  have hold : Old (laterHost timedOut) lessStanza (lessAdded timedOut) :=
    old_of_files (by unfold Holds; decide +kernel) (by decide +kernel) (by decide +kernel)
  have htokens : tokens nl (readFileOrEmpty (lessAdded timedOut) worldPath)
      = [lessStanza.name] := by
    decide +kernel
  have hothers : InUpgrade (laterHost timedOut) (lessAdded timedOut)
      (OthersSafe (laterHost timedOut) lessStanza) := by
    rw [inUpgrade_laterHost_iff, htokens]
    refine othersSafe_of_not_delivered fun tar h => ?_
    have hok := Delivered.of_laterHost (s := lessAdded timedOut) h
    simp [timedOut] at hok
  -- the state is closed, and elaborating `hothers` against its type would run the loop
  generalize lessAdded timedOut = s at hold hothers ⊢
  exact ⟨hold, hothers, upgrade_keeps_old_iff hold hothers⟩

/-- The new archive is cut inside its first member. -/
def cutArchive : Except Bytes Bytes := .ok (terminfoTar.take 513)

/-- `apk upgrade` dies on a cut archive, and neither the old stanza nor any other is left. -/
theorem upgrade_loses_old_cutArchive :
    Old (laterHost cutArchive) lessStanza (lessAdded cutArchive) ∧
    (upgrade (laterHost cutArchive) (lessAdded cutArchive)).1 = none ∧
    worldRaw (upgrade (laterHost cutArchive) (lessAdded cutArchive)).2 = [] ∧
    ¬ (InUpgrade (laterHost cutArchive) (lessAdded cutArchive)
        (fun ix db ns s => ¬ Finishes (laterHost cutArchive) lessStanza ix db ns s) →
      Kept (laterHost cutArchive) lessStanza
        (upgrade (laterHost cutArchive) (lessAdded cutArchive)).2) := by
  have hold : Old (laterHost cutArchive) lessStanza (lessAdded cutArchive) :=
    old_of_files (by unfold Holds; decide +kernel) (by decide +kernel) (by decide +kernel)
  have hempty : Holds (upgrade (laterHost cutArchive) (lessAdded cutArchive)).2 [] := by
    unfold Holds
    decide +kernel
  have hnone : outcomes (upgradeLine (laterHost cutArchive)
      (cstr (ascii "less 661-r0 12 pager\n")) (readFileOrEmpty (lessAdded cutArchive) dbPath))
      (tokens nl (readFileOrEmpty (lessAdded cutArchive) worldPath))
      { lessAdded cutArchive with calls := (lessAdded cutArchive).calls + 1 } = [] := by
    decide +kernel
  have hdied : (upgrade (laterHost cutArchive) (lessAdded cutArchive)).1 = none := by
    decide +kernel
  have hworld : worldRaw (upgrade (laterHost cutArchive) (lessAdded cutArchive)).2 = [] := by
    decide +kernel
  refine ⟨hold, hdied, hworld, fun hclaim => ?_⟩
  refine not_kept_of_holds hempty (by simp) (hclaim ?_)
  rw [inUpgrade_laterHost_iff, Finishes, hnone]
  simp

end OsMoap.Apk
