import OsMoap.Apk.Commands

/-!
# `apk`: What Each Operation Does to the Files

One specification per operation of `apk.c`, stated on the contents of the places of the file
tree.  The database, the world and the archive are three fixed places; their paths have no
`..`, so reading them is looking at the place (`readFileOrEmpty_db`, `readFileOrEmpty_world`).

Callers use these and never unfold the operations.
-/

namespace OsMoap.Apk

open OsMoap.Lib
open OsMoap.Pack (Bytes)

/-! ## The three fixed places -/

def dbRef : FileRef Bytes :=
  ⟨[.here, .name (ascii "lib"), .name (ascii "apk"), .name (ascii "db")], ascii "installed"⟩

def worldRef : FileRef Bytes := ⟨[.here, .name (ascii "etc"), .name (ascii "apk")], ascii "world"⟩

def tartmpRef : FileRef Bytes := ⟨[.here, .name (ascii "tmp")], ascii ".apk.tar"⟩

theorem fileRef_db : fileRef dbPath = some dbRef := by decide

theorem fileRef_world : fileRef worldPath = some worldRef := by decide

theorem fileRef_tartmp : fileRef tartmp = some tartmpRef := by decide

theorem dirname_db : dirname dbPath = dbRef.dir := by decide

theorem dirname_world : dirname worldPath = worldRef.dir := by decide

theorem dbRef_ne_worldRef : dbRef.key ≠ worldRef.key := by decide

theorem dbRef_ne_tartmpRef : dbRef.key ≠ tartmpRef.key := by decide

theorem worldRef_ne_tartmpRef : worldRef.key ≠ tartmpRef.key := by decide

theorem readPath_eq_file {path : Bytes} {r : FileRef Bytes} (hr : fileRef path = some r)
    (hup : Seg.up ∉ r.dir) (t : FileTree Bytes Bytes) : readPath t path = t.file r.key := by
  rw [readPath, hr, Option.bind_some, t.read_eq_file hup]

/-- The text of a place, as C sees it. -/
def textOf (f : List Bytes → Option Bytes) (k : List Bytes) : Bytes := cstr ((f k).getD [])

theorem readFileOrEmpty_db (s : State) : readFileOrEmpty s dbPath = textOf s.tree.file dbRef.key := by
  rw [readFileOrEmpty, readPath_eq_file fileRef_db (by decide), textOf]

theorem readFileOrEmpty_world (s : State) :
    readFileOrEmpty s worldPath = textOf s.tree.file worldRef.key := by
  rw [readFileOrEmpty, readPath_eq_file fileRef_world (by decide), textOf]

theorem readPath_tartmp (t : FileTree Bytes Bytes) : readPath t tartmp = t.file tartmpRef.key :=
  readPath_eq_file fileRef_tartmp (by decide) t

/-! ## Writing -/

/-- Appending to a file, or dying with every file as it was. -/
theorem appendFile_spec {path text : Bytes} {ref : FileRef Bytes} {s s' : State} {r : Option Unit}
    (href : fileRef path = some ref) (h : appendFile path text s = (r, s')) :
    s.tree.Le s'.tree ∧ s'.calls = s.calls ∧
      (r = none → s'.tree.file = s.tree.file) ∧
      (r = some () → s'.tree.file
        = Function.update s.tree.file ref.key (some ((s.tree.file ref.key).getD [] ++ text))) := by
  have hput : ∀ (t t' : FileTree Bytes Bytes),
      putPath t path (fun old => old.getD [] ++ text) = some t' → t.Le t' ∧ t'.file
        = Function.update t.file ref.key (some ((t.file ref.key).getD [] ++ text)) := by
    intro t t' ht
    obtain ⟨k, hk, hle, hfile, -⟩ := putPath_eq_some ht
    obtain rfl : ref.key = k := by simpa [keyOf, href] using hk
    exact ⟨hle, hfile⟩
  -- the second attempt starts from a tree with more directories and the same files
  have hmk := s.tree.le_mkdirs (dirname path)
  have hmkf := s.tree.file_mkdirs (dirname path)
  unfold appendFile at h
  simp only at h
  split at h
  · rename_i t ht
    obtain ⟨rfl, rfl⟩ := Prod.mk.inj h
    obtain ⟨hle, hfile⟩ := hput _ _ ht
    exact ⟨hle, rfl, by simp, fun _ => hfile⟩
  · split at h
    · rename_i t' ht'
      obtain ⟨rfl, rfl⟩ := Prod.mk.inj h
      obtain ⟨hle, hfile⟩ := hput _ _ ht'
      rw [hmkf] at hfile
      exact ⟨hmk.trans hle, rfl, by simp, fun _ => hfile⟩
    · obtain ⟨rfl, rfl⟩ := Prod.mk.inj h
      exact ⟨hmk, rfl, fun _ => hmkf, by simp⟩

/-- Rewriting a file whose place is open. -/
theorem writeFile_of_open {path : Bytes} {ref : FileRef Bytes} {s : State}
    (href : fileRef path = some ref) (hdir : dirname path = ref.dir) (hopen : s.tree.Open ref)
    (text : Bytes) :
    ∃ s', writeFile path text s = (some (), s') ∧ s.tree.Le s'.tree ∧ s'.calls = s.calls ∧
      s'.tree.file = Function.update s.tree.file ref.key (some text) := by
  obtain ⟨t', ht'⟩ := FileTree.put_isSome hopen fun _ => text
  obtain ⟨hle, hfile, -⟩ := FileTree.put_eq_some ht'
  refine ⟨{ s with tree := t' }, ?_, hle, rfl, hfile⟩
  rw [writeFile, hdir, FileTree.mkdirs_of_open hopen]
  simp only [putPath, href, Option.bind_some, ht']

/-- Appending to a file whose directories are there or can be made. -/
theorem appendFile_isSome {path : Bytes} {ref : FileRef Bytes} {s : State}
    (href : fileRef path = some ref) (hopen : (s.tree.mkdirs (dirname path)).Open ref)
    (text : Bytes) : (appendFile path text s).1 = some () := by
  obtain ⟨t', ht'⟩ := FileTree.put_isSome hopen fun old => old.getD [] ++ text
  have hput : putPath (s.tree.mkdirs (dirname path)) path (fun old => old.getD [] ++ text)
      = some t' := by
    rw [putPath, href, Option.bind_some, ht']
  unfold appendFile
  simp only [hput]
  split <;> rfl

/-! ## Removing -/

theorem unlinkPath_eq {path : Bytes} {r : FileRef Bytes} (h : fileRef path = some r)
    (t : FileTree Bytes Bytes) : unlinkPath t path = t.unlink r := by
  rw [unlinkPath, h]

theorem file_unlinkPath_of_ne {path : Bytes} {k : List Bytes} (h : keyOf path ≠ some k)
    (t : FileTree Bytes Bytes) : (unlinkPath t path).file k = t.file k := by
  unfold unlinkPath
  cases hp : fileRef path with
  | none => rfl
  | some r => exact t.file_unlink_of_ne fun heq => h (by simp [keyOf, hp, heq])

theorem readPath_unlinkPath_of_ne {path q : Bytes} (h : keyOf path = none ∨ keyOf q ≠ keyOf path)
    (t : FileTree Bytes Bytes) : readPath (unlinkPath t path) q = readPath t q := by
  unfold unlinkPath readPath
  cases hp : fileRef path with
  | none => rfl
  | some r =>
    cases hq : fileRef q with
    | none => rfl
    | some r' =>
      refine t.read_unlink_of_ne fun heq => ?_
      rcases h with h | h
      · simp [keyOf, hp] at h
      · exact h (by simp [keyOf, hp, hq, heq])

/-- The three views of a tree after a list of paths was unlinked. -/
theorem foldl_unlinkPath (paths : List Bytes) (t : FileTree Bytes Bytes) :
    (∀ k, (∀ p ∈ paths, keyOf p ≠ some k) → (paths.foldl unlinkPath t).file k = t.file k) ∧
    (∀ q, (∀ p ∈ paths, keyOf p = none ∨ keyOf q ≠ keyOf p) →
      readPath (paths.foldl unlinkPath t) q = readPath t q) ∧
    ∀ r, t.Open r → (paths.foldl unlinkPath t).Open r := by
  induction paths generalizing t with
  | nil => exact ⟨fun _ _ => rfl, fun _ _ => rfl, fun _ h => h⟩
  | cons p paths ih =>
    obtain ⟨hfile, hread, hopen⟩ := ih (unlinkPath t p)
    refine ⟨fun k hk => ?_, fun q hq => ?_, fun r hr => ?_⟩
    · rw [List.foldl_cons, hfile k fun p' hp' => hk p' (List.mem_cons_of_mem _ hp'),
        file_unlinkPath_of_ne (hk p List.mem_cons_self)]
    · rw [List.foldl_cons, hread q fun p' hp' => hq p' (List.mem_cons_of_mem _ hp'),
        readPath_unlinkPath_of_ne (hq p List.mem_cons_self)]
    · refine hopen r ?_
      unfold unlinkPath
      cases fileRef p with
      | none => exact hr
      | some r' => exact FileTree.open_unlink hr r'

/-- Unlinking paths never changes what a file holds. -/
theorem file_foldl_unlinkPath (paths : List Bytes) (t : FileTree Bytes Bytes) (k : List Bytes) :
    (paths.foldl unlinkPath t).file k = t.file k ∨ (paths.foldl unlinkPath t).file k = none := by
  induction paths generalizing t with
  | nil => exact Or.inl rfl
  | cons p paths ih =>
    have hone : (unlinkPath t p).file k = t.file k ∨ (unlinkPath t p).file k = none := by
      unfold unlinkPath
      cases fileRef p with
      | none => exact Or.inl rfl
      | some r => exact t.file_unlink r k
    rw [List.foldl_cons]
    rcases ih (unlinkPath t p) with h | h
    · rw [h]
      exact hone
    · exact Or.inr h

/-! ## Fetching and extracting -/

/-- The archive waiting to be installed. -/
def archive (s : State) : Bytes := (s.tree.file tartmpRef.key).getD []

/-- The tree once the host has delivered an archive. -/
def fetchedTree (s : State) (tar : Bytes) : Option (FileTree Bytes Bytes) :=
  putPath (s.tree.mkdirs (dirname tartmp)) tartmp fun _ => tar

/-- The host answers a fetch with an archive, and it can be stored. -/
def Delivered (host : Host) (name : Bytes) (s : State) (tar : Bytes) : Prop :=
  host.fetch s.calls name = .ok tar ∧ (fetchedTree s tar).isSome

/-- A fetch delivers the archive or leaves every file as it was. -/
theorem osdPkgFetch_spec {host : Host} {name : Bytes} {s s' : State} {r : Except Bytes Unit}
    (h : osdPkgFetch host name tartmp s = (r, s')) :
    s.tree.Le s'.tree ∧ s'.calls = s.calls + 1 ∧
      (∀ e, r = .error e → s'.tree = s.tree ∧ ∀ tar, ¬ Delivered host name s tar) ∧
      (r = .ok () → ∃ tar, host.fetch s.calls name = .ok tar ∧ archive s' = tar ∧
        s'.tree.file = Function.update s.tree.file tartmpRef.key (some tar) ∧
        fetchedTree s tar = some s'.tree) := by
  unfold osdPkgFetch at h
  split at h
  · rename_i e he
    obtain ⟨rfl, rfl⟩ := Prod.mk.inj h
    refine ⟨FileTree.Le.refl _, rfl, fun _ _ => ⟨rfl, fun tar htar => ?_⟩, fun hr => by simp at hr⟩
    have hok := htar.1
    rw [he] at hok
    simp at hok
  · rename_i tar htar
    split at h
    · rename_i t ht
      obtain ⟨rfl, rfl⟩ := Prod.mk.inj h
      obtain ⟨k, hk, hle, hfile, -⟩ := putPath_eq_some ht
      obtain rfl : tartmpRef.key = k := by simpa [keyOf, fileRef_tartmp] using hk
      rw [FileTree.file_mkdirs] at hfile
      refine ⟨(s.tree.le_mkdirs _).trans hle, rfl, fun e he => by simp at he, fun _ => ?_⟩
      exact ⟨tar, htar, by simp [archive, hfile], hfile, ht⟩
    · rename_i hnone
      obtain ⟨rfl, rfl⟩ := Prod.mk.inj h
      refine ⟨FileTree.Le.refl _, rfl, fun _ _ => ⟨rfl, fun tar' htar' => ?_⟩,
        fun hr => by simp at hr⟩
      obtain rfl : tar = tar' := Except.ok.inj (htar.symm.trans htar'.1)
      rw [Delivered, fetchedTree, hnone] at htar'
      simp at htar'

theorem tarExtract_spec {s s' : State} {r : Option (Bytes × Option Bytes)}
    (h : tarExtract tartmp s = (r, s')) :
    ∃ ms, ms <+: members (archive s) ∧ s.tree.Le s'.tree ∧ s'.calls = s.calls ∧
      s'.tree.file = writeAll s.tree.file ms ∧
      (∀ m ∈ ms, (readPath s'.tree (absPath m.1)).isSome) ∧
      ∀ out, r = some out → out.1 = unlines nl (ms.map fun m => fileLine m.1) ∧
        ∀ d, out.2 = some d → 0 ∉ d := by
  unfold tarExtract at h
  rw [fileRef_tartmp, readPath_tartmp] at h
  cases hfile : s.tree.file tartmpRef.key with
  | none =>
    rw [hfile] at h
    obtain ⟨rfl, rfl⟩ := Prod.mk.inj h
    exact ⟨[], List.nil_prefix, FileTree.Le.refl _, rfl, rfl, by simp, by simp⟩
  | some content =>
    rw [hfile] at h
    have hnow : archiveNow tartmpRef s = content := by rw [archiveNow, hfile, Option.getD_some]
    obtain ⟨ms, hpre, hle, hcalls, hwritten, hread, hout⟩ :=
      tarLoop_spec (Or.inl hnow) (by simp) h
    refine ⟨ms, ?_, hle, hcalls, hwritten, hread, hout⟩
    rw [members, archive, hfile, Option.getD_some]
    exact hpre

/-- What extraction returns and leaves, where the archive can be extracted and no member is the
archive itself. -/
theorem tarExtract_of_extracts {s : State} {t : FileTree Bytes Bytes} {content : Bytes}
    (hfile : s.tree.file tartmpRef.key = some content)
    (hno : ∀ m ∈ members content, keyOf (absPath m.1) ≠ some tartmpRef.key)
    (hc : Complete content) (ht : writeMembers s.tree (members content) = some t) :
    tarExtract tartmp s
      = (some (unlines nl ((members content).map fun m => fileLine m.1), pkginfoOf content),
        { s with tree := t }) := by
  have hnow : archiveNow tartmpRef s = content := by rw [archiveNow, hfile, Option.getD_some]
  unfold tarExtract
  rw [fileRef_tartmp, readPath_tartmp, hfile]
  exact tarLoop_of_extracts hnow hno hc ht

/-- **Extraction returns** exactly when the archive can be extracted, where no member is the
archive itself. -/
theorem tarExtract_isSome_iff {s : State} (hfile : (s.tree.file tartmpRef.key).isSome)
    (hno : ∀ m ∈ members (archive s), keyOf (absPath m.1) ≠ some tartmpRef.key) :
    (tarExtract tartmp s).1.isSome ↔ Extracts s.tree (archive s) := by
  obtain ⟨content, hcontent⟩ := Option.isSome_iff_exists.mp hfile
  have harch : archive s = content := by rw [archive, hcontent, Option.getD_some]
  have hnow : archiveNow tartmpRef s = content := harch
  rw [harch] at hno ⊢
  unfold tarExtract
  rw [fileRef_tartmp, readPath_tartmp, hcontent]
  exact tarLoop_isSome_iff hnow hno

/-! ## `install_tar_file` -/

/-- The files once the members were written and the archive removed. -/
def afterExtract (f : List Bytes → Option Bytes) (ms : List (Bytes × Bytes)) :
    List Bytes → Option Bytes :=
  Function.update (writeAll f ms) tartmpRef.key none

/-- A text appended at a place. -/
def appendText (f : List Bytes → Option Bytes) (k : List Bytes) (text : Bytes) :
    List Bytes → Option Bytes :=
  Function.update f k (some ((f k).getD [] ++ text))

/-- A name recorded in the world, when asked for and not there yet. -/
def recordText (f : List Bytes → Option Bytes) (recordWorld : Bool) (name : Bytes) :
    List Bytes → Option Bytes :=
  if recordWorld = true ∧ inLines (textOf f worldRef.key) name = false then
    appendText f worldRef.key (name ++ [nl])
  else f

theorem not_mem_piGet {pi : Bytes} (h : 0 ∉ pi) (key : Bytes) :
    0 ∉ piGet pi key ∧ nl ∉ piGet pi key := by
  unfold piGet
  split
  · rename_i p hp
    have hmem : p ∈ lineStarts nl pi := List.mem_of_find?_eq_some hp
    constructor
    · intro h0
      have h0p : (0 : UInt8) ∈ p := List.mem_of_mem_drop ((List.takeWhile_subset _) h0)
      exact h ((suffix_of_mem_lineStarts nl hmem).subset h0p)
    · intro hnl
      simpa using List.mem_takeWhile_imp hnl
  · decide

theorem recordInWorld_spec {name : Bytes} {s s' : State} {r : Option Unit}
    (h : recordInWorld name s = (r, s')) :
    s.tree.Le s'.tree ∧ s'.calls = s.calls ∧
      (r = none → s'.tree.file = s.tree.file) ∧
      (r = some () → s'.tree.file = recordText s.tree.file true name) := by
  unfold recordInWorld at h
  rw [readFileOrEmpty_world] at h
  by_cases hin : inLines (textOf s.tree.file worldRef.key) name = true
  · rw [if_pos hin] at h
    obtain ⟨rfl, rfl⟩ := Prod.mk.inj h
    refine ⟨FileTree.Le.refl _, rfl, by simp, fun _ => ?_⟩
    rw [recordText, if_neg]
    rintro ⟨-, hout⟩
    rw [hin] at hout
    simp at hout
  · rw [if_neg hin] at h
    obtain ⟨hle, hcalls, hdied, hdone⟩ := appendFile_spec fileRef_world h
    refine ⟨hle, hcalls, hdied, fun hr => ?_⟩
    rw [hdone hr, recordText, if_pos ⟨rfl, by simpa using hin⟩, appendText]

theorem recordText_false (f : List Bytes → Option Bytes) (name : Bytes) :
    recordText f false name = f := by
  simp [recordText]

/-- The last step of `install_tar_file`. -/
private theorem recordStep_spec {name : Bytes} {recordWorld : Bool} {s s' : State}
    {r : Option Unit}
    (h : (if recordWorld = true then recordInWorld name s else (some (), s)) = (r, s')) :
    s.tree.Le s'.tree ∧ s'.calls = s.calls ∧
      (r = none → s'.tree.file = s.tree.file) ∧
      (r = some () → s'.tree.file = recordText s.tree.file recordWorld name) := by
  cases recordWorld with
  | false =>
    obtain ⟨rfl, rfl⟩ := Prod.mk.inj h
    exact ⟨FileTree.Le.refl _, rfl, by simp, fun _ => (recordText_false _ name).symm⟩
  | true => exact recordInWorld_spec h

/-- Every file after `install_tar_file` has returned. -/
def installed (f : List Bytes → Option Bytes) (ms : List (Bytes × Bytes)) (recordWorld : Bool)
    (name ver desc : Bytes) : List Bytes → Option Bytes :=
  recordText
    (appendText (afterExtract f ms) dbRef.key
      (stanzaText name ver desc (unlines nl (ms.map fun m => fileLine m.1))))
    recordWorld name

/-- How far an installation came: it died while extracting, at the database or at the world,
or it returned. -/
def InstallOutcome (f f' : List Bytes → Option Bytes) (ms : List (Bytes × Bytes))
    (recordWorld : Bool) (name ver desc : Bytes) : Option ℕ → Prop
  | none => f' = writeAll f ms ∨ f' = afterExtract f ms ∨ f' = installed f ms false name ver desc
  | some rc => rc = 0 ∧ f' = installed f ms recordWorld name ver desc

theorem afterExtract_of_forall_ne {ms : List (Bytes × Bytes)} {k : List Bytes}
    (hk : k ≠ tartmpRef.key) (h : ∀ m ∈ ms, keyOf (absPath m.1) ≠ some k)
    (f : List Bytes → Option Bytes) : afterExtract f ms k = f k := by
  rw [afterExtract, Function.update_of_ne hk, writeAll_of_forall_ne h]

section Outcome

variable {f f' : List Bytes → Option Bytes} {ms : List (Bytes × Bytes)} {recordWorld : Bool}
  {name ver desc : Bytes} {r : Option ℕ}

/-- Where no member is the database, it has gained the stanza, or the installation died. -/
theorem InstallOutcome.db (h : InstallOutcome f f' ms recordWorld name ver desc r)
    (hno : ∀ m ∈ ms, keyOf (absPath m.1) ≠ some dbRef.key) :
    (r = none ∧ f' dbRef.key = f dbRef.key) ∨
      f' dbRef.key = some ((f dbRef.key).getD [] ++
        stanzaText name ver desc (unlines nl (ms.map fun m => fileLine m.1))) := by
  have hextract := afterExtract_of_forall_ne dbRef_ne_tartmpRef hno f
  have hinstalled : ∀ w, installed f ms w name ver desc dbRef.key
      = some ((f dbRef.key).getD [] ++
        stanzaText name ver desc (unlines nl (ms.map fun m => fileLine m.1))) := by
    intro w
    rw [installed, recordText]
    split_ifs with hw
    · rw [appendText, Function.update_of_ne dbRef_ne_worldRef, appendText, Function.update_self,
        hextract]
    · rw [appendText, Function.update_self, hextract]
  cases r with
  | some rc => exact Or.inr (by rw [h.2, hinstalled])
  | none =>
    rcases h with rfl | rfl | rfl
    · exact Or.inl ⟨rfl, writeAll_of_forall_ne hno f⟩
    · exact Or.inl ⟨rfl, hextract⟩
    · exact Or.inr (hinstalled false)

/-- Where no member is the world, it has recorded the name if asked to, or the installation
died. -/
theorem InstallOutcome.world (h : InstallOutcome f f' ms recordWorld name ver desc r)
    (hno : ∀ m ∈ ms, keyOf (absPath m.1) ≠ some worldRef.key) :
    (r = none ∧ f' worldRef.key = f worldRef.key) ∨
      (r = some 0 ∧ f' worldRef.key = recordText f recordWorld name worldRef.key) := by
  have hextract := afterExtract_of_forall_ne worldRef_ne_tartmpRef hno f
  have hinstalled : ∀ w, installed f ms w name ver desc worldRef.key
      = recordText f w name worldRef.key := by
    intro w
    have happ : ∀ text, appendText (afterExtract f ms) dbRef.key text worldRef.key
        = f worldRef.key := fun text => by
      rw [appendText, Function.update_of_ne dbRef_ne_worldRef.symm, hextract]
    rw [installed, recordText, recordText, textOf, textOf, happ]
    split_ifs
    · rw [appendText, Function.update_self, happ, appendText, Function.update_self]
    · rw [happ]
  cases r with
  | some rc =>
    obtain ⟨rfl, rfl⟩ := h
    exact Or.inr ⟨rfl, hinstalled _⟩
  | none =>
    refine Or.inl ⟨rfl, ?_⟩
    rcases h with rfl | rfl | rfl
    · exact writeAll_of_forall_ne hno f
    · exact hextract
    · rw [hinstalled, recordText_false]

end Outcome

/-- The archive is unlinked. -/
theorem file_unlink_tartmp (t : FileTree Bytes Bytes) :
    (unlinkPath t tartmp).file = Function.update t.file tartmpRef.key none := by
  funext k
  by_cases hk : k = tartmpRef.key
  · rw [hk, ← readPath_tartmp, unlinkPath_eq fileRef_tartmp, readPath, fileRef_tartmp,
      Option.bind_some, FileTree.read_unlink_self, Function.update_self]
  · rw [file_unlinkPath_of_ne (by simpa [keyOf, fileRef_tartmp] using fun h => hk h.symm),
      Function.update_of_ne hk]

/-- `install_tar_file` once the archive is extracted. -/
theorem installTarFile_eq {name files : Bytes} {pkginfo : Option Bytes} {recordWorld : Bool}
    {s s1 : State} (hex : tarExtract tartmp s = (some (files, pkginfo), s1)) :
    installTarFile name recordWorld s =
      (appendFile dbPath (stanzaText name (piGet (pkginfo.getD []) (ascii "pkgver"))
          (piGet (pkginfo.getD []) (ascii "pkgdesc")) files)
        { s1 with tree := unlinkPath s1.tree tartmp }).andThen fun _ s =>
        (if recordWorld then recordInWorld name s else (some (), s)).andThen fun _ s =>
          (some 0, s.say (ascii "OK: " ++ name ++ ascii " installed" ++ [nl])) := by
  rw [installTarFile, hex]
  rfl

/-- What an installation that returns has written, once the archive was extracted. -/
theorem installTarFile_files {name files : Bytes} {pkginfo : Option Bytes} {recordWorld : Bool}
    {s s1 s' : State} (hex : tarExtract tartmp s = (some (files, pkginfo), s1))
    (h : installTarFile name recordWorld s = (some 0, s')) :
    s'.calls = s1.calls ∧ s'.tree.file = recordText
      (appendText (Function.update s1.tree.file tartmpRef.key none) dbRef.key
        (stanzaText name (piGet (pkginfo.getD []) (ascii "pkgver"))
          (piGet (pkginfo.getD []) (ascii "pkgdesc")) files)) recordWorld name := by
  rw [installTarFile_eq hex] at h
  rcases happ : appendFile dbPath (stanzaText name (piGet (pkginfo.getD []) (ascii "pkgver"))
      (piGet (pkginfo.getD []) (ascii "pkgdesc")) files)
      { s1 with tree := unlinkPath s1.tree tartmp } with ⟨_ | ⟨⟩, s2⟩
  · rw [happ, Result.andThen_none] at h
    simp at h
  · obtain ⟨-, hcalls2, -, hdone⟩ := appendFile_spec fileRef_db happ
    rw [happ, Result.andThen_some] at h
    rcases hrec : (if recordWorld = true then recordInWorld name s2 else (some (), s2))
        with ⟨_ | ⟨⟩, s3⟩
    · rw [hrec, Result.andThen_none] at h
      simp at h
    · obtain ⟨-, hcalls3, -, hdone3⟩ := recordStep_spec hrec
      rw [hrec, Result.andThen_some] at h
      obtain ⟨-, rfl⟩ := Prod.mk.inj h
      refine ⟨hcalls3.trans hcalls2, ?_⟩
      rw [State.say_tree, hdone3 rfl, hdone rfl, file_unlink_tartmp, appendText]

/-- **`install_tar_file`** writes members of the archive, removes it, appends the stanza and
records the name; it can die before each of these, and then the later ones have not happened. -/
theorem installTarFile_spec {name : Bytes} {recordWorld : Bool} {s s' : State} {r : Option ℕ}
    (h : installTarFile name recordWorld s = (r, s')) :
    ∃ ms ver desc, ms <+: members (archive s) ∧ (0 ∉ ver ∧ nl ∉ ver) ∧ (0 ∉ desc ∧ nl ∉ desc) ∧
      s'.calls = s.calls ∧
      (∀ q, keyOf q ≠ some tartmpRef.key → (readPath s.tree q).isSome →
        (readPath s'.tree q).isSome) ∧
      (∀ m ∈ ms, keyOf (absPath m.1) ≠ some tartmpRef.key →
        (readPath s'.tree (absPath m.1)).isSome) ∧
      InstallOutcome s.tree.file s'.tree.file ms recordWorld name ver desc r := by
  unfold installTarFile at h
  rcases hex : tarExtract tartmp s with ⟨_ | ⟨files, pkginfo⟩, s1⟩
  · -- died while extracting
    obtain ⟨ms, hpre, hle, hcalls, hfile, hread, -⟩ := tarExtract_spec hex
    rw [hex, Result.andThen_none] at h
    obtain ⟨rfl, rfl⟩ := Prod.mk.inj h
    exact ⟨ms, [], [], hpre, by simp, by simp, hcalls,
      fun q _ hq => readPath_isSome_of_le hle hq, fun m hm _ => hread m hm, Or.inl hfile⟩
  · obtain ⟨ms, hpre, hle, hcalls, hfile, hread, hout⟩ := tarExtract_spec hex
    obtain ⟨rfl, hnul⟩ := hout _ rfl
    have hpi : 0 ∉ pkginfo.getD [] := by
      cases pkginfo with
      | none => simp
      | some d => exact hnul d rfl
    rw [hex, Result.andThen_some] at h
    simp only at h
    -- the archive goes
    have hgone : (unlinkPath s1.tree tartmp).file = afterExtract s.tree.file ms := by
      rw [file_unlink_tartmp, hfile, afterExtract]
    have hkeep : ∀ q, keyOf q ≠ some tartmpRef.key →
        readPath (unlinkPath s1.tree tartmp) q = readPath s1.tree q := fun q hq =>
      readPath_unlinkPath_of_ne (Or.inr (by simpa [keyOf, fileRef_tartmp] using hq)) _
    rcases happ : appendFile dbPath (stanzaText name (piGet (pkginfo.getD []) (ascii "pkgver"))
        (piGet (pkginfo.getD []) (ascii "pkgdesc")) (unlines nl (ms.map fun m => fileLine m.1)))
        { s1 with tree := unlinkPath s1.tree tartmp } with ⟨_ | ⟨⟩, s2⟩
    · -- died at the database
      obtain ⟨hle2, hcalls2, hsame, -⟩ := appendFile_spec fileRef_db happ
      rw [happ, Result.andThen_none] at h
      obtain ⟨rfl, rfl⟩ := Prod.mk.inj h
      refine ⟨ms, _, _, hpre, not_mem_piGet hpi (ascii "pkgver"), not_mem_piGet hpi (ascii "pkgdesc"),
        hcalls2.trans hcalls, fun q hq hr => ?_, fun m hm hq => ?_,
        Or.inr (Or.inl ((hsame rfl).trans hgone))⟩
      · exact readPath_isSome_of_le hle2 (by rw [hkeep q hq]; exact readPath_isSome_of_le hle hr)
      · exact readPath_isSome_of_le hle2 (by rw [hkeep _ hq]; exact hread m hm)
    · obtain ⟨hle2, hcalls2, -, hdone⟩ := appendFile_spec fileRef_db happ
      have hdb := hdone rfl
      rw [hgone] at hdb
      rw [happ, Result.andThen_some] at h
      rcases hrec : (if recordWorld = true then recordInWorld name s2 else (some (), s2))
          with ⟨r3, s3⟩
      obtain ⟨hle3, hcalls3, hsame3, hdone3⟩ := recordStep_spec hrec
      have hle23 := hle2.trans hle3
      rw [hrec] at h
      have hs' : s'.tree = s3.tree ∧ s'.calls = s3.calls ∧ r = r3.map fun _ => 0 := by
        cases r3 with
        | none =>
          obtain ⟨rfl, rfl⟩ := Prod.mk.inj h
          exact ⟨rfl, rfl, rfl⟩
        | some u =>
          obtain ⟨rfl, rfl⟩ := Prod.mk.inj h
          exact ⟨rfl, rfl, rfl⟩
      obtain ⟨htree, hcalls', rfl⟩ := hs'
      refine ⟨ms, _, _, hpre, not_mem_piGet hpi (ascii "pkgver"), not_mem_piGet hpi (ascii "pkgdesc"),
        hcalls'.trans (hcalls3.trans (hcalls2.trans hcalls)), fun q hq hr => ?_, fun m hm hq => ?_,
        ?_⟩
      · rw [htree]
        exact readPath_isSome_of_le hle23 (by rw [hkeep q hq]; exact readPath_isSome_of_le hle hr)
      · rw [htree]
        exact readPath_isSome_of_le hle23 (by rw [hkeep _ hq]; exact hread m hm)
      · cases r3 with
        | none =>
          refine Or.inr (Or.inr ?_)
          rw [htree, hsame3 rfl, hdb, installed, recordText_false, appendText]
        | some u =>
          refine ⟨rfl, ?_⟩
          rw [htree, hdone3 rfl, hdb, installed, appendText]

/-- A file that is there can be opened for writing. -/
theorem open_of_file {t : FileTree Bytes Bytes} {ref : FileRef Bytes} (hup : Seg.up ∉ ref.dir)
    (h : (t.file ref.key).isSome) : t.Open ref :=
  FileTree.open_of_read (by rwa [t.read_eq_file hup])

theorem file_isSome_of_le {t t' : FileTree Bytes Bytes} {ref : FileRef Bytes}
    (hup : Seg.up ∉ ref.dir) (hle : t.Le t') (h : (t.file ref.key).isSome) :
    (t'.file ref.key).isSome := by
  rw [← FileTree.read_eq_file _ hup] at h ⊢
  exact hle.read h

/-- Once the archive is extracted, an installation returns if the database can be opened, and
the world if it has to be. -/
theorem installTarFile_isSome {name : Bytes} {recordWorld : Bool} {s s1 : State}
    {out : Bytes × Option Bytes} (hex : tarExtract tartmp s = (some out, s1))
    (hdb : ((unlinkPath s1.tree tartmp).mkdirs dbRef.dir).Open dbRef)
    (hworld : recordWorld = true → (s.tree.file worldRef.key).isSome) :
    (installTarFile name recordWorld s).1 = some 0 := by
  obtain ⟨files, pkginfo⟩ := out
  obtain ⟨-, -, hle, -⟩ := tarExtract_spec hex
  rw [← dirname_db] at hdb
  have happ := appendFile_isSome (s := { s1 with tree := unlinkPath s1.tree tartmp }) fileRef_db hdb
    (stanzaText name (piGet (pkginfo.getD []) (ascii "pkgver"))
      (piGet (pkginfo.getD []) (ascii "pkgdesc")) files)
  rw [installTarFile, hex, Result.andThen_some]
  simp only
  rcases happ' : appendFile dbPath (stanzaText name (piGet (pkginfo.getD []) (ascii "pkgver"))
      (piGet (pkginfo.getD []) (ascii "pkgdesc")) files)
      { s1 with tree := unlinkPath s1.tree tartmp } with ⟨r2, s2⟩
  rw [happ'] at happ
  obtain ⟨hle2, -⟩ := appendFile_spec fileRef_db happ'
  obtain rfl : r2 = some () := happ
  rw [Result.andThen_some]
  cases recordWorld with
  | false => rfl
  | true =>
    have hw1 : (s1.tree.file worldRef.key).isSome :=
      file_isSome_of_le (by decide) hle (hworld rfl)
    have hw2 : (s2.tree.file worldRef.key).isSome := by
      refine file_isSome_of_le (by decide) hle2 ?_
      rwa [file_unlinkPath_of_ne
        (by simpa [keyOf, fileRef_tartmp] using worldRef_ne_tartmpRef.symm)]
    have hopen : s2.tree.Open worldRef := open_of_file (by decide) hw2
    have hrec : (recordInWorld name s2).1 = some () := by
      unfold recordInWorld
      split_ifs
      · rfl
      · refine appendFile_isSome fileRef_world ?_ _
        rwa [dirname_world, FileTree.mkdirs_of_open hopen]
    rcases hrec' : recordInWorld name s2 with ⟨r3, s3⟩
    rw [hrec'] at hrec
    obtain rfl : r3 = some () := hrec
    simp

/-! ## `do_add` and `do_del` -/

/-- **`do_add`** finds the name, or fetches and installs it. -/
theorem doAdd_cases {host : Host} {recordWorld : Bool} {name : Bytes} {s s' : State}
    {r : Option ℕ} (h : doAdd host recordWorld name s = (r, s')) :
    ((findSub (probe name) (textOf s.tree.file dbRef.key)).isSome ∧ r = some 0 ∧
      s'.tree = s.tree ∧ s'.calls = s.calls) ∨
    (findSub (probe name) (textOf s.tree.file dbRef.key) = none ∧
      ((r = some 1 ∧ s'.tree = s.tree ∧ s'.calls = s.calls + 1) ∨
        ∃ tar mid, host.fetch s.calls name = .ok tar ∧ archive mid = tar ∧
          s.tree.Le mid.tree ∧ mid.calls = s.calls + 1 ∧
          mid.tree.file = Function.update s.tree.file tartmpRef.key (some tar) ∧
          fetchedTree s tar = some mid.tree ∧
          installTarFile name recordWorld mid = (r, s'))) := by
  unfold doAdd at h
  rw [readFileOrEmpty_db] at h
  cases hfind : findSub (probe name) (textOf s.tree.file dbRef.key) with
  | some hit =>
    rw [hfind] at h
    obtain ⟨rfl, rfl⟩ := Prod.mk.inj h
    exact Or.inl ⟨rfl, rfl, rfl, rfl⟩
  | none =>
    refine Or.inr ⟨rfl, ?_⟩
    rw [hfind] at h
    simp only at h
    rcases hfetch : osdPkgFetch host name tartmp
        (s.say (ascii "(1/1) Installing " ++ name ++ ascii "..." ++ [nl])) with ⟨_ | ⟨⟩, mid⟩
    · obtain ⟨-, hcalls, hsame, -⟩ := osdPkgFetch_spec hfetch
      rw [hfetch] at h
      obtain ⟨rfl, rfl⟩ := Prod.mk.inj h
      exact Or.inl ⟨rfl, (hsame _ rfl).1, hcalls⟩
    · obtain ⟨hle, hcalls, -, hok⟩ := osdPkgFetch_spec hfetch
      rw [hfetch] at h
      obtain ⟨tar, htar, harch, hfile, htree⟩ := hok rfl
      exact Or.inr ⟨tar, mid, htar, harch, hle, hcalls, hfile, htree, h⟩

/-- The stanza found for a name, and what stands around it. -/
def located (db name : Bytes) : Option (Bytes × Bytes × Bytes) :=
  (findSub (probe name) db).map fun hit => (hit.1, cutStanza hit.2)

/-- The paths `do_del` unlinks for a stanza text. -/
def doomed (host : Host) (stanza : Bytes) : List Bytes :=
  (filePaths stanza).map (absolutize host.cwd)

/-- A place whose text is not empty is open. -/
private theorem open_of_textOf {t : FileTree Bytes Bytes} {ref : FileRef Bytes}
    (hup : Seg.up ∉ ref.dir) (h : textOf t.file ref.key ≠ []) : t.Open ref := by
  refine FileTree.open_of_read ?_
  rw [t.read_eq_file hup]
  cases hf : t.file ref.key with
  | none => simp [textOf, hf, cstr] at h
  | some b => rfl

theorem ne_nil_of_findSub {needle text : Bytes} (hn : needle ≠ [])
    (h : (findSub needle text).isSome) : text ≠ [] := by
  rintro rfl
  simp [findSub, hn] at h

theorem forgetInWorld_spec (name : Bytes) (s : State) :
    ∃ s', forgetInWorld name s = (some (), s') ∧ s.tree.Le s'.tree ∧ s'.calls = s.calls ∧
      s'.tree.file = match dropFromWorld (textOf s.tree.file worldRef.key) name with
        | none => s.tree.file
        | some w => Function.update s.tree.file worldRef.key (some w) := by
  unfold forgetInWorld
  rw [readFileOrEmpty_world]
  cases hdrop : dropFromWorld (textOf s.tree.file worldRef.key) name with
  | none => exact ⟨s, rfl, FileTree.Le.refl _, rfl, rfl⟩
  | some w =>
    have hfind : (findSub (name ++ [nl]) (textOf s.tree.file worldRef.key)).isSome := by
      unfold dropFromWorld at hdrop
      cases hf : findSub (name ++ [nl]) (textOf s.tree.file worldRef.key) with
      | none => simp [hf] at hdrop
      | some hit => rfl
    have hopen : s.tree.Open worldRef :=
      open_of_textOf (by decide) (ne_nil_of_findSub (by simp) hfind)
    exact writeFile_of_open fileRef_world dirname_world hopen w

/-- **`do_del`** never dies: it finds no stanza, or unlinks its files, rewrites the database
without it and drops the name from the world. -/
theorem doDel_cases {host : Host} {name : Bytes} {s s' : State} {r : Option ℕ}
    (h : doDel host name s = (r, s')) :
    s'.calls = s.calls ∧
    ((located (textOf s.tree.file dbRef.key) name = none ∧ r = some 1 ∧ s'.tree = s.tree) ∨
    ∃ before stanza after,
      located (textOf s.tree.file dbRef.key) name = some (before, stanza, after) ∧
      r = some 0 ∧ ((doomed host stanza).foldl unlinkPath s.tree).Le s'.tree ∧
      ∃ f, f = Function.update ((doomed host stanza).foldl unlinkPath s.tree).file dbRef.key
          (some (before ++ after)) ∧
        s'.tree.file = match dropFromWorld (textOf f worldRef.key) name with
          | none => f
          | some w => Function.update f worldRef.key (some w)) := by
  unfold doDel at h
  rw [readFileOrEmpty_db] at h
  cases hfind : findSub (probe name) (textOf s.tree.file dbRef.key) with
  | none =>
    rw [hfind] at h
    obtain ⟨rfl, rfl⟩ := Prod.mk.inj h
    exact ⟨rfl, Or.inl ⟨by rw [located, hfind]; rfl, rfl, rfl⟩⟩
  | some hit =>
    obtain ⟨before, st⟩ := hit
    rcases hcut : cutStanza st with ⟨stanza, after⟩
    simp only [hfind, hcut] at h
    have hprobe : probe name ≠ [] := by simp [probe]
    -- a database with a hit in it is a file, so that it can be opened for writing
    have hopen : s.tree.Open dbRef :=
      open_of_textOf (by decide) (ne_nil_of_findSub hprobe (by rw [hfind]; rfl))
    have hopen' := (foldl_unlinkPath (doomed host stanza) s.tree).2.2 dbRef hopen
    obtain ⟨s2, hwrite, hle2, hcalls2, hfile2⟩ := writeFile_of_open
      (s := { s with tree := (doomed host stanza).foldl unlinkPath s.tree })
      fileRef_db dirname_db hopen' (before ++ after)
    obtain ⟨s3, hforget, hle3, hcalls3, hfile3⟩ := forgetInWorld_spec name s2
    rw [doomed] at hwrite
    rw [hwrite, Result.andThen_some, hforget, Result.andThen_some] at h
    obtain ⟨rfl, rfl⟩ := Prod.mk.inj h
    refine ⟨hcalls3.trans hcalls2, Or.inr ⟨before, stanza, after, ?_, rfl, hle2.trans hle3, _,
      hfile2, hfile3⟩⟩
    rw [located, hfind, Option.map_some, hcut]

/-- What only prints and counts changes no file. -/
theorem andThen_tree {α β : Type} {r : Result α} {f : α → State → Result β}
    (hf : ∀ a s, (f a s).2.tree = s.tree) : (r.andThen f).2.tree = r.2.tree := by
  rcases r with ⟨_ | a, mid⟩
  · rfl
  · exact hf a mid

/-- Two computations that agree on the files go on to agree. -/
theorem andThen_congr {α β : Type} {r r' : Result α} {f : α → State → Result β}
    (hr : r.1 = r'.1 ∧ r.2.tree = r'.2.tree)
    (hf : ∀ a s s', s.tree = s'.tree → (f a s).2.tree = (f a s').2.tree) :
    (r.andThen f).2.tree = (r'.andThen f).2.tree := by
  obtain ⟨v, s⟩ := r
  obtain ⟨v', s'⟩ := r'
  obtain ⟨rfl, htree⟩ := hr
  cases v with
  | none => exact htree
  | some a => exact hf a s s' htree

theorem writeFile_congr {s s' : State} (h : s.tree = s'.tree) (path text : Bytes) :
    (writeFile path text s).1 = (writeFile path text s').1 ∧
      (writeFile path text s).2.tree = (writeFile path text s').2.tree := by
  unfold writeFile
  rw [h]
  simp only
  split
  · exact ⟨rfl, rfl⟩
  · exact ⟨rfl, rfl⟩

theorem forgetInWorld_congr {s s' : State} (h : s.tree = s'.tree) (name : Bytes) :
    (forgetInWorld name s).1 = (forgetInWorld name s').1 ∧
      (forgetInWorld name s).2.tree = (forgetInWorld name s').2.tree := by
  unfold forgetInWorld readFileOrEmpty
  rw [h]
  split
  · exact ⟨rfl, h⟩
  · exact writeFile_congr h _ _

/-- What a removal does to the files depends on the files only. -/
theorem doDel_congr {s s' : State} (h : s.tree = s'.tree) (host : Host) (name : Bytes) :
    (doDel host name s).2.tree = (doDel host name s').2.tree := by
  unfold doDel readFileOrEmpty
  rw [h]
  split
  · exact h
  · refine andThen_congr ?_ fun _ s1 s2 h12 => ?_
    · exact writeFile_congr (by rfl) _ _
    · exact andThen_congr (forgetInWorld_congr h12 name) fun _ s3 s4 h34 => h34

/-- A removal does not change the waiting archive, except by unlinking it. -/
theorem file_tartmp_doDel {host : Host} {name : Bytes} {s s' : State} {r : Option ℕ}
    (h : doDel host name s = (r, s')) :
    s'.tree.file tartmpRef.key = s.tree.file tartmpRef.key ∨ s'.tree.file tartmpRef.key = none := by
  obtain ⟨-, ⟨-, -, htree⟩ | ⟨before, stanza, after, -, -, -, f, rfl, hfile⟩⟩ := doDel_cases h
  · exact Or.inl (by rw [htree])
  · have hkeep : s'.tree.file tartmpRef.key
        = ((doomed host stanza).foldl unlinkPath s.tree).file tartmpRef.key := by
      rw [hfile]
      split
      · rw [Function.update_of_ne dbRef_ne_tartmpRef.symm]
      · rw [Function.update_of_ne worldRef_ne_tartmpRef.symm,
          Function.update_of_ne dbRef_ne_tartmpRef.symm]
    rw [hkeep]
    exact file_foldl_unlinkPath (doomed host stanza) s.tree tartmpRef.key

theorem archive_doDel {host : Host} {name : Bytes} {s s' : State} {r : Option ℕ}
    (h : doDel host name s = (r, s')) : archive s' = archive s ∨ archive s' = [] := by
  rcases file_tartmp_doDel h with heq | heq
  · exact Or.inl (by rw [archive, heq, archive])
  · exact Or.inr (by rw [archive, heq]; rfl)

/-! ## One line of `upgrade` -/

/-- The new archive of a package survives the removal of the old version and can be extracted
then, and no member of it is the archive itself. -/
def Reinstallable (host : Host) (name : Bytes) (s : State) (tar : Bytes) : Prop :=
  (∀ m ∈ members tar, keyOf (absPath m.1) ≠ some tartmpRef.key) ∧
  ∀ mid : State, fetchedTree s tar = some mid.tree →
    (doDel host name mid).2.tree.file tartmpRef.key = some tar ∧
      Extracts (doDel host name mid).2.tree tar

/-- A database that is there is still there when more files have been written and the archive is
gone, and its directory too. -/
theorem open_dbRef_of_le {t t' : FileTree Bytes Bytes} (hle : t.Le t')
    (hdb : (t.file dbRef.key).isSome) : (unlinkPath t' tartmp).Open dbRef := by
  have hdb' : ((unlinkPath t' tartmp).file dbRef.key).isSome := by
    rw [file_unlinkPath_of_ne (by simpa [keyOf, fileRef_tartmp] using dbRef_ne_tartmpRef.symm)]
    exact file_isSome_of_le (by decide) hle hdb
  exact open_of_file (by decide) hdb'

/-- After the removal such an archive is installed, if the database and the world are there. -/
theorem Reinstallable.install {host : Host} {name : Bytes} {s mid s1 : State} {tar : Bytes}
    {rd : Option ℕ} (h : Reinstallable host name s tar) (hmid : fetchedTree s tar = some mid.tree)
    (hdel : doDel host name mid = (rd, s1)) (hdb : (s1.tree.file dbRef.key).isSome)
    (hworld : (s1.tree.file worldRef.key).isSome) :
    (installTarFile name true s1).1 = some 0 := by
  obtain ⟨hno, hafter⟩ := h
  obtain ⟨hfile, hextracts⟩ := hafter mid hmid
  rw [hdel] at hfile hextracts
  have harch : archive s1 = tar := by rw [archive, hfile, Option.getD_some]
  have hsome : (tarExtract tartmp s1).1.isSome := by
    refine (tarExtract_isSome_iff (by rw [hfile]; rfl) ?_).mpr ?_
    · rwa [harch]
    · rwa [harch]
  rcases hex : tarExtract tartmp s1 with ⟨_ | out, s2⟩
  · simp [hex] at hsome
  · obtain ⟨-, -, hle, -⟩ := tarExtract_spec hex
    refine installTarFile_isSome hex ?_ fun _ => hworld
    have hopen := open_dbRef_of_le hle hdb
    rwa [FileTree.mkdirs_of_open hopen]

/-- The versions the index and the database give for a name call for an upgrade. -/
def Outdated (ix db line : Bytes) : Prop :=
  ∃ iv dv, indexVer ix line = some iv ∧ dbVer db line = some dv ∧ iv.head? ≠ some 63 ∧ iv ≠ dv

/-- **A line of `upgrade`** does nothing, fails to fetch and changes no file, or fetches,
removes the old version and installs the new one. -/
theorem upgradeLine_cases {host : Host} {ix db line : Bytes} {s s' : State} {r : Option (ℕ × ℕ)}
    (h : upgradeLine host ix db line s = (r, s')) :
    (¬ Outdated ix db line ∧ r = some (0, 0) ∧ s' = s) ∨
    (Outdated ix db line ∧
      (((∀ tar, ¬ Delivered host line s tar) ∧ r = some (1, 0) ∧ s'.tree = s.tree ∧
          s'.calls = s.calls + 1) ∨
        ∃ tar mid rd s1 ri, host.fetch s.calls line = .ok tar ∧ archive mid = tar ∧
          s.tree.Le mid.tree ∧ mid.calls = s.calls + 1 ∧
          mid.tree.file = Function.update s.tree.file tartmpRef.key (some tar) ∧
          fetchedTree s tar = some mid.tree ∧
          doDel host line mid = (some rd, s1) ∧ installTarFile line true s1 = (ri, s') ∧
          r = ri.map fun rc => (rc, 1))) := by
  unfold upgradeLine at h
  cases hiv : indexVer ix line with
  | none =>
    simp only [hiv] at h
    obtain ⟨rfl, rfl⟩ := Prod.mk.inj h
    exact Or.inl ⟨fun ⟨iv, dv, h1, _⟩ => by simp [hiv] at h1, rfl, rfl⟩
  | some iv =>
    cases hdv : dbVer db line with
    | none =>
      simp only [hiv, hdv] at h
      obtain ⟨rfl, rfl⟩ := Prod.mk.inj h
      exact Or.inl ⟨fun ⟨iv, dv, _, h2, _⟩ => by simp [hdv] at h2, rfl, rfl⟩
    | some dv =>
      simp only [hiv, hdv] at h
      by_cases hdiff : iv.head? ≠ some 63 ∧ iv ≠ dv
      · rw [if_pos hdiff] at h
        refine Or.inr ⟨⟨iv, dv, hiv, hdv, hdiff⟩, ?_⟩
        rcases hfetch : osdPkgFetch host line tartmp (s.say (ascii "(1/1) Upgrading " ++ line ++
            [32] ++ dv ++ ascii " -> " ++ iv ++ ascii "..." ++ [nl])) with ⟨e | u, mid⟩
        · obtain ⟨-, hcalls, hsame, -⟩ := osdPkgFetch_spec hfetch
          rw [hfetch] at h
          obtain ⟨rfl, rfl⟩ := Prod.mk.inj h
          exact Or.inl ⟨(hsame e rfl).2, rfl, (hsame e rfl).1, hcalls⟩
        · obtain ⟨hle, hcalls, -, hok⟩ := osdPkgFetch_spec hfetch
          obtain ⟨tar, htar, harch, hfile, htree⟩ := hok rfl
          rw [hfetch] at h
          simp only at h
          rcases hdel : doDel host line mid with ⟨rd, s1⟩
          -- `do_del` does not die, and its status is not looked at
          have hrd : ∃ n, rd = some n := by
            obtain ⟨-, ⟨-, hr, -⟩ | ⟨_, _, _, -, hr, -⟩⟩ := doDel_cases hdel
            · exact ⟨1, hr⟩
            · exact ⟨0, hr⟩
          obtain ⟨rd, rfl⟩ := hrd
          rw [hdel, Result.andThen_some] at h
          rcases hinst : installTarFile line true s1 with ⟨ri, s2⟩
          refine Or.inr ⟨tar, mid, rd, s1, ri, htar, harch, hle, hcalls, hfile, htree, hdel, ?_, ?_⟩
          · rw [hinst]
            rw [hinst] at h
            cases ri <;> exact Prod.ext rfl (Prod.mk.inj h).2
          · rw [hinst] at h
            cases ri <;> exact (Prod.mk.inj h).1.symm
      · rw [if_neg hdiff] at h
        obtain ⟨rfl, rfl⟩ := Prod.mk.inj h
        refine Or.inl ⟨?_, rfl, rfl⟩
        rintro ⟨iv', dv', h1, h2, h3⟩
        rw [hiv] at h1
        rw [hdv] at h2
        obtain rfl := Option.some.inj h1
        obtain rfl := Option.some.inj h2
        exact hdiff h3

end OsMoap.Apk
