import OsMoap.Lib.FileTree
import OsMoap.Lib.Lines
import OsMoap.Pack.PyText
import Mathlib.Data.List.TakeWhile

/-!
# `apk`: the Archive Reader

`guest/busybox/upstream/miscutils/apk.c`, the extraction half: `oct` and `tar_extract`.
A state is the shared file tree, the number of host calls made and what was printed; a
function returns `none` for its value when the applet has died, and the state it died in.

The archive is read through an open descriptor, so each header is looked up in what the file
holds at that moment: a member that names the archive itself cuts it short.  `members` is
what the archive holds on its own, and `tarLoop_spec` says that extraction works through it
from the front: it writes those paths only and records each one it wrote.
-/

namespace OsMoap.Apk

open OsMoap.Lib
open OsMoap.Pack (Bytes)

/-! ## Text and paths -/

/-- The bytes of an ASCII literal. -/
def ascii (s : String) : Bytes := s.toList.map fun c => UInt8.ofNat c.toNat

def nl : UInt8 := 10

def slash : UInt8 := 47

/-- A C string: what stands before the first NUL. -/
def cstr (b : Bytes) : Bytes := b.takeWhile (· ≠ 0)

/-- One component of a path text. -/
def segOf (c : Bytes) : Seg Bytes :=
  if c = [] ∨ c = ascii "." then .here else if c = ascii ".." then .up else .name c

/-- The file an absolute path text names; `none` when it can only name a directory. -/
def fileRef (path : Bytes) : Option (FileRef Bytes) :=
  let segs := (path.splitOn slash).map segOf
  match segs.getLast? with
  | some (.name c) => some ⟨segs.dropLast, c⟩
  | _ => none

/-- `dirname`: without trailing slashes and the last component. -/
def dirname (path : Bytes) : List (Seg Bytes) :=
  (((path.splitOn slash).reverse.dropWhile fun c => c = []).drop 1).reverse.map segOf

/-! ## State -/

/-- The shared file tree, the host calls made so far, and the console. -/
structure State where
  tree : FileTree Bytes Bytes
  calls : ℕ
  log : Bytes

/-- A value, or `none` when the applet died, and the state it leaves. -/
abbrev Result (α : Type) := Option α × State

/-- Go on with the value, unless the applet has died. -/
def Result.andThen {α β : Type} (r : Result α) (f : α → State → Result β) : Result β :=
  match r with
  | (none, s) => (none, s)
  | (some a, s) => f a s

@[simp]
theorem Result.andThen_none {α β : Type} (s : State) (f : α → State → Result β) :
    Result.andThen (none, s) f = (none, s) := rfl

@[simp]
theorem Result.andThen_some {α β : Type} (a : α) (s : State) (f : α → State → Result β) :
    Result.andThen (some a, s) f = f a s := rfl

def State.say (s : State) (text : Bytes) : State := { s with log := s.log ++ text }

@[simp]
theorem State.say_tree (s : State) (text : Bytes) : (s.say text).tree = s.tree := rfl

@[simp]
theorem State.say_calls (s : State) (text : Bytes) : (s.say text).calls = s.calls := rfl

/-- `bb_error_msg_and_die`. -/
def die {α : Type} (s : State) (msg : Bytes) : Result α :=
  (none, s.say (ascii "apk: " ++ msg ++ [nl]))

/-- `xopen` of a path that cannot be opened. -/
def cantOpen {α : Type} (s : State) (path : Bytes) : Result α :=
  die s (ascii "can't open '" ++ path ++ ascii "'")

/-- The content of an open path. -/
def readPath (t : FileTree Bytes Bytes) (path : Bytes) : Option Bytes :=
  (fileRef path).bind t.read

/-- Open for writing and store `f` of the old content. -/
def putPath (t : FileTree Bytes Bytes) (path : Bytes) (f : Option Bytes → Bytes) :
    Option (FileTree Bytes Bytes) :=
  (fileRef path).bind fun r => t.put r f

/-- The place a path text names. -/
def keyOf (path : Bytes) : Option (List Bytes) := (fileRef path).map FileRef.key

/-! ## `tar_extract` -/

/-- `oct`: the octal digits before the first NUL, in 32-bit arithmetic. -/
def oct (p : Bytes) : ℕ :=
  (cstr p).foldl
    (fun v c => if 48 ≤ c ∧ c ≤ 55 then (v * 8 + (c.toNat - 48)) % 2 ^ 32 else v) 0

/-- What the loop of `tar_extract` makes of the header at an offset. -/
inductive TarStep where
  | stop
  | truncated
  | skip (next : ℕ)
  | pkginfo (data : Bytes) (next : ℕ)
  | member (name data : Bytes) (next : ℕ)

/-- Read the header at `off` and the data behind it.  A size of `2 ^ 32 - 1` makes `size + 1`
wrap to an allocation of nothing, and cannot be read either. -/
def tarStep (content : Bytes) (off : ℕ) : TarStep :=
  let hdr := (content.drop off).take 512
  -- a short read: the archive ends without its two empty blocks
  if hdr.length ≠ 512 then .stop
  -- the end-of-archive blocks
  else if hdr.head? = some 0 then .stop
  else
    let size := oct ((hdr.drop 124).take 12)
    let name := cstr (hdr.take 100)
    let pad := (512 - size % 512) % 512
    let data := (content.drop (off + 512)).take size
    -- the data of a member is read before its type is looked at
    if size + 1 = 2 ^ 32 ∨ data.length ≠ size then .truncated
    else
      let next := off + 512 + size + pad
      -- only regular files: neither links nor directories
      if hdr[156]? ≠ some 48 ∧ hdr[156]? ≠ some 0 then .skip next
      else if name = ascii ".PKGINFO" then .pkginfo (cstr data) next
      else .member name data next

/-- The absolute path of a member. -/
def absPath (name : Bytes) : Bytes := slash :: name

/-- Create the directories of a member and write it. -/
def extractMember (s : State) (name data : Bytes) : Result Unit :=
  -- the directories stay, also when the file cannot be opened
  let t := s.tree.mkdirs (dirname (absPath name))
  match putPath t (absPath name) fun _ => data with
  | none => cantOpen { s with tree := t } (absPath name)
  | some t' => (some (), { s with tree := t' })

/-- The line recorded for a member. -/
def fileLine (name : Bytes) : Bytes := ascii "F:" ++ absPath name

/-- What the open archive file holds. -/
def archiveNow (tar : FileRef Bytes) (s : State) : Bytes := (s.tree.file tar.key).getD []

/-- The loop, reading the archive through the open file `tar`; `fuel` bounds the headers. -/
def tarLoop (tar : FileRef Bytes) :
    ℕ → State → ℕ → Bytes → Option Bytes → Result (Bytes × Option Bytes)
  | 0, s, _, files, pkginfo => (some (files, pkginfo), s)
  | fuel + 1, s, off, files, pkginfo =>
    match tarStep (archiveNow tar s) off with
    | .stop => (some (files, pkginfo), s)
    | .truncated => die s (ascii "truncated tar")
    | .skip next => tarLoop tar fuel s next files pkginfo
    -- the last `.PKGINFO` counts
    | .pkginfo data next => tarLoop tar fuel s next files (some data)
    -- the line is recorded after the member was written
    | .member name data next =>
      match extractMember s name data with
      | (none, s') => (none, s')
      | (some (), s') => tarLoop tar fuel s' next (files ++ (fileLine name ++ [nl])) pkginfo

/-- `tar_extract`: the `F:` lines and the text of `.PKGINFO`.  A header takes 512 bytes, which
bounds their number. -/
def tarExtract (tarpath : Bytes) (s : State) : Result (Bytes × Option Bytes) :=
  match fileRef tarpath, readPath s.tree tarpath with
  | some tar, some content => tarLoop tar (content.length / 512 + 1) s 0 [] none
  | _, _ => cantOpen s tarpath

/-! ## The members of an archive -/

/-- The regular members from an offset on, and whether the archive ends without being cut
inside one. -/
def membersFrom (content : Bytes) : ℕ → ℕ → List (Bytes × Bytes) × Bool
  | 0, _ => ([], true)
  | fuel + 1, off =>
    match tarStep content off with
    | .stop => ([], true)
    | .truncated => ([], false)
    | .skip next => membersFrom content fuel next
    | .pkginfo _ next => membersFrom content fuel next
    | .member name data next =>
      let rest := membersFrom content fuel next
      ((name, data) :: rest.1, rest.2)

/-- The regular members of an archive. -/
def members (content : Bytes) : List (Bytes × Bytes) :=
  (membersFrom content (content.length / 512 + 1) 0).1

/-- The archive is not cut inside a member. -/
def Complete (content : Bytes) : Prop :=
  (membersFrom content (content.length / 512 + 1) 0).2 = true

instance (content : Bytes) : Decidable (Complete content) := inferInstanceAs (Decidable (_ = true))

/-! ## What extraction does -/

/-- The content of each place once the members were written in turn. -/
def writeAll (f : List Bytes → Option Bytes) (ms : List (Bytes × Bytes)) :
    List Bytes → Option Bytes :=
  ms.foldl
    (fun f m =>
      match keyOf (absPath m.1) with
      | some k => Function.update f k (some m.2)
      | none => f) f

theorem writeAll_cons {f : List Bytes → Option Bytes} {m : Bytes × Bytes} {k : List Bytes}
    (h : keyOf (absPath m.1) = some k) (ms : List (Bytes × Bytes)) :
    writeAll f (m :: ms) = writeAll (Function.update f k (some m.2)) ms := by
  simp [writeAll, h]

/-- Only the places of members change. -/
theorem writeAll_of_forall_ne {ms : List (Bytes × Bytes)} {k : List Bytes}
    (h : ∀ m ∈ ms, keyOf (absPath m.1) ≠ some k) (f : List Bytes → Option Bytes) :
    writeAll f ms k = f k := by
  induction ms generalizing f with
  | nil => rfl
  | cons m ms ih =>
    have hrest := ih fun m' hm' => h m' (List.mem_cons_of_mem _ hm')
    cases hk : keyOf (absPath m.1) with
    | none =>
      rw [show writeAll f (m :: ms) = writeAll f ms by simp [writeAll, hk]]
      exact hrest f
    | some k' =>
      have hne : k ≠ k' := fun heq => h m List.mem_cons_self (by rw [hk, heq])
      rw [writeAll_cons hk, hrest, Function.update_of_ne hne]

theorem readPath_isSome_of_le {t t' : FileTree Bytes Bytes} (h : t.Le t') {path : Bytes}
    (hr : (readPath t path).isSome) : (readPath t' path).isSome := by
  unfold readPath at hr ⊢
  cases hp : fileRef path with
  | none => simp [hp] at hr
  | some r =>
    rw [hp, Option.bind_some] at hr
    exact h.read hr

/-- What a successful write to a path leaves. -/
theorem putPath_eq_some {t t' : FileTree Bytes Bytes} {path : Bytes} {f : Option Bytes → Bytes}
    (h : putPath t path f = some t') :
    ∃ k, keyOf path = some k ∧ t.Le t' ∧
      t'.file = Function.update t.file k (some (f (t.file k))) ∧
      readPath t' path = some (f (t.file k)) := by
  unfold putPath at h
  cases hp : fileRef path with
  | none => simp [hp] at h
  | some r =>
    rw [hp, Option.bind_some] at h
    obtain ⟨hgrow, hfile, hread⟩ := FileTree.put_eq_some h
    exact ⟨r.key, by simp [keyOf, hp], hgrow, hfile, by rw [readPath, hp, Option.bind_some, hread]⟩

/-- Writing one member: its path can be read, and no other place changes. -/
theorem extractMember_spec {s s' : State} {name data : Bytes} {r : Option Unit}
    (h : extractMember s name data = (r, s')) :
    s.tree.Le s'.tree ∧ s'.calls = s.calls ∧
      (r = none → s'.tree.file = s.tree.file) ∧
      (r = some () → ∃ k, keyOf (absPath name) = some k ∧
        s'.tree.file = Function.update (s.tree.file) k (some data) ∧
        readPath s'.tree (absPath name) = some data) := by
  have hgrow := s.tree.le_mkdirs (dirname (absPath name))
  have hfile := s.tree.file_mkdirs (dirname (absPath name))
  unfold extractMember at h
  simp only at h
  split at h
  · obtain ⟨rfl, rfl⟩ := Prod.mk.inj h
    exact ⟨hgrow, rfl, fun _ => hfile, fun hr => by simp at hr⟩
  · rename_i t' hput
    obtain ⟨rfl, rfl⟩ := Prod.mk.inj h
    obtain ⟨k, hk, hgrow', hfile', hread⟩ := putPath_eq_some hput
    rw [hfile] at hfile'
    exact ⟨hgrow.trans hgrow', rfl, fun hr => by simp at hr, fun _ => ⟨k, hk, hfile', hread⟩⟩

/-- A member's data lies before the offset the loop goes on at. -/
theorem length_le_of_tarStep {content name data : Bytes} {off next : ℕ}
    (h : tarStep content off = .member name data next) : data.length ≤ next ∧ off < next := by
  unfold tarStep at h
  simp only at h
  split_ifs at h with h1 h2 h3 h4 h5
  obtain ⟨-, rfl, rfl⟩ := TarStep.member.inj h
  rw [List.length_take]
  omega

theorem not_mem_cstr (b : Bytes) : 0 ∉ cstr b := by
  intro h
  simpa using List.mem_takeWhile_imp h

theorem cstr_eq_self {b : Bytes} (h : 0 ∉ b) : cstr b = b := by
  refine List.takeWhile_eq_self_iff.mpr fun c hc => ?_
  simp only [ne_eq, decide_not, Bool.not_eq_eq_eq_not, Bool.not_true, decide_eq_false_iff_not]
  rintro rfl
  exact h hc

theorem not_mem_of_tarStep_pkginfo {content data : Bytes} {off next : ℕ}
    (h : tarStep content off = .pkginfo data next) : 0 ∉ data := by
  unfold tarStep at h
  simp only at h
  split_ifs at h with h1 h2 h3 h4 h5
  obtain ⟨rfl, -⟩ := TarStep.pkginfo.inj h
  exact not_mem_cstr _

theorem not_mem_of_tarStep_member {content name data : Bytes} {off next : ℕ}
    (h : tarStep content off = .member name data next) : 0 ∉ name := by
  unfold tarStep at h
  simp only at h
  split_ifs at h with h1 h2 h3 h4 h5
  obtain ⟨rfl, -, -⟩ := TarStep.member.inj h
  exact not_mem_cstr _

/-- Member names are C strings. -/
theorem not_mem_of_mem_membersFrom {content : Bytes} {fuel off : ℕ} {m : Bytes × Bytes}
    (h : m ∈ (membersFrom content fuel off).1) : 0 ∉ m.1 := by
  induction fuel generalizing off with
  | zero => simp [membersFrom] at h
  | succ fuel ih =>
    rw [membersFrom] at h
    cases hstep : tarStep content off with
    | stop => simp [hstep] at h
    | truncated => simp [hstep] at h
    | skip next => exact ih (by simpa [hstep] using h)
    | pkginfo data next => exact ih (by simpa [hstep] using h)
    | member name data next =>
      simp only [hstep, List.mem_cons] at h
      rcases h with rfl | h
      · exact not_mem_of_tarStep_member hstep
      · exact ih h

theorem tarStep_of_length_le {content : Bytes} {off : ℕ} (h : content.length ≤ off) :
    tarStep content off = .stop := by
  simp [tarStep, List.drop_eq_nil_of_le h]

/-- **Extraction** works through the members of the archive from the front.  It reads the
archive as it was, until a member overwrites it; then there is nothing left to read. -/
theorem tarLoop_spec {tar : FileRef Bytes} {content : Bytes} {fuel off : ℕ} {s s' : State}
    {files : Bytes} {pkginfo : Option Bytes} {r : Option (Bytes × Option Bytes)}
    (hnow : archiveNow tar s = content ∨ (archiveNow tar s).length ≤ off)
    (hpi : ∀ d, pkginfo = some d → 0 ∉ d)
    (h : tarLoop tar fuel s off files pkginfo = (r, s')) :
    ∃ ms, ms <+: (membersFrom content fuel off).1 ∧ s.tree.Le s'.tree ∧ s'.calls = s.calls ∧
      s'.tree.file = writeAll (s.tree.file) ms ∧
      (∀ m ∈ ms, (readPath s'.tree (absPath m.1)).isSome) ∧
      ∀ out, r = some out → out.1 = files ++ unlines nl (ms.map fun m => fileLine m.1) ∧
        ∀ d, out.2 = some d → 0 ∉ d := by
  induction fuel generalizing s off files pkginfo with
  | zero =>
    obtain ⟨rfl, rfl⟩ := Prod.mk.inj h
    refine ⟨[], List.nil_prefix, FileTree.Le.refl _, rfl, rfl, by simp, ?_⟩
    rintro _ ⟨⟩
    exact ⟨by simp, hpi⟩
  | succ fuel ih =>
    rw [tarLoop] at h
    by_cases hstop : tarStep (archiveNow tar s) off = .stop
    · rw [hstop] at h
      obtain ⟨rfl, rfl⟩ := Prod.mk.inj h
      refine ⟨[], List.nil_prefix, FileTree.Le.refl _, rfl, rfl, by simp, ?_⟩
      rintro _ ⟨⟩
      exact ⟨by simp, hpi⟩
    · -- there is a header to read, so the archive is still the one it was
      have hsame : archiveNow tar s = content := by
        rcases hnow with hnow | hnow
        · exact hnow
        · exact absurd (tarStep_of_length_le hnow) hstop
      rw [hsame] at h hstop
      rw [membersFrom]
      cases hstep : tarStep content off with
      | stop => exact absurd hstep hstop
      | truncated =>
        rw [hstep] at h
        obtain ⟨rfl, rfl⟩ := Prod.mk.inj h
        exact ⟨[], List.nil_prefix, FileTree.Le.refl _, rfl, rfl, by simp, by simp⟩
      | skip next =>
        rw [hstep] at h
        exact ih (Or.inl hsame) hpi h
      | pkginfo data next =>
        rw [hstep] at h
        refine ih (Or.inl hsame) ?_ h
        rintro _ ⟨⟩
        exact not_mem_of_tarStep_pkginfo hstep
      | member name data next =>
        rw [hstep] at h
        simp only at h
        rcases hex : extractMember s name data with ⟨_ | ⟨⟩, mid⟩
        · rw [hex] at h
          obtain ⟨rfl, rfl⟩ := Prod.mk.inj h
          obtain ⟨hgrow, hcalls, hdied, -⟩ := extractMember_spec hex
          exact ⟨[], List.nil_prefix, hgrow, hcalls, hdied rfl, by simp, by simp⟩
        · rw [hex] at h
          obtain ⟨hgrow, hcalls, -, hwritten⟩ := extractMember_spec hex
          obtain ⟨k, hk, hfile, hread⟩ := hwritten rfl
          have hnow' : archiveNow tar mid = content ∨ (archiveNow tar mid).length ≤ next := by
            by_cases htar : tar.key = k
            · right
              rw [archiveNow, hfile, htar, Function.update_self]
              exact (length_le_of_tarStep hstep).1
            · left
              rw [← hsame, archiveNow, hfile, Function.update_of_ne htar, archiveNow]
          obtain ⟨ms, hpre, hgrow', hcalls', hfile', hread', hout⟩ := ih hnow' hpi h
          refine ⟨(name, data) :: ms, List.cons_prefix_cons.mpr ⟨rfl, hpre⟩, hgrow.trans hgrow',
            hcalls'.trans hcalls, ?_, ?_, ?_⟩
          · rw [hfile', writeAll_cons hk, hfile]
          · intro m hm
            rcases List.mem_cons.mp hm with rfl | hm
            · exact readPath_isSome_of_le hgrow' (by rw [hread]; rfl)
            · exact hread' m hm
          · intro out hr
            obtain ⟨hfiles, hnul⟩ := hout out hr
            exact ⟨by rw [hfiles]; simp, hnul⟩

/-! ## When extraction returns -/

/-- The tree once the members were written in turn, if each can be opened. -/
def writeMembers (t : FileTree Bytes Bytes) :
    List (Bytes × Bytes) → Option (FileTree Bytes Bytes)
  | [] => some t
  | m :: ms =>
    (putPath (t.mkdirs (dirname (absPath m.1))) (absPath m.1) fun _ => m.2).bind fun t' =>
      writeMembers t' ms

/-- The archive can be extracted into a tree: it is not cut inside a member, and every member
can be opened for writing. -/
def Extracts (t : FileTree Bytes Bytes) (content : Bytes) : Prop :=
  Complete content ∧ (writeMembers t (members content)).isSome

theorem extractMember_eq (s : State) (name data : Bytes) :
    extractMember s name data
      = match putPath (s.tree.mkdirs (dirname (absPath name))) (absPath name) fun _ => data with
        | none => cantOpen { s with tree := s.tree.mkdirs (dirname (absPath name)) } (absPath name)
        | some t' => (some (), { s with tree := t' }) := rfl

/-- The text of the last `.PKGINFO` from an offset on, or the one given. -/
def pkginfoFrom (content : Bytes) : ℕ → ℕ → Option Bytes → Option Bytes
  | 0, _, pkginfo => pkginfo
  | fuel + 1, off, pkginfo =>
    match tarStep content off with
    | .stop => pkginfo
    | .truncated => pkginfo
    | .skip next => pkginfoFrom content fuel next pkginfo
    | .pkginfo data next => pkginfoFrom content fuel next (some data)
    | .member _ _ next => pkginfoFrom content fuel next pkginfo

/-- The text of the last `.PKGINFO` of an archive. -/
def pkginfoOf (content : Bytes) : Option Bytes :=
  pkginfoFrom content (content.length / 512 + 1) 0 none

/-- Writing a member elsewhere leaves the open archive as it is. -/
theorem archiveNow_of_put {tar : FileRef Bytes} {s : State} {name data : Bytes}
    {t' : FileTree Bytes Bytes} (hne : keyOf (absPath name) ≠ some tar.key)
    (hput : putPath (s.tree.mkdirs (dirname (absPath name))) (absPath name) (fun _ => data)
      = some t') : archiveNow tar { s with tree := t' } = archiveNow tar s := by
  obtain ⟨k, hk, -, hfile, -⟩ := putPath_eq_some hput
  have hne' : tar.key ≠ k := fun heq => hne (by rw [hk, heq])
  rw [archiveNow, hfile, FileTree.file_mkdirs, Function.update_of_ne hne', archiveNow]

/-- **Extraction of a complete archive** whose members can be written and that none of them
overwrites: everything is written, recorded and returned. -/
theorem tarLoop_of_extracts {tar : FileRef Bytes} {content : Bytes} {fuel off : ℕ} {s : State}
    {files : Bytes} {pkginfo : Option Bytes} {t : FileTree Bytes Bytes}
    (hnow : archiveNow tar s = content)
    (hno : ∀ m ∈ (membersFrom content fuel off).1, keyOf (absPath m.1) ≠ some tar.key)
    (hc : (membersFrom content fuel off).2 = true)
    (ht : writeMembers s.tree (membersFrom content fuel off).1 = some t) :
    tarLoop tar fuel s off files pkginfo
      = (some (files ++ unlines nl ((membersFrom content fuel off).1.map fun m => fileLine m.1),
          pkginfoFrom content fuel off pkginfo), { s with tree := t }) := by
  -- `membersFrom` takes the same steps, without the writing
  induction fuel generalizing s off files pkginfo with
  | zero =>
    obtain rfl : s.tree = t := Option.some.inj ht
    simp [tarLoop, membersFrom, pkginfoFrom]
  | succ fuel ih =>
    rw [membersFrom] at hno hc ht ⊢
    rw [tarLoop, pkginfoFrom, hnow]
    cases hstep : tarStep content off with
    | stop =>
      rw [hstep] at ht
      obtain rfl : s.tree = t := Option.some.inj ht
      simp
    | truncated => simp [hstep] at hc
    | skip next =>
      rw [hstep] at hno hc ht
      exact ih hnow hno hc ht
    | pkginfo data next =>
      rw [hstep] at hno hc ht
      exact ih hnow hno hc ht
    | member name data next =>
      rw [hstep] at hno hc ht
      obtain ⟨t', hput, ht'⟩ := Option.bind_eq_some_iff.mp ht
      have hnow' := archiveNow_of_put (hno _ List.mem_cons_self) hput
      simp only [extractMember_eq, hput]
      rw [ih (hnow'.trans hnow) (fun m hm => hno m (List.mem_cons_of_mem _ hm)) hc ht']
      simp

/-- An archive that no member overwrites is extracted to its end exactly when it is complete
and its members can be written. -/
theorem tarLoop_isSome_iff {tar : FileRef Bytes} {content : Bytes} {fuel off : ℕ} {s : State}
    {files : Bytes} {pkginfo : Option Bytes} (hnow : archiveNow tar s = content)
    (hno : ∀ m ∈ (membersFrom content fuel off).1, keyOf (absPath m.1) ≠ some tar.key) :
    (tarLoop tar fuel s off files pkginfo).1.isSome ↔
      (membersFrom content fuel off).2 = true ∧
        (writeMembers s.tree (membersFrom content fuel off).1).isSome := by
  induction fuel generalizing s off files pkginfo with
  | zero => simp [tarLoop, membersFrom, writeMembers]
  | succ fuel ih =>
    rw [membersFrom] at hno ⊢
    rw [tarLoop, hnow]
    cases hstep : tarStep content off with
    | stop => simp [writeMembers]
    | truncated => simp [die]
    | skip next =>
      rw [hstep] at hno
      exact ih hnow hno
    | pkginfo data next =>
      rw [hstep] at hno
      exact ih hnow hno
    | member name data next =>
      rw [hstep] at hno
      simp only [extractMember_eq, writeMembers]
      cases hput : putPath (s.tree.mkdirs (dirname (absPath name))) (absPath name)
          fun _ => data with
      | none => simp [cantOpen, die]
      | some t' =>
        have hnow' := archiveNow_of_put (hno _ List.mem_cons_self) hput
        exact ih (hnow'.trans hnow) fun m hm => hno m (List.mem_cons_of_mem _ hm)

end OsMoap.Apk
