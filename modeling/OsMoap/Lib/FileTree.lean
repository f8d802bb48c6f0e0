import Mathlib.Data.List.Induction
import Mathlib.Logic.Function.Basic

/-!
# A File Tree

A tree of directories and files over an arbitrary type of names, without links.  Paths are
lists of segments; where a path leads is a function of its segments alone (`place`), and
whether it leads there in a given tree is `walk`.

Two views carry the proofs.  `fileAt` is the content of each place, and each operation
changes it in one place at most.  `Grows` says that nothing present has gone: every
operation except `unlink` grows the tree, and what can be read in a tree can be read in
one it has grown into.
-/

namespace OsMoap.Lib

variable {κ β : Type*}

/-- A path segment: nothing or `.`, `..`, or a name. -/
inductive Seg (κ : Type*) where
  | here
  | up
  | name (c : κ)
  deriving DecidableEq

/-- A directory or a file. -/
inductive Node (β : Type*) where
  | dir
  | file (content : β)

/-- What is at each place below the root. -/
abbrev Tree (κ β : Type*) := List κ → Option (Node β)

/-- A path to a file: the way to its directory, and its name there. -/
structure FileRef (κ : Type*) where
  dir : List (Seg κ)
  last : κ
  deriving DecidableEq

/-- One segment further, by the words of the path. -/
def Seg.move (cur : List κ) : Seg κ → List κ
  | .here => cur
  | .up => cur.dropLast
  | .name c => cur ++ [c]

/-- Where a sequence of segments leads, by its words. -/
def place (cur : List κ) (segs : List (Seg κ)) : List κ := segs.foldl Seg.move cur

/-- The place a file path names. -/
def FileRef.key (p : FileRef κ) : List κ := place [] p.dir ++ [p.last]

/-- Follow a path through directories. -/
def walk (t : Tree κ β) (cur : List κ) : List (Seg κ) → Option (List κ)
  | [] => some cur
  | .here :: segs => walk t cur segs
  | .up :: segs => walk t cur.dropLast segs
  | .name c :: segs =>
    match t (cur ++ [c]) with
    | some .dir => walk t (cur ++ [c]) segs
    | _ => none

section Operations

variable [DecidableEq κ]

/-- `mkdir -p`: create the missing directories, up to the first file in the way. -/
def mkdirs (t : Tree κ β) (cur : List κ) : List (Seg κ) → Tree κ β
  | [] => t
  | .here :: segs => mkdirs t cur segs
  | .up :: segs => mkdirs t cur.dropLast segs
  | .name c :: segs =>
    match t (cur ++ [c]) with
    | none => mkdirs (Function.update t (cur ++ [c]) (some .dir)) (cur ++ [c]) segs
    | some .dir => mkdirs t (cur ++ [c]) segs
    | some (.file _) => t

/-- The content of a path, when it leads to a file. -/
def readFile (t : Tree κ β) (p : FileRef κ) : Option β :=
  match walk t [] p.dir, t p.key with
  | some _, some (.file b) => some b
  | _, _ => none

/-- Open for writing, creating the file when it is missing, and store `f` of the content it
had; `none` when the path does not lead to a place for a file. -/
def putFile (t : Tree κ β) (p : FileRef κ) (f : Option β → β) : Option (Tree κ β) :=
  match walk t [] p.dir, t p.key with
  | some _, none => some (Function.update t p.key (some (.file (f none))))
  | some _, some (.file b) => some (Function.update t p.key (some (.file (f (some b)))))
  | _, _ => none

/-- Remove a file; anything else stays. -/
def unlink (t : Tree κ β) (p : FileRef κ) : Tree κ β :=
  match readFile t p with
  | some _ => Function.update t p.key none
  | none => t

end Operations

/-! ## Where paths lead -/

theorem place_append (cur : List κ) (as bs : List (Seg κ)) :
    place cur (as ++ bs) = place (place cur as) bs :=
  List.foldl_append

theorem eq_place_of_walk {t : Tree κ β} {cur k : List κ} {segs : List (Seg κ)}
    (h : walk t cur segs = some k) : k = place cur segs := by
  induction segs generalizing cur with
  | nil => exact (Option.some.inj h).symm
  | cons seg segs ih =>
    cases seg with
    | here => exact ih h
    | up => exact ih h
    | name c =>
      simp only [walk] at h
      split at h
      · exact ih h
      · simp at h

theorem walk_append (t : Tree κ β) (cur : List κ) (as bs : List (Seg κ)) :
    walk t cur (as ++ bs) = (walk t cur as).bind fun k => walk t k bs := by
  induction as generalizing cur with
  | nil => rfl
  | cons seg as ih =>
    cases seg with
    | here => exact ih cur
    | up => exact ih cur.dropLast
    | name c =>
      simp only [List.cons_append, walk]
      split
      · exact ih (cur ++ [c])
      · rfl

/-! ## Growing -/

/-- The content at a place. -/
def fileAt (t : Tree κ β) (k : List κ) : Option β :=
  match t k with
  | some (.file b) => some b
  | _ => none

/-- Everything present stands in a directory. -/
def Rooted (t : Tree κ β) : Prop := ∀ k c, t (k ++ [c]) ≠ none → k = [] ∨ t k = some .dir

theorem Rooted.parent {t : Tree κ β} (ht : Rooted t) {k : List κ} (h : k = [] ∨ t k = some .dir) :
    k.dropLast = [] ∨ t k.dropLast = some .dir := by
  rcases List.eq_nil_or_concat k with rfl | ⟨k', c, rfl⟩
  · exact Or.inl rfl
  · rw [List.concat_eq_append, List.dropLast_concat]
    refine ht k' c fun hnone => ?_
    rcases h with h | h
    · simp at h
    · rw [List.concat_eq_append, hnone] at h
      simp at h

/-- Without `..` the way to a directory is open. -/
theorem walk_isSome_of_dir {t : Tree κ β} (ht : Rooted t) {segs : List (Seg κ)}
    (hup : Seg.up ∉ segs) (h : place [] segs = [] ∨ t (place [] segs) = some .dir) :
    (walk t [] segs).isSome := by
  induction segs using List.reverseRecOn with
  | nil => rfl
  | append_singleton segs seg ih =>
    rw [place_append] at h
    have hup' : Seg.up ∉ segs := fun hm => hup (List.mem_append_left _ hm)
    cases seg with
    | here =>
      obtain ⟨k, hk⟩ := Option.isSome_iff_exists.mp (ih hup' h)
      rw [walk_append, hk]
      rfl
    | up => exact absurd (List.mem_append_right segs (List.mem_singleton_self _)) hup
    | name c =>
      have hdir : t (place [] segs ++ [c]) = some .dir := by
        rcases h with h | h
        · simp [place, Seg.move] at h
        · exact h
      obtain ⟨k, hk⟩ := Option.isSome_iff_exists.mp (ih hup' (ht _ c (by rw [hdir]; simp)))
      rw [walk_append, hk, eq_place_of_walk hk]
      simp [walk, hdir]

/-- Every directory is still one, and every file is still a file. -/
def Grows (t t' : Tree κ β) : Prop :=
  ∀ k, (t k = some .dir → t' k = some .dir) ∧ ((fileAt t k).isSome → (fileAt t' k).isSome)

theorem Grows.refl (t : Tree κ β) : Grows t t := fun _ => ⟨id, id⟩

theorem Grows.trans {t t' t'' : Tree κ β} (h : Grows t t') (h' : Grows t' t'') : Grows t t'' :=
  fun k => ⟨fun hd => (h' k).1 ((h k).1 hd), fun hf => (h' k).2 ((h k).2 hf)⟩

theorem Grows.walk {t t' : Tree κ β} (h : Grows t t') {cur k : List κ} {segs : List (Seg κ)}
    (hw : walk t cur segs = some k) : Lib.walk t' cur segs = some k := by
  induction segs generalizing cur with
  | nil => exact hw
  | cons seg segs ih =>
    cases seg with
    | here => exact ih hw
    | up => exact ih hw
    | name c =>
      simp only [Lib.walk] at hw ⊢
      split at hw
      · rename_i hdir
        rw [(h _).1 hdir]
        exact ih hw
      · simp at hw

/-- A file can be read exactly when the way to it is open and it is there. -/
theorem readFile_eq_some_iff {t : Tree κ β} {p : FileRef κ} {b : β} :
    readFile t p = some b ↔ (walk t [] p.dir).isSome ∧ fileAt t p.key = some b := by
  unfold readFile fileAt
  cases walk t [] p.dir with
  | none => simp
  | some k =>
    rcases t p.key with _ | (_ | b') <;> simp

theorem Grows.readFile {t t' : Tree κ β} (h : Grows t t') {p : FileRef κ}
    (hr : (readFile t p).isSome) : (Lib.readFile t' p).isSome := by
  obtain ⟨b, hb⟩ := Option.isSome_iff_exists.mp hr
  obtain ⟨hw, hf⟩ := readFile_eq_some_iff.mp hb
  obtain ⟨k, hk⟩ := Option.isSome_iff_exists.mp hw
  obtain ⟨b', hb'⟩ := Option.isSome_iff_exists.mp ((h p.key).2 (by rw [hf]; rfl))
  refine Option.isSome_iff_exists.mpr ⟨b', readFile_eq_some_iff.mpr ⟨?_, hb'⟩⟩
  rw [h.walk hk]
  rfl

section OperationLemmas

variable [DecidableEq κ]

theorem fileAt_update (t : Tree κ β) (k : List κ) (n : Option (Node β)) :
    fileAt (Function.update t k n) = Function.update (fileAt t) k
      (match n with
        | some (.file b) => some b
        | _ => none) := by
  funext k'
  by_cases h : k' = k
  · subst h
    simp only [fileAt, Function.update_self]
  · simp only [fileAt, Function.update_of_ne h]

theorem grows_update_file {t : Tree κ β} {k : List κ} {b : β} (h : t k ≠ some .dir) :
    Grows t (Function.update t k (some (.file b))) := by
  intro k'
  by_cases hk : k' = k
  · subst hk
    exact ⟨fun hd => absurd hd h, fun _ => by simp [fileAt]⟩
  · rw [fileAt_update]
    simp [Function.update_of_ne hk]

theorem grows_update_dir {t : Tree κ β} {k : List κ} (h : t k = none) :
    Grows t (Function.update t k (some .dir)) := by
  intro k'
  by_cases hk : k' = k
  · subst hk
    exact ⟨fun hd => by simp [h] at hd, fun hf => by simp [fileAt, h] at hf⟩
  · rw [fileAt_update]
    simp [Function.update_of_ne hk]

/-- Making directories grows the tree and touches no file. -/
theorem grows_mkdirs (t : Tree κ β) (cur : List κ) (segs : List (Seg κ)) :
    Grows t (mkdirs t cur segs) ∧ fileAt (mkdirs t cur segs) = fileAt t := by
  induction segs generalizing t cur with
  | nil => exact ⟨Grows.refl t, rfl⟩
  | cons seg segs ih =>
    cases seg with
    | here => exact ih t cur
    | up => exact ih t cur.dropLast
    | name c =>
      simp only [mkdirs]
      split
      · rename_i hnone
        obtain ⟨hg, hf⟩ := ih (Function.update t (cur ++ [c]) (some .dir)) (cur ++ [c])
        refine ⟨(grows_update_dir hnone).trans hg, hf.trans ?_⟩
        rw [fileAt_update]
        exact Function.update_eq_self_iff.mpr (by simp [fileAt, hnone])
      · exact ih t (cur ++ [c])
      · exact ⟨Grows.refl t, rfl⟩

/-- Where the way is open there is nothing to make. -/
theorem mkdirs_of_walk {t : Tree κ β} {cur k : List κ} {segs : List (Seg κ)}
    (h : walk t cur segs = some k) : mkdirs t cur segs = t := by
  induction segs generalizing cur with
  | nil => rfl
  | cons seg segs ih =>
    cases seg with
    | here => exact ih h
    | up => exact ih h
    | name c =>
      simp only [walk] at h
      split at h
      · rename_i hdir
        simp only [mkdirs, hdir]
        exact ih h
      · simp at h

/-- What `putFile` stores and where. -/
theorem putFile_eq_some {t t' : Tree κ β} {p : FileRef κ} {f : Option β → β}
    (h : putFile t p f = some t') :
    Grows t t' ∧ fileAt t' = Function.update (fileAt t) p.key (some (f (fileAt t p.key))) ∧
      (walk t [] p.dir).isSome := by
  unfold putFile at h
  cases hw : walk t [] p.dir with
  | none => simp [hw] at h
  | some k =>
    rcases hn : t p.key with _ | (_ | b)
    · simp only [hw, hn, Option.some.injEq] at h
      subst h
      exact ⟨grows_update_file (by simp [hn]), by rw [fileAt_update]; simp [fileAt, hn], rfl⟩
    · simp [hw, hn] at h
    · simp only [hw, hn, Option.some.injEq] at h
      subst h
      exact ⟨grows_update_file (by simp [hn]), by rw [fileAt_update]; simp [fileAt, hn], rfl⟩

/-- A write makes no directory. -/
theorem dir_of_putFile {t t' : Tree κ β} {p : FileRef κ} {f : Option β → β}
    (h : putFile t p f = some t') {k : List κ} (hd : t' k = some .dir) : t k = some .dir := by
  unfold putFile at h
  split at h
  · obtain rfl := Option.some.inj h
    by_cases hk : k = p.key
    · simp [hk] at hd
    · rwa [Function.update_of_ne hk] at hd
  · obtain rfl := Option.some.inj h
    by_cases hk : k = p.key
    · simp [hk] at hd
    · rwa [Function.update_of_ne hk] at hd
  · simp at h

/-- A place for a file that can be reached can be written. -/
theorem putFile_isSome {t : Tree κ β} {p : FileRef κ} (hw : (walk t [] p.dir).isSome)
    (hd : t p.key ≠ some .dir) (f : Option β → β) : (putFile t p f).isSome := by
  obtain ⟨k, hk⟩ := Option.isSome_iff_exists.mp hw
  unfold putFile
  rcases hn : t p.key with _ | (_ | b)
  · simp [hk]
  · exact absurd hn hd
  · simp [hk]

/-- A path just written can be read. -/
theorem readFile_of_putFile {t t' : Tree κ β} {p : FileRef κ} {f : Option β → β}
    (h : putFile t p f = some t') : readFile t' p = some (f (fileAt t p.key)) := by
  obtain ⟨hgrow, hfile, hwalk⟩ := putFile_eq_some h
  obtain ⟨k, hk⟩ := Option.isSome_iff_exists.mp hwalk
  refine readFile_eq_some_iff.mpr ⟨by rw [hgrow.walk hk]; rfl, ?_⟩
  rw [hfile, Function.update_self]

theorem fileAt_unlink_of_ne (t : Tree κ β) {p : FileRef κ} {k : List κ} (h : k ≠ p.key) :
    fileAt (unlink t p) k = fileAt t k := by
  unfold unlink
  split
  · rw [fileAt_update, Function.update_of_ne h]
  · rfl

/-- Unlinking never changes what a file holds. -/
theorem fileAt_unlink (t : Tree κ β) (p : FileRef κ) (k : List κ) :
    fileAt (unlink t p) k = fileAt t k ∨ fileAt (unlink t p) k = none := by
  by_cases h : k = p.key
  · unfold unlink
    split
    · exact Or.inr (by rw [fileAt_update, h, Function.update_self])
    · exact Or.inl rfl
  · exact Or.inl (fileAt_unlink_of_ne t h)

/-- Only a file goes. -/
theorem unlink_eq_dir_iff (t : Tree κ β) (p : FileRef κ) (k : List κ) :
    unlink t p k = some .dir ↔ t k = some .dir := by
  cases hread : readFile t p with
  | none => simp only [unlink, hread]
  | some b =>
    simp only [unlink, hread]
    by_cases hk : k = p.key
    · subst hk
      have hfile := (readFile_eq_some_iff.mp hread).2
      rw [Function.update_self]
      constructor
      · intro h
        simp at h
      · intro h
        simp [fileAt, h] at hfile
    · rw [Function.update_of_ne hk]

theorem walk_unlink (t : Tree κ β) (p : FileRef κ) (cur : List κ) (segs : List (Seg κ)) :
    walk (unlink t p) cur segs = walk t cur segs := by
  have hdir := unlink_eq_dir_iff t p
  induction segs generalizing cur with
  | nil => rfl
  | cons seg segs ih =>
    cases seg with
    | here => exact ih cur
    | up => exact ih cur.dropLast
    | name c =>
      simp only [walk]
      by_cases hd : t (cur ++ [c]) = some .dir
      · rw [(hdir _).mpr hd, hd]
        exact ih (cur ++ [c])
      · have hd' : unlink t p (cur ++ [c]) ≠ some .dir := fun h => hd ((hdir _).mp h)
        rcases hn : t (cur ++ [c]) with _ | (_ | b) <;>
          rcases hn' : unlink t p (cur ++ [c]) with _ | (_ | b') <;> simp_all

/-- Removing one file leaves every path to another place as it was. -/
theorem readFile_unlink_of_ne (t : Tree κ β) {p q : FileRef κ} (h : q.key ≠ p.key) :
    readFile (unlink t p) q = readFile t q := by
  refine Option.ext fun b => ?_
  simp only [readFile_eq_some_iff, walk_unlink, fileAt_unlink_of_ne t h]

theorem readFile_unlink_self (t : Tree κ β) (p : FileRef κ) : readFile (unlink t p) p = none := by
  rw [Option.eq_none_iff_forall_ne_some]
  intro b hb
  obtain ⟨hw, hf⟩ := readFile_eq_some_iff.mp hb
  unfold unlink at hf
  split at hf
  · rw [fileAt_update, Function.update_self] at hf
    simp at hf
  · rename_i hnone
    rw [walk_unlink] at hw
    rw [readFile_eq_some_iff.mpr ⟨hw, hf⟩] at hnone
    simp at hnone

/-- A path still leads where it led, unless its file went. -/
theorem readFile_unlink_or (t : Tree κ β) (p q : FileRef κ) :
    readFile (unlink t p) q = readFile t q ∨ fileAt (unlink t p) q.key = none := by
  by_cases h : q.key = p.key
  · cases hread : readFile t p with
    | none => exact Or.inl (by simp only [unlink, hread])
    | some b =>
      right
      simp only [unlink, hread]
      rw [fileAt_update, h, Function.update_self]
  · exact Or.inl (readFile_unlink_of_ne t h)

/-- A file that a path leads to is gone once the path is unlinked. -/
theorem fileAt_unlink_self {t : Tree κ β} {p : FileRef κ} (h : (readFile t p).isSome) :
    fileAt (unlink t p) p.key = none := by
  obtain ⟨b, hb⟩ := Option.isSome_iff_exists.mp h
  simp only [unlink, hb]
  rw [fileAt_update, Function.update_self]

/-! ## Rooted trees -/

omit [DecidableEq κ] in
/-- A followed path ends at the root or at a directory. -/
theorem dir_of_walk {t : Tree κ β} (ht : Rooted t) {cur k : List κ} {segs : List (Seg κ)}
    (hcur : cur = [] ∨ t cur = some .dir) (h : walk t cur segs = some k) :
    k = [] ∨ t k = some .dir := by
  induction segs generalizing cur with
  | nil => exact Option.some.inj h ▸ hcur
  | cons seg segs ih =>
    cases seg with
    | here => exact ih hcur h
    | up => exact ih (ht.parent hcur) h
    | name c =>
      simp only [walk] at h
      split at h
      · rename_i hdir
        exact ih (Or.inr hdir) h
      · simp at h

theorem rooted_update {t : Tree κ β} (ht : Rooted t) {k : List κ} {c : κ} {n : Node β}
    (hk : k = [] ∨ t k = some .dir) (hkeep : t (k ++ [c]) = some .dir → n = .dir) :
    Rooted (Function.update t (k ++ [c]) (some n)) := by
  intro k' c' h
  have hdir : ∀ j, t j = some .dir → Function.update t (k ++ [c]) (some n) j = some .dir := by
    intro j hj
    by_cases hjk : j = k ++ [c]
    · subst hjk
      rw [Function.update_self, hkeep hj]
    · rwa [Function.update_of_ne hjk]
  by_cases hk' : k' ++ [c'] = k ++ [c]
  · obtain ⟨rfl, -⟩ := List.append_inj' hk' rfl
    exact hk.imp id (hdir k')
  · rw [Function.update_of_ne hk'] at h
    exact (ht k' c' h).imp id (hdir k')

theorem rooted_mkdirs {t : Tree κ β} (ht : Rooted t) {cur : List κ}
    (hcur : cur = [] ∨ t cur = some .dir) (segs : List (Seg κ)) : Rooted (mkdirs t cur segs) := by
  induction segs generalizing t cur with
  | nil => exact ht
  | cons seg segs ih =>
    cases seg with
    | here => exact ih ht hcur
    | up => exact ih ht (ht.parent hcur)
    | name c =>
      simp only [mkdirs]
      split
      · exact ih (rooted_update ht hcur fun _ => rfl) (Or.inr (Function.update_self ..))
      · rename_i hdir
        exact ih ht (Or.inr hdir)
      · exact ht

theorem rooted_putFile {t t' : Tree κ β} (ht : Rooted t) {p : FileRef κ} {f : Option β → β}
    (h : putFile t p f = some t') : Rooted t' := by
  unfold putFile at h
  cases hw : walk t [] p.dir with
  | none => simp [hw] at h
  | some k =>
    have hk := dir_of_walk ht (Or.inl rfl) hw
    have hkey : p.key = k ++ [p.last] := by rw [FileRef.key, eq_place_of_walk hw]
    rcases hn : t p.key with _ | (_ | b)
    · simp only [hw, hn, Option.some.injEq] at h
      subst h
      rw [hkey] at hn ⊢
      exact rooted_update ht hk fun hd => by simp [hn] at hd
    · simp [hw, hn] at h
    · simp only [hw, hn, Option.some.injEq] at h
      subst h
      rw [hkey] at hn ⊢
      exact rooted_update ht hk fun hd => by simp [hn] at hd

theorem rooted_unlink {t : Tree κ β} (ht : Rooted t) (p : FileRef κ) : Rooted (unlink t p) := by
  cases hread : readFile t p with
  | none =>
    simp only [unlink, hread]
    exact ht
  | some b =>
    simp only [unlink, hread]
    have hfile := (readFile_eq_some_iff.mp hread).2
    intro k c h
    by_cases hkc : k ++ [c] = p.key
    · rw [hkc, Function.update_self] at h
      exact absurd rfl h
    · rw [Function.update_of_ne hkc] at h
      refine (ht k c h).imp id fun hdir => ?_
      have hne : k ≠ p.key := by
        rintro rfl
        simp [fileAt, hdir] at hfile
      rwa [Function.update_of_ne hne]

end OperationLemmas

/-! ## File trees -/

/-- A tree in which everything present has a parent directory. -/
structure FileTree (κ β : Type*) where
  node : Tree κ β
  rooted : Rooted node

namespace FileTree

/-- The content of a place. -/
def file (t : FileTree κ β) (k : List κ) : Option β := fileAt t.node k

/-- The content of a path. -/
def read (t : FileTree κ β) (p : FileRef κ) : Option β := readFile t.node p

/-- Nothing present has gone. -/
def Le (t t' : FileTree κ β) : Prop := Grows t.node t'.node

theorem Le.refl (t : FileTree κ β) : t.Le t := Grows.refl t.node

theorem Le.trans {t t' t'' : FileTree κ β} (h : t.Le t') (h' : t'.Le t'') : t.Le t'' :=
  Grows.trans h h'

theorem Le.read {t t' : FileTree κ β} (h : t.Le t') {p : FileRef κ} (hr : (t.read p).isSome) :
    (t'.read p).isSome :=
  Grows.readFile h hr

/-- Without `..` a path leads to every file at its place. -/
theorem read_eq_file (t : FileTree κ β) {p : FileRef κ} (hp : Seg.up ∉ p.dir) :
    t.read p = t.file p.key := by
  refine Option.ext fun b => ?_
  rw [read, readFile_eq_some_iff]
  refine ⟨fun h => h.2, fun h => ⟨?_, h⟩⟩
  have hparent : place [] p.dir = [] ∨ t.node (place [] p.dir) = some .dir := by
    refine t.rooted _ p.last fun hnone => ?_
    rw [FileTree.file, FileRef.key, fileAt, hnone] at h
    simp at h
  exact walk_isSome_of_dir t.rooted hp hparent

variable [DecidableEq κ]

/-- `mkdir -p` from the root. -/
def mkdirs (t : FileTree κ β) (segs : List (Seg κ)) : FileTree κ β :=
  ⟨Lib.mkdirs t.node [] segs, rooted_mkdirs t.rooted (Or.inl rfl) segs⟩

/-- Open for writing and store `f` of the old content. -/
def put (t : FileTree κ β) (p : FileRef κ) (f : Option β → β) : Option (FileTree κ β) :=
  (putFile t.node p f).pmap (fun t' h => ⟨t', h⟩) fun _ h => rooted_putFile t.rooted h

/-- Remove a file. -/
def unlink (t : FileTree κ β) (p : FileRef κ) : FileTree κ β :=
  ⟨Lib.unlink t.node p, rooted_unlink t.rooted p⟩

theorem le_mkdirs (t : FileTree κ β) (segs : List (Seg κ)) : t.Le (t.mkdirs segs) :=
  (grows_mkdirs t.node [] segs).1

@[simp]
theorem file_mkdirs (t : FileTree κ β) (segs : List (Seg κ)) : (t.mkdirs segs).file = t.file :=
  (grows_mkdirs t.node [] segs).2

/-- What a successful write leaves. -/
theorem put_eq_some {t t' : FileTree κ β} {p : FileRef κ} {f : Option β → β}
    (h : t.put p f = some t') :
    t.Le t' ∧ t'.file = Function.update t.file p.key (some (f (t.file p.key))) ∧
      t'.read p = some (f (t.file p.key)) := by
  obtain ⟨raw, -, hraw, rfl⟩ := Option.pmap_eq_some_iff.mp h
  obtain ⟨hgrow, hfile, -⟩ := putFile_eq_some hraw
  exact ⟨hgrow, hfile, readFile_of_putFile hraw⟩

/-- A file path can be opened for writing. -/
def Open (t : FileTree κ β) (p : FileRef κ) : Prop :=
  (walk t.node [] p.dir).isSome ∧ t.node p.key ≠ some .dir

theorem put_isSome {t : FileTree κ β} {p : FileRef κ} (h : t.Open p) (f : Option β → β) :
    ∃ t', t.put p f = some t' := by
  obtain ⟨raw, hraw⟩ := Option.isSome_iff_exists.mp (putFile_isSome h.1 h.2 f)
  exact ⟨⟨raw, rooted_putFile t.rooted hraw⟩, Option.pmap_eq_some_iff.mpr ⟨raw, _, hraw, rfl⟩⟩

theorem open_of_put {t t' : FileTree κ β} {p : FileRef κ} {f : Option β → β}
    (h : t.put p f = some t') : t.Open p := by
  obtain ⟨raw, -, hraw, -⟩ := Option.pmap_eq_some_iff.mp h
  unfold putFile at hraw
  split at hraw
  · rename_i hw hn
    exact ⟨by rw [hw]; rfl, by rw [hn]; simp⟩
  · rename_i hw hn
    exact ⟨by rw [hw]; rfl, by rw [hn]; simp⟩
  · simp at hraw

omit [DecidableEq κ] in
theorem open_of_read {t : FileTree κ β} {p : FileRef κ} (h : (t.read p).isSome) : t.Open p := by
  obtain ⟨b, hb⟩ := Option.isSome_iff_exists.mp h
  obtain ⟨hw, hf⟩ := readFile_eq_some_iff.mp hb
  refine ⟨hw, fun hd => ?_⟩
  simp [fileAt, hd] at hf

omit [DecidableEq κ] in
theorem Le.open {t t' : FileTree κ β} (h : t.Le t') {p : FileRef κ} (hp : t.Open p)
    (hd : t'.node p.key ≠ some .dir) : t'.Open p := by
  obtain ⟨k, hk⟩ := Option.isSome_iff_exists.mp hp.1
  exact ⟨by rw [Grows.walk h hk]; rfl, hd⟩

theorem mkdirs_of_open {t : FileTree κ β} {p : FileRef κ} (h : t.Open p) : t.mkdirs p.dir = t := by
  obtain ⟨k, hk⟩ := Option.isSome_iff_exists.mp h.1
  obtain ⟨node, rooted⟩ := t
  simp only [mkdirs, mk.injEq]
  exact mkdirs_of_walk hk

theorem open_unlink {t : FileTree κ β} {p : FileRef κ} (h : t.Open p) (q : FileRef κ) :
    (t.unlink q).Open p :=
  ⟨by rw [unlink, walk_unlink]; exact h.1, fun hd => h.2 ((unlink_eq_dir_iff t.node q _).mp hd)⟩

theorem file_unlink_of_ne (t : FileTree κ β) {p : FileRef κ} {k : List κ} (h : k ≠ p.key) :
    (t.unlink p).file k = t.file k :=
  fileAt_unlink_of_ne t.node h

theorem file_unlink (t : FileTree κ β) (p : FileRef κ) (k : List κ) :
    (t.unlink p).file k = t.file k ∨ (t.unlink p).file k = none :=
  fileAt_unlink t.node p k

theorem file_unlink_self {t : FileTree κ β} {p : FileRef κ} (h : (t.read p).isSome) :
    (t.unlink p).file p.key = none :=
  fileAt_unlink_self h

theorem read_unlink_or (t : FileTree κ β) (p q : FileRef κ) :
    (t.unlink p).read q = t.read q ∨ (t.unlink p).file q.key = none :=
  readFile_unlink_or t.node p q

theorem read_unlink_of_ne (t : FileTree κ β) {p q : FileRef κ} (h : q.key ≠ p.key) :
    (t.unlink p).read q = t.read q :=
  readFile_unlink_of_ne t.node h

theorem read_unlink_self (t : FileTree κ β) (p : FileRef κ) : (t.unlink p).read p = none :=
  readFile_unlink_self t.node p

end FileTree

end OsMoap.Lib
