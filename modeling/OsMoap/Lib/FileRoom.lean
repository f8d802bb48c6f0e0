import OsMoap.Lib.FileTree
import Mathlib.Data.List.Basic

/-!
# Room for Files

Creating files by plain paths, without `.` and `..`.  `Fits` says that a tree has room for a
file at a place: no file on the way, no directory at the place.  Creating one file leaves room
for every other that is `Clear` of it (`create_of_fits`), so files that are pairwise clear of
each other, and in particular those that lie `Apart`, can be created one after the other.

Conversely, what can be read after the tree has grown had room before (`fits_of_read`).
-/

namespace OsMoap.Lib

variable {κ β : Type*}

/-- Neither place lies on the way to the other. -/
def Apart (a b : List κ) : Prop := ¬ a <+: b ∧ ¬ b <+: a

theorem Apart.symm {a b : List κ} (h : Apart a b) : Apart b a := ⟨h.2, h.1⟩

theorem Apart.ne {a b : List κ} (h : Apart a b) : a ≠ b := fun heq => h.1 (heq ▸ List.prefix_rfl)

/-- Neither place lies on the way to the other, unless they are one. -/
def Clear (a b : List κ) : Prop := a <+: b ∨ b <+: a → a = b

theorem Clear.symm {a b : List κ} (h : Clear a b) : Clear b a := fun hp => (h hp.symm).symm

theorem Apart.clear {a b : List κ} (h : Apart a b) : Clear a b := fun hp => absurd hp (by
  rw [not_or]
  exact h)

/-- Places that differ in a first name are apart, and so are those that differ behind it. -/
theorem apart_cons_cons {c d : κ} {a b : List κ} (h : c = d → Apart a b) :
    Apart (c :: a) (d :: b) := by
  constructor
  · intro hp
    obtain ⟨rfl, hab⟩ := List.cons_prefix_cons.mp hp
    exact (h rfl).1 hab
  · intro hp
    obtain ⟨rfl, hba⟩ := List.cons_prefix_cons.mp hp
    exact (h rfl).2 hba

/-- Renaming keeps places apart. -/
theorem Apart.map {κ' : Type*} {f : κ → κ'} (hf : Function.Injective f) {a b : List κ}
    (h : Apart a b) : Apart (a.map f) (b.map f) := by
  have hpre : ∀ {x y : List κ}, x.map f <+: y.map f → x <+: y := by
    rintro x y ⟨t, ht⟩
    have htake : (y.take x.length).map f = x.map f := by
      rw [List.map_take, ← ht, List.take_left' (by rw [List.length_map])]
    rw [← List.map_injective_iff.mpr hf htake]
    exact List.take_prefix _ _
  exact ⟨fun hab => h.1 (hpre hab), fun hba => h.2 (hpre hba)⟩

/-- The path through named directories to a name. -/
def plainRef (names : List κ) (last : κ) : FileRef κ := ⟨.here :: names.map .name, last⟩

theorem place_names (cur names : List κ) : place cur (names.map .name) = cur ++ names := by
  induction names generalizing cur with
  | nil => simp [place]
  | cons c names ih =>
    have hstep : place cur ((c :: names).map .name) = place (cur ++ [c]) (names.map .name) := rfl
    rw [hstep, ih, List.append_assoc, List.singleton_append]

@[simp]
theorem key_plainRef (names : List κ) (last : κ) : (plainRef names last).key = names ++ [last] := by
  have hplace : place [] (plainRef names last).dir = names := by
    have := place_names [] names
    rwa [List.nil_append] at this
  rw [FileRef.key, hplace]
  rfl

theorem up_not_mem_plainRef (names : List κ) (last : κ) : Seg.up ∉ (plainRef names last).dir := by
  simp [plainRef]

/-- An open way leads through directories. -/
theorem dir_of_walk_names {t : Tree κ β} {cur names : List κ}
    (h : (walk t cur (names.map .name)).isSome) :
    ∀ p, p <+: names → p ≠ [] → t (cur ++ p) = some .dir := by
  induction names generalizing cur with
  | nil =>
    intro p hp hne
    exact absurd (List.prefix_nil.mp hp) hne
  | cons c names ih =>
    simp only [List.map_cons, walk] at h
    split at h
    · rename_i hdir
      intro p hp hne
      obtain ⟨d, p, rfl⟩ := List.exists_cons_of_ne_nil hne
      obtain ⟨rfl, htail⟩ := List.cons_prefix_cons.mp hp
      cases p with
      | nil => exact hdir
      | cons e p =>
        have := ih h (e :: p) htail (by simp)
        rwa [List.append_assoc, List.singleton_append] at this
    · simp at h

section Create

variable [DecidableEq κ]

/-- Where no file is in the way, the directories are made, and nothing else. -/
theorem mkdirs_names {t : Tree κ β} {cur names : List κ}
    (h : ∀ p, p <+: names → p ≠ [] → fileAt t (cur ++ p) = none) :
    (walk (mkdirs t cur (names.map .name)) cur (names.map .name)).isSome ∧
      ∀ k, mkdirs t cur (names.map .name) k = t k ∨
        (mkdirs t cur (names.map .name) k = some .dir ∧ ∃ p, p <+: names ∧ p ≠ [] ∧ k = cur ++ p) := by
  induction names generalizing t cur with
  | nil => exact ⟨rfl, fun k => Or.inl rfl⟩
  | cons c names ih =>
    -- the way behind the first directory, once that one is there
    have hrest : ∀ t' : Tree κ β, t' (cur ++ [c]) = some .dir →
        (∀ k, k ≠ cur ++ [c] → t' k = t k) →
        (walk (mkdirs t' (cur ++ [c]) (names.map .name)) cur ((c :: names).map .name)).isSome ∧
        ∀ k, mkdirs t' (cur ++ [c]) (names.map .name) k = t k ∨
          (mkdirs t' (cur ++ [c]) (names.map .name) k = some .dir ∧
            ∃ p, p <+: c :: names ∧ p ≠ [] ∧ k = cur ++ p) := by
      intro t' hdir hsame
      have hfree : ∀ p, p <+: names → p ≠ [] → fileAt t' (cur ++ [c] ++ p) = none := by
        intro p hp hne
        have hk : cur ++ [c] ++ p ≠ cur ++ [c] := fun heq => hne (by simpa using heq)
        rw [fileAt, hsame _ hk, ← fileAt, List.append_assoc, List.singleton_append]
        exact h (c :: p) (List.cons_prefix_cons.mpr ⟨rfl, hp⟩) (by simp)
      obtain ⟨hwalk, hnodes⟩ := ih hfree
      constructor
      · have hstill := ((grows_mkdirs t' (cur ++ [c]) (names.map .name)).1 (cur ++ [c])).1 hdir
        simp only [List.map_cons, walk, hstill]
        exact hwalk
      · intro k
        rcases hnodes k with hk | ⟨hk, p, hp, hne, rfl⟩
        · by_cases hkc : k = cur ++ [c]
          · exact Or.inr ⟨by rw [hk, hkc, hdir], [c], by simp, by simp, hkc⟩
          · exact Or.inl (hk.trans (hsame k hkc))
        · exact Or.inr ⟨hk, c :: p, List.cons_prefix_cons.mpr ⟨rfl, hp⟩, by simp, by simp⟩
    simp only [List.map_cons, mkdirs]
    rcases hc : t (cur ++ [c]) with _ | (_ | b)
    · exact hrest _ (Function.update_self ..) fun k hk => Function.update_of_ne hk ..
    · exact hrest t hc fun _ _ => rfl
    · have := h [c] (by simp) (by simp)
      simp [fileAt, hc] at this

namespace FileTree

/-- The tree has room for a file at a place. -/
def Fits (t : FileTree κ β) (k : List κ) : Prop :=
  (∀ p, p <+: k → p ≠ [] → p ≠ k → t.file p = none) ∧ t.node k ≠ some .dir

/-- **Creating a file** where it fits leaves room for all files clear of it. -/
theorem create_of_fits {t : FileTree κ β} {names : List κ} {last : κ}
    (hfit : t.Fits (names ++ [last])) (f : Option β → β) :
    ∃ t', (t.mkdirs (plainRef names last).dir).put (plainRef names last) f = some t' ∧
      ∀ k, Clear k (names ++ [last]) → t.Fits k → t'.Fits k := by
  have hfree : ∀ p, p <+: names → p ≠ [] → fileAt t.node ([] ++ p) = none := by
    intro p hp hne
    refine hfit.1 p (hp.trans (List.prefix_append _ _)) hne fun heq => ?_
    have hlen := hp.length_le
    rw [heq, List.length_append, List.length_singleton] at hlen
    omega
  obtain ⟨hwalk, hnodes⟩ := mkdirs_names hfree
  have hnode : ∀ k, (t.mkdirs (plainRef names last).dir).node k = t.node k ∨
      ((t.mkdirs (plainRef names last).dir).node k = some .dir ∧
        ∃ p, p <+: names ∧ p ≠ [] ∧ k = [] ++ p) := hnodes
  have hopen : (t.mkdirs (plainRef names last).dir).Open (plainRef names last) := by
    refine ⟨hwalk, fun hd => ?_⟩
    rw [key_plainRef] at hd
    rcases hnode (names ++ [last]) with hk | ⟨-, p, hp, -, heq⟩
    · exact hfit.2 (hk ▸ hd)
    · have hlen := hp.length_le
      rw [List.nil_append] at heq
      rw [← heq, List.length_append, List.length_singleton] at hlen
      omega
  obtain ⟨t', ht'⟩ := put_isSome hopen f
  refine ⟨t', ht', fun k hclear hk => ?_⟩
  obtain ⟨hle, hfile, -⟩ := put_eq_some ht'
  rw [file_mkdirs, key_plainRef] at hfile
  refine ⟨fun p hp hne hpk => ?_, fun hd => ?_⟩
  · have hp' : p ≠ names ++ [last] := by
      rintro rfl
      exact hpk (hclear (Or.inr hp)).symm
    rw [hfile, Function.update_of_ne hp']
    exact hk.1 p hp hne hpk
  · -- a directory that was not there before lies on the way to the new file
    have hmk : (t.mkdirs (plainRef names last).dir).node k = some .dir := by
      obtain ⟨raw, hraw', hraw, heq⟩ := Option.pmap_eq_some_iff.mp ht'
      rw [heq] at hd
      exact dir_of_putFile hraw hd
    rcases hnode k with hsame | ⟨-, p, hp, -, rfl⟩
    · exact hk.2 (hsame ▸ hmk)
    · have hlen := hp.length_le
      rw [hclear (Or.inl (hp.trans (List.prefix_append _ _))), List.length_append,
        List.length_singleton] at hlen
      omega

omit [DecidableEq κ] in
/-- What can be read once the tree has grown had room before. -/
theorem fits_of_read {t t' : FileTree κ β} (hle : t.Le t') {names : List κ} {last : κ}
    (h : (t'.read (plainRef names last)).isSome) : t.Fits (names ++ [last]) := by
  obtain ⟨b, hb⟩ := Option.isSome_iff_exists.mp h
  obtain ⟨hwalk, hfile⟩ := readFile_eq_some_iff.mp hb
  rw [key_plainRef] at hfile
  have hopen : (walk t'.node [] (names.map .name)).isSome := hwalk
  have hdirs := dir_of_walk_names hopen
  constructor
  · intro p hp hne hpk
    by_contra hsome
    have hp' : p <+: names := by
      rcases List.prefix_concat_iff.mp hp with heq | hp'
      · exact absurd heq hpk
      · exact hp'
    have hstill := (hle p).2 (Option.isSome_iff_ne_none.mpr hsome)
    have hdir := hdirs p hp' hne
    rw [List.nil_append] at hdir
    simp [fileAt, hdir] at hstill
  · intro hd
    have hdir := (hle (names ++ [last])).1 hd
    simp [fileAt, hdir] at hfile

end FileTree

end Create

end OsMoap.Lib
