import Mathlib.Data.List.Nodup
import Mathlib.Logic.Function.Basic
import Mathlib.Data.Nat.Notation

/-!
# Tables of Chains

A hash table with a chain of entries for each value of the hash.  A key is in one entry at most, so
that unlinking the entry found leaves none behind.

What a table says is `get`; the rules give `get` after each operation, whatever the hash is.
-/

namespace OsMoap.Lib

variable {κ ν : Type*}

/-! ## A chain -/

section Chain

variable [DecidableEq κ]

def findEntry (k : κ) : List (κ × ν) → Option ν
  | [] => none
  | e :: es => if e.1 = k then some e.2 else findEntry k es

/-- A new entry goes to the end of the chain. -/
def putEntry (k : κ) (v : ν) : List (κ × ν) → List (κ × ν)
  | [] => [(k, v)]
  | e :: es => if e.1 = k then (k, v) :: es else e :: putEntry k v es

def unlinkEntry (k : κ) : List (κ × ν) → List (κ × ν)
  | [] => []
  | e :: es => if e.1 = k then es else e :: unlinkEntry k es

theorem findEntry_eq_none {k : κ} {es : List (κ × ν)} (h : k ∉ es.map Prod.fst) :
    findEntry k es = none := by
  induction es with
  | nil => rfl
  | cons e es ih =>
    rw [List.map_cons, List.mem_cons, not_or] at h
    rw [findEntry, if_neg (Ne.symm h.1)]
    exact ih h.2

theorem findEntry_put (k j : κ) (v : ν) (es : List (κ × ν)) :
    findEntry j (putEntry k v es) = if j = k then some v else findEntry j es := by
  induction es with
  | nil => simp [putEntry, findEntry, eq_comm]
  | cons e es ih =>
    rw [putEntry]
    by_cases he : e.1 = k
    · rw [if_pos he, findEntry, findEntry, he]
      by_cases hj : j = k
      · rw [if_pos hj.symm, if_pos hj]
      · rw [if_neg (Ne.symm hj), if_neg hj, if_neg (Ne.symm hj)]
    · rw [if_neg he, findEntry, findEntry, ih]
      by_cases hj : e.1 = j
      · have hne : j ≠ k := hj ▸ he
        rw [if_pos hj, if_neg hne, if_pos hj]
      · rw [if_neg hj, if_neg hj]

theorem findEntry_unlink {k : κ} {es : List (κ × ν)} (h : (es.map Prod.fst).Nodup) (j : κ) :
    findEntry j (unlinkEntry k es) = if j = k then none else findEntry j es := by
  induction es with
  | nil => simp [unlinkEntry, findEntry]
  | cons e es ih =>
    rw [List.map_cons, List.nodup_cons] at h
    rw [unlinkEntry]
    by_cases he : e.1 = k
    · rw [if_pos he, findEntry, he]
      by_cases hj : j = k
      · -- the key is in no other entry
        rw [if_pos hj, findEntry_eq_none (hj ▸ he ▸ h.1)]
      · rw [if_neg hj, if_neg (Ne.symm hj)]
    · rw [if_neg he, findEntry, findEntry, ih h.2]
      by_cases hj : e.1 = j
      · have hne : j ≠ k := hj ▸ he
        rw [if_pos hj, if_neg hne, if_pos hj]
      · rw [if_neg hj, if_neg hj]

theorem findEntry_filter {es : List (κ × ν)} (h : (es.map Prod.fst).Nodup) (p : ν → Bool)
    (j : κ) : findEntry j (es.filter fun e => p e.2) = (findEntry j es).filter p := by
  induction es with
  | nil => rfl
  | cons e es ih =>
    rw [List.map_cons, List.nodup_cons] at h
    rw [findEntry]
    by_cases hj : e.1 = j
    · rw [if_pos hj, Option.filter_some]
      by_cases hp : p e.2 = true
      · simp [hp, findEntry, hj]
      · have hrest : findEntry j es = none := findEntry_eq_none (hj ▸ h.1)
        simp [hp, ih h.2, hrest]
    · rw [if_neg hj, ← ih h.2]
      by_cases hp : p e.2 = true
      · simp [hp, findEntry, hj]
      · simp [hp]

theorem findEntry_map (f : ν → ν) (es : List (κ × ν)) (j : κ) :
    findEntry j (es.map fun e => (e.1, f e.2)) = (findEntry j es).map f := by
  induction es with
  | nil => rfl
  | cons e es ih =>
    rw [List.map_cons, findEntry, findEntry, ih]
    by_cases hj : e.1 = j
    · rw [if_pos hj, if_pos hj, Option.map_some]
    · rw [if_neg hj, if_neg hj]

theorem mem_keys_put {k j : κ} {v : ν} {es : List (κ × ν)}
    (h : j ∈ (putEntry k v es).map Prod.fst) : j = k ∨ j ∈ es.map Prod.fst := by
  induction es with
  | nil => exact .inl (List.mem_singleton.1 h)
  | cons e es ih =>
    rw [putEntry] at h
    by_cases he : e.1 = k
    · rw [if_pos he, List.map_cons, List.mem_cons] at h
      rcases h with h | h
      · exact .inl h
      · exact .inr (List.mem_cons_of_mem _ h)
    · rw [if_neg he, List.map_cons, List.mem_cons] at h
      rcases h with h | h
      · exact .inr (h ▸ List.mem_cons_self)
      · rcases ih h with h | h
        · exact .inl h
        · exact .inr (List.mem_cons_of_mem _ h)

theorem nodup_put {es : List (κ × ν)} (h : (es.map Prod.fst).Nodup) (k : κ) (v : ν) :
    ((putEntry k v es).map Prod.fst).Nodup := by
  induction es with
  | nil => exact List.nodup_singleton _
  | cons e es ih =>
    rw [List.map_cons, List.nodup_cons] at h
    rw [putEntry]
    by_cases he : e.1 = k
    · rw [if_pos he, List.map_cons, List.nodup_cons]
      exact ⟨he ▸ h.1, h.2⟩
    · rw [if_neg he, List.map_cons, List.nodup_cons]
      refine ⟨fun hmem => ?_, ih h.2⟩
      rcases mem_keys_put hmem with hmem | hmem
      · exact he hmem
      · exact h.1 hmem

theorem unlinkEntry_sublist (k : κ) (es : List (κ × ν)) : (unlinkEntry k es).Sublist es := by
  induction es with
  | nil => exact List.Sublist.refl _
  | cons e es ih =>
    rw [unlinkEntry]
    by_cases he : e.1 = k
    · rw [if_pos he]
      exact List.sublist_cons_self e es
    · rw [if_neg he]
      exact ih.cons_cons e

end Chain

/-! ## The table -/

/-- A chain for each of the `n` values of the hash. -/
structure Buckets (n : ℕ) (hash : κ → Fin n) (ν : Type*) where
  chains : Fin n → List (κ × ν)
  nodup : ∀ i, ((chains i).map Prod.fst).Nodup

namespace Buckets

variable {n : ℕ} {hash : κ → Fin n}

def empty : Buckets n hash ν := ⟨fun _ => [], fun _ => List.nodup_nil⟩

/-- Every entry that fails the test is unlinked. -/
def keep (t : Buckets n hash ν) (p : ν → Bool) : Buckets n hash ν where
  chains i := (t.chains i).filter fun e => p e.2
  nodup i := (t.nodup i).sublist (List.filter_sublist.map Prod.fst)

/-- Every entry is changed in its place. -/
def mark (t : Buckets n hash ν) (f : ν → ν) : Buckets n hash ν where
  chains i := (t.chains i).map fun e => (e.1, f e.2)
  nodup i := by
    rw [List.map_map]
    exact t.nodup i

variable [DecidableEq κ]

def get (t : Buckets n hash ν) (k : κ) : Option ν := findEntry k (t.chains (hash k))

def put (t : Buckets n hash ν) (k : κ) (v : ν) : Buckets n hash ν where
  chains := Function.update t.chains (hash k) (putEntry k v (t.chains (hash k)))
  nodup i := by
    by_cases hi : i = hash k
    · rw [hi, Function.update_self]
      exact nodup_put (t.nodup _) k v
    · rw [Function.update_of_ne hi]
      exact t.nodup i

def unlink (t : Buckets n hash ν) (k : κ) : Buckets n hash ν where
  chains := Function.update t.chains (hash k) (unlinkEntry k (t.chains (hash k)))
  nodup i := by
    by_cases hi : i = hash k
    · rw [hi, Function.update_self]
      exact (t.nodup _).sublist ((unlinkEntry_sublist k _).map Prod.fst)
    · rw [Function.update_of_ne hi]
      exact t.nodup i

theorem get_put (t : Buckets n hash ν) (k : κ) (v : ν) (j : κ) :
    (t.put k v).get j = if j = k then some v else t.get j := by
  simp only [get, put]
  by_cases hj : hash j = hash k
  · rw [hj, Function.update_self]
    apply findEntry_put
  · have hne : j ≠ k := fun h => hj (h ▸ rfl)
    rw [Function.update_of_ne hj, if_neg hne]

theorem get_unlink (t : Buckets n hash ν) (k j : κ) :
    (t.unlink k).get j = if j = k then none else t.get j := by
  simp only [get, unlink]
  by_cases hj : hash j = hash k
  · rw [hj, Function.update_self]
    exact findEntry_unlink (t.nodup _) j
  · have hne : j ≠ k := fun h => hj (h ▸ rfl)
    rw [Function.update_of_ne hj, if_neg hne]

@[simp]
theorem get_keep (t : Buckets n hash ν) (p : ν → Bool) (j : κ) :
    (t.keep p).get j = (t.get j).filter p :=
  findEntry_filter (t.nodup _) p j

@[simp]
theorem get_mark (t : Buckets n hash ν) (f : ν → ν) (j : κ) :
    (t.mark f).get j = (t.get j).map f :=
  findEntry_map f (t.chains (hash j)) j

end Buckets

end OsMoap.Lib
