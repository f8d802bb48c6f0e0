import Mathlib.Data.List.Basic
import Mathlib.Logic.Function.Basic
import Mathlib.Data.Nat.Notation

/-!
# Tables of Numbered Slots

A table maps numbers to values and is empty from some number on, as a table of descriptors is.
`lowest k` is the first empty slot from `k` on, the slot in which a new value is put.
-/

namespace OsMoap.Lib

/-- A table with the slots up to some number written out. -/
structure Table (α : Type*) where
  slots : List (Option α)
  deriving DecidableEq

namespace Table

variable {α : Type*}

def get (t : Table α) (n : ℕ) : Option α := t.slots[n]?.join

def set (t : Table α) (n : ℕ) (v : Option α) : Table α :=
  ⟨(List.range (max t.slots.length (n + 1))).map fun m => if m = n then v else t.get m⟩

/-- The first empty slot from `k` on. -/
def lowest (t : Table α) (k : ℕ) : ℕ := k + ((t.slots.drop k).takeWhile Option.isSome).length

theorem get_eq_none_of_length_le {t : Table α} {n : ℕ} (h : t.slots.length ≤ n) :
    t.get n = none := by
  rw [get, List.getElem?_eq_none h]
  rfl

theorem get_set (t : Table α) (n : ℕ) (v : Option α) (m : ℕ) :
    (t.set n v).get m = if m = n then v else t.get m := by
  by_cases hm : m < max t.slots.length (n + 1)
  · simp [get, set, hm]
  · have hne : m ≠ n := by omega
    have hlen : t.slots.length ≤ m := by omega
    rw [if_neg hne, get_eq_none_of_length_le hlen]
    apply get_eq_none_of_length_le
    simp only [set, List.length_map, List.length_range]
    omega

@[simp]
theorem get_set_self (t : Table α) (n : ℕ) (v : Option α) : (t.set n v).get n = v := by
  rw [get_set, if_pos rfl]

theorem get_set_of_ne (t : Table α) {m n : ℕ} (h : m ≠ n) (v : Option α) :
    (t.set n v).get m = t.get m := by
  rw [get_set, if_neg h]

/-- Setting a slot updates the function that the table is. -/
theorem get_set_eq_update (t : Table α) (n : ℕ) (v : Option α) :
    (t.set n v).get = Function.update t.get n v := by
  funext m
  rw [get_set, Function.update_apply]

/-- What is set twice is what it was set to last. -/
theorem set_set (t : Table α) (n : ℕ) (v w : Option α) : (t.set n v).set n w = t.set n w := by
  have hlen : max (t.set n v).slots.length (n + 1) = max t.slots.length (n + 1) := by
    rw [set, List.length_map, List.length_range]
    omega
  have hslots : ∀ m, (if m = n then w else (t.set n v).get m) = if m = n then w else t.get m := by
    intro m
    by_cases hm : m = n
    · rw [if_pos hm, if_pos hm]
    · rw [if_neg hm, if_neg hm, get_set_of_ne _ hm]
  rw [set, hlen, set]
  congr 1
  exact List.map_congr_left fun m _ => hslots m

theorem le_lowest (t : Table α) (k : ℕ) : k ≤ t.lowest k := Nat.le_add_right ..

/-- The slot found is empty. -/
@[simp]
theorem get_lowest (t : Table α) (k : ℕ) : t.get (t.lowest k) = none := by
  have hdrop : t.get (t.lowest k) =
      (t.slots.drop k)[((t.slots.drop k).takeWhile Option.isSome).length]?.join := by
    rw [get, lowest, List.getElem?_drop]
  rw [hdrop]
  generalize t.slots.drop k = l
  induction l with
  | nil => rfl
  | cons o l ih =>
    cases o with
    | none => rfl
    | some a =>
      rw [List.takeWhile_cons_of_pos rfl, List.length_cons, List.getElem?_cons_succ]
      exact ih

/-- The slot found is the first empty one. -/
theorem lowest_eq {t : Table α} {k n : ℕ} (hk : k ≤ n) (hn : t.get n = none)
    (hbelow : ∀ m, k ≤ m → m < n → (t.get m).isSome) : t.lowest k = n := by
  obtain ⟨i, rfl⟩ := Nat.exists_eq_add_of_le hk
  have hget : ∀ m, t.get (k + m) = (t.slots.drop k)[m]?.join := by
    intro m
    rw [get, List.getElem?_drop]
  have hlen : ((t.slots.drop k).takeWhile Option.isSome).length = i := by
    have hn' : (t.slots.drop k)[i]?.join = none := by rw [← hget, hn]
    have hbelow' : ∀ m < i, ((t.slots.drop k)[m]?.join).isSome := by
      intro m hm
      rw [← hget]
      exact hbelow (k + m) (by omega) (by omega)
    clear hget hn hbelow hk
    -- along the slots from `k` on
    generalize t.slots.drop k = l at hn' hbelow'
    induction l generalizing i with
    | nil =>
      cases i with
      | zero => rfl
      | succ i => exact absurd (hbelow' 0 (by omega)) (by simp)
    | cons o l ih =>
      cases i with
      | zero =>
        obtain rfl : o = none := hn'
        rfl
      | succ i =>
        have ho : o.isSome := hbelow' 0 (by omega)
        rw [List.takeWhile_cons_of_pos ho, List.length_cons]
        rw [ih i hn' fun m hm => hbelow' (m + 1) (by omega)]
  rw [lowest, hlen]

end Table

end OsMoap.Lib
