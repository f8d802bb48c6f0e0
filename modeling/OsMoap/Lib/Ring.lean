import Mathlib.Data.List.Range
import Mathlib.Logic.Function.Basic

/-!
# Ring Buffers

A ring of `n` slots with a head, where the next element is taken, and a tail, where the next one is
put.  The ring is empty where they meet, so it holds at most `n - 1` elements.

`ringList` is the queue a ring holds.  Putting appends to it (`ringList_push`) while there is room
and taking removes its first element (`ringList_pop`).
-/

namespace OsMoap.Lib

variable {α : Type*} {n : ℕ}

/-- How many elements there are between head and tail. -/
def ringSize (n head tail : ℕ) : ℕ := (tail + n - head) % n

/-- The elements from the head to the tail. -/
def ringList (n : ℕ) (slots : ℕ → α) (head tail : ℕ) : List α :=
  (List.range (ringSize n head tail)).map fun i => slots ((head + i) % n)

@[simp]
theorem length_ringList (slots : ℕ → α) (head tail : ℕ) :
    (ringList n slots head tail).length = ringSize n head tail := by
  rw [ringList, List.length_map, List.length_range]

/-- The next slot is the next number, or 0 behind the last. -/
theorem next_cases {i : ℕ} (h : i < n) :
    i + 1 < n ∧ (i + 1) % n = i + 1 ∨ i + 1 = n ∧ (i + 1) % n = 0 := by
  rcases Nat.lt_or_ge (i + 1) n with hlt | hge
  · exact Or.inl ⟨hlt, Nat.mod_eq_of_lt hlt⟩
  · have hend : i + 1 = n := by omega
    exact Or.inr ⟨hend, by rw [hend, Nat.mod_self]⟩

/-- The size, without or with a wrap between head and tail. -/
theorem ringSize_cases (head : ℕ) {tail : ℕ} (htail : tail < n) :
    head ≤ tail ∧ ringSize n head tail = tail - head ∨
      tail < head ∧ (head < n → ringSize n head tail = tail + n - head) := by
  rcases Nat.lt_or_ge tail head with hlt | hge
  · exact Or.inr ⟨hlt, fun hhead => Nat.mod_eq_of_lt (by omega)⟩
  · refine Or.inl ⟨hge, ?_⟩
    have hsum : tail + n - head = (tail - head) + n := by omega
    rw [ringSize, hsum, Nat.add_mod_right, Nat.mod_eq_of_lt (by omega)]

section Positions

variable {head tail : ℕ} (hhead : head < n) (htail : tail < n)

include hhead htail

theorem ringSize_eq_zero : ringSize n head tail = 0 ↔ head = tail := by
  rcases ringSize_cases head htail with ⟨hle, hsize⟩ | ⟨hlt, hsize⟩
  · omega
  · have := hsize hhead
    omega

theorem ringSize_lt : ringSize n head tail < n := by
  rcases ringSize_cases head htail with ⟨hle, hsize⟩ | ⟨hlt, hsize⟩
  · omega
  · have := hsize hhead
    omega

/-- The tail is so far behind the head. -/
theorem add_ringSize : (head + ringSize n head tail) % n = tail := by
  rcases ringSize_cases head htail with ⟨hle, hsize⟩ | ⟨hlt, hsize⟩
  · rw [hsize, Nat.add_sub_cancel' hle, Nat.mod_eq_of_lt htail]
  · rw [hsize hhead, Nat.add_sub_cancel' (by omega), Nat.add_mod_right, Nat.mod_eq_of_lt htail]

/-- Room for one more. -/
theorem ringSize_push (hroom : (tail + 1) % n ≠ head) :
    ringSize n head ((tail + 1) % n) = ringSize n head tail + 1 := by
  have hnext : (tail + 1) % n < n := Nat.mod_lt _ (by omega)
  have hold := ringSize_cases head htail
  have hnew := ringSize_cases head hnext
  rcases next_cases htail with ⟨hlt, hmod⟩ | ⟨hend, hmod⟩
  · rw [hmod] at hroom hnew ⊢
    omega
  · rw [hmod] at hroom hnew ⊢
    omega

/-- One less behind the next head. -/
theorem ringSize_pop (hne : head ≠ tail) :
    ringSize n head tail = ringSize n ((head + 1) % n) tail + 1 := by
  have hold := ringSize_cases head htail
  have hnew := ringSize_cases ((head + 1) % n) htail
  rcases next_cases hhead with ⟨hlt, hmod⟩ | ⟨hend, hmod⟩
  · rw [hmod] at hnew ⊢
    omega
  · rw [hmod] at hnew ⊢
    omega

/-- The ring is full exactly when it holds all but one. -/
theorem ring_full_iff : (tail + 1) % n = head ↔ ringSize n head tail = n - 1 := by
  have hsize := ringSize_cases head htail
  rcases next_cases htail with ⟨hlt, hmod⟩ | ⟨hend, hmod⟩
  · rw [hmod]
    omega
  · rw [hmod]
    omega

/-- **Putting** while there is room appends. -/
theorem ringList_push (slots : ℕ → α) (a : α) (hroom : (tail + 1) % n ≠ head) :
    ringList n (Function.update slots tail a) head ((tail + 1) % n)
      = ringList n slots head tail ++ [a] := by
  have hlast := add_ringSize hhead htail
  have hsize := ringSize_lt hhead htail
  rw [ringList, ringSize_push hhead htail hroom, List.range_succ, List.map_append, ringList,
    List.map_singleton, hlast, Function.update_self]
  congr 1
  apply List.map_congr_left
  intro i hi
  apply Function.update_of_ne
  -- slots before the tail are different from it
  have hlt : i < ringSize n head tail := List.mem_range.mp hi
  rcases ringSize_cases head htail with ⟨hle, heq⟩ | ⟨hbefore, heq⟩
  · rw [Nat.mod_eq_of_lt (by omega)]
    omega
  · have heq := heq hhead
    rcases Nat.lt_or_ge (head + i) n with hin | hout
    · rw [Nat.mod_eq_of_lt hin]
      omega
    · rw [Nat.mod_eq_sub_mod hout, Nat.mod_eq_of_lt (by omega)]
      omega

/-- **Taking** from a ring that is not empty removes the first. -/
theorem ringList_pop (slots : ℕ → α) (hne : head ≠ tail) :
    ringList n slots head tail = slots head :: ringList n slots ((head + 1) % n) tail := by
  rw [ringList, ringSize_pop hhead htail hne, List.range_succ_eq_map, List.map_cons, Nat.add_zero,
    Nat.mod_eq_of_lt hhead, List.map_map, ringList]
  congr 1
  apply List.map_congr_left
  intro i _
  change slots ((head + (i + 1)) % n) = slots (((head + 1) % n + i) % n)
  rw [Nat.mod_add_mod, Nat.add_assoc, Nat.add_comm 1 i]

end Positions

end OsMoap.Lib
