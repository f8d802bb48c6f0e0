import Mathlib.Algebra.Order.Group.Nat
import Mathlib.Data.Nat.SuccPred
import Mathlib.Order.Interval.Set.Nat
import Mathlib.Order.SuccPred.IntervalSucc

/-!
# Edges of an Even Division

`edge len n i` is where part `i` begins when a length `len` is divided into `n` parts by truncating
division.  Part `i` is the interval from `edge len n i` to `edge len n (i + 1)`.

The parts are in order, begin at 0, end at `len` and cover every position once
(`existsUnique_part`, with `partAt` the part of a position).  None of them is empty exactly when there are no more of them than there are
positions (`forall_part_nonempty_iff`).
-/

namespace OsMoap.Lib

/-- Where part `i` of `n` begins. -/
def edge (len n i : ℕ) : ℕ := i * len / n

variable {len n : ℕ}

@[simp]
theorem edge_zero : edge len n 0 = 0 := by
  rw [edge, Nat.zero_mul, Nat.zero_div]

theorem edge_last (h : 0 < n) : edge len n n = len := by
  rw [edge, Nat.mul_div_cancel_left len h]

theorem edge_mono : Monotone (edge len n) := fun _ _ h =>
  Nat.div_le_div_right (Nat.mul_le_mul_right len h)

theorem edge_le {i : ℕ} (h : i ≤ n) (hn : 0 < n) : edge len n i ≤ len :=
  (edge_mono h).trans_eq (edge_last hn)

/-- With no more parts than positions, each part has one. -/
theorem edge_lt_succ (h : n ≤ len) (hn : 0 < n) (i : ℕ) : edge len n i < edge len n (i + 1) := by
  have hstep : i * len + n ≤ (i + 1) * len := by
    rw [Nat.succ_mul]
    exact Nat.add_le_add_left h _
  calc edge len n i < i * len / n + 1 := Nat.lt_succ_self _
    _ = (i * len + n) / n := (Nat.add_div_right _ hn).symm
    _ ≤ edge len n (i + 1) := Nat.div_le_div_right hstep

/-- Where each part has a position, the edges run ahead of their numbers. -/
theorem le_edge_of_forall (h : ∀ i < n, edge len n i < edge len n (i + 1)) :
    ∀ i ≤ n, i ≤ edge len n i := by
  intro i
  induction i with
  | zero => exact fun _ => Nat.zero_le _
  | succ i ih =>
    intro hi
    have hprev := ih (by omega)
    have hlt := h i hi
    omega

theorem forall_part_nonempty_iff (hn : 0 < n) :
    (∀ i < n, edge len n i < edge len n (i + 1)) ↔ n ≤ len := by
  constructor
  · intro h
    have hlast := le_edge_of_forall h n le_rfl
    rwa [edge_last hn] at hlast
  · exact fun h i _ => edge_lt_succ h hn i

/-- Different parts share no position. -/
theorem part_unique {i j x : ℕ} (hi : edge len n i ≤ x ∧ x < edge len n (i + 1))
    (hj : edge len n j ≤ x ∧ x < edge len n (j + 1)) : i = j := by
  by_contra hne
  have hmono : Monotone (edge len n) := edge_mono
  have hdisjoint := hmono.pairwise_disjoint_on_Ico_succ hne
  exact Set.disjoint_left.mp hdisjoint hi hj

/-- The part a position lies in. -/
def partAt (len n x : ℕ) : ℕ := ((x + 1) * n - 1) / len

theorem le_partAt_iff (hn : 0 < n) (hlen : 0 < len) {i x : ℕ} :
    i ≤ partAt len n x ↔ edge len n i ≤ x := by
  have hpos : 0 < (x + 1) * n := Nat.mul_pos (Nat.succ_pos x) hn
  calc i ≤ partAt len n x ↔ i * len ≤ (x + 1) * n - 1 := Nat.le_div_iff_mul_le hlen
    _ ↔ i * len < (x + 1) * n := by omega
    _ ↔ i * len / n < x + 1 := (Nat.div_lt_iff_lt_mul hn).symm
    _ ↔ edge len n i ≤ x := Nat.lt_succ_iff

theorem partAt_spec (hn : 0 < n) {x : ℕ} (hx : x < len) :
    partAt len n x < n ∧ edge len n (partAt len n x) ≤ x ∧ x < edge len n (partAt len n x + 1) := by
  have hlen : 0 < len := Nat.zero_lt_of_lt hx
  refine ⟨?_, (le_partAt_iff hn hlen).mp le_rfl, ?_⟩
  · apply Nat.not_le.mp
    rw [le_partAt_iff hn hlen, edge_last hn]
    exact Nat.not_le.mpr hx
  · apply Nat.not_le.mp
    rw [← le_partAt_iff hn hlen]
    exact Nat.not_succ_le_self _

theorem partAt_eq (hn : 0 < n) {i x : ℕ} (hx : x < len)
    (hi : edge len n i ≤ x ∧ x < edge len n (i + 1)) : partAt len n x = i :=
  part_unique (partAt_spec hn hx).2 hi

/-- Every position lies in one part. -/
theorem existsUnique_part (hn : 0 < n) {x : ℕ} (hx : x < len) :
    ∃! i, i < n ∧ edge len n i ≤ x ∧ x < edge len n (i + 1) :=
  ⟨partAt len n x, partAt_spec hn hx, fun _ hi => (partAt_eq hn hx hi.2).symm⟩

end OsMoap.Lib
