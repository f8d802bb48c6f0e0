import Mathlib.Data.List.Basic
import Mathlib.Tactic.Ring

/-!
# Consecutive Slices of a List

A list cut into consecutive slices of a fixed width, the last one possibly short:
the Python idiom `[t[i:i + w] for i in range(0, len(t), w)]`.

Slicing commutes with dropping and taking whole slices (`drop_slices`, `take_slices`),
so any run of slices concatenates to one contiguous part of the list
(`flatten_take_drop_slices`).  Slicing the list of slices again then gives the two-level
address law `flatten_run_in_group`: a run of slices that starts at a multiple of its own
length never crosses the boundary of a group made of whole runs.
-/

namespace OsMoap.Lib

variable {α : Type*}

/-- The consecutive slices of width `w` of `t`. -/
def slices (w : ℕ) (t : List α) : List (List α) :=
  (List.range ((t.length + w - 1) / w)).map fun k => (t.drop (k * w)).take w

/-! ## Counting slices -/

@[simp]
theorem length_slices (w : ℕ) (t : List α) :
    (slices w t).length = (t.length + w - 1) / w := by
  simp [slices]

@[simp]
theorem getElem_slices (w : ℕ) (t : List α) (k : ℕ) (h : k < (slices w t).length) :
    (slices w t)[k] = (t.drop (k * w)).take w := by
  simp [slices]

/-- There is a `k`-th slice exactly when the list reaches past `k * w`. -/
theorem lt_length_slices {w : ℕ} (hw : 0 < w) (t : List α) (k : ℕ) :
    k < (slices w t).length ↔ k * w < t.length := by
  rw [length_slices, Nat.lt_iff_add_one_le, Nat.le_div_iff_mul_le hw]
  have hmul : (k + 1) * w = k * w + w := by ring
  omega

theorem slices_eq_nil {w : ℕ} (hw : 0 < w) {t : List α} : slices w t = [] ↔ t = [] := by
  rw [← List.length_eq_zero_iff, ← List.length_eq_zero_iff]
  have h := lt_length_slices hw t 0
  omega

/-! ## Slicing commutes with dropping and taking whole slices -/

theorem drop_slices {w : ℕ} (hw : 0 < w) (t : List α) (a : ℕ) :
    (slices w t).drop a = slices w (t.drop (a * w)) := by
  have hlen : ∀ k, k < ((slices w t).drop a).length ↔ k < (slices w (t.drop (a * w))).length := by
    intro k
    have hk := lt_length_slices hw t (a + k)
    have hk' := lt_length_slices hw (t.drop (a * w)) k
    have hmul : (a + k) * w = a * w + k * w := by ring
    rw [List.length_drop] at hk' ⊢
    omega
  apply List.ext_getElem
  · have h₁ := hlen ((slices w t).drop a).length
    have h₂ := hlen (slices w (t.drop (a * w))).length
    omega
  · intro k h₁ h₂
    have hmul : (a + k) * w = a * w + k * w := by ring
    simp only [List.getElem_drop, getElem_slices, List.drop_drop, hmul]

theorem take_slices {w : ℕ} (hw : 0 < w) (t : List α) (b : ℕ) :
    (slices w t).take b = slices w (t.take (b * w)) := by
  have hlen : ∀ k, k < ((slices w t).take b).length ↔ k < (slices w (t.take (b * w))).length := by
    intro k
    have hk := lt_length_slices hw t k
    have hk' := lt_length_slices hw (t.take (b * w)) k
    have hmul : k < b ↔ k * w < b * w := (Nat.mul_lt_mul_right hw).symm
    rw [List.length_take] at hk' ⊢
    omega
  apply List.ext_getElem
  · have h₁ := hlen ((slices w t).take b).length
    have h₂ := hlen (slices w (t.take (b * w))).length
    omega
  · intro k h₁ h₂
    have hkb : k + 1 ≤ b := by
      rw [List.length_take] at h₁
      omega
    have hmul : k * w + w ≤ b * w := by
      calc k * w + w = (k + 1) * w := by ring
        _ ≤ b * w := Nat.mul_le_mul_right w hkb
    simp only [List.getElem_take, getElem_slices, List.drop_take, List.take_take]
    congr 1
    omega

/-! ## Slices concatenate back -/

theorem slices_cons {w : ℕ} (hw : 0 < w) {t : List α} (ht : t ≠ []) :
    slices w t = t.take w :: slices w (t.drop w) := by
  have hpos : 0 < (slices w t).length := by
    rw [lt_length_slices hw]
    simpa using List.length_pos_iff.mpr ht
  have htail : (slices w t).drop 1 = slices w (t.drop w) := by
    rw [drop_slices hw, Nat.one_mul]
  calc slices w t = (slices w t)[0] :: (slices w t).drop 1 := by
        rw [List.getElem_cons_drop, List.drop_zero]
    _ = t.take w :: slices w (t.drop w) := by simp [htail]

theorem flatten_slices {w : ℕ} (hw : 0 < w) (t : List α) : (slices w t).flatten = t := by
  induction hn : t.length using Nat.strong_induction_on generalizing t with
  | _ n ih =>
    by_cases ht : t = []
    · rw [(slices_eq_nil hw).mpr ht, ht, List.flatten_nil]
    · have hlt : (t.drop w).length < n := by
        have := List.length_pos_iff.mpr ht
        rw [List.length_drop]
        omega
      rw [slices_cons hw ht, List.flatten_cons, ih _ hlt _ rfl, List.take_append_drop]

/-- A run of `b` slices from slice `a` on is one contiguous part of the list. -/
theorem flatten_take_drop_slices {w : ℕ} (hw : 0 < w) (t : List α) (a b : ℕ) :
    (((slices w t).drop a).take b).flatten = (t.drop (a * w)).take (b * w) := by
  rw [drop_slices hw, take_slices hw, flatten_slices hw]

theorem length_le_of_mem_slices {w : ℕ} {t s : List α} (h : s ∈ slices w t) : s.length ≤ w := by
  simp only [slices, List.mem_map] at h
  obtain ⟨k, -, rfl⟩ := h
  simp

theorem ne_nil_of_mem_slices {w : ℕ} (hw : 0 < w) {t s : List α} (h : s ∈ slices w t) :
    s ≠ [] := by
  obtain ⟨k, hk, rfl⟩ := List.getElem_of_mem h
  have hlt := (lt_length_slices hw t k).mp hk
  rw [getElem_slices, ← List.length_pos_iff, List.length_take, List.length_drop]
  omega

theorem mem_of_mem_slices {w : ℕ} (hw : 0 < w) {t s : List α} (h : s ∈ slices w t) {x : α}
    (hx : x ∈ s) : x ∈ t := by
  rw [← flatten_slices hw t]
  exact List.mem_flatten.mpr ⟨s, h, hx⟩

/-! ## The two-level address law -/

/-- Group `p * q` consecutive lines; the `i`-th run of `p` lines is found in group `i / q`
from line `(i % q) * p` on, whole. -/
theorem take_drop_group {p q : ℕ} (hq : 0 < q) (ls : List α) (i : ℕ) :
    ((((ls.drop (i / q * (p * q))).take (p * q)).drop (i % q * p)).take p)
      = (ls.drop (i * p)).take p := by
  have hroom : i % q * p + p ≤ p * q := by
    calc i % q * p + p = (i % q + 1) * p := by ring
      _ ≤ q * p := Nat.mul_le_mul_right p (Nat.mod_lt i hq)
      _ = p * q := by ring
  have hpos : i / q * (p * q) + i % q * p = i * p := by
    calc i / q * (p * q) + i % q * p = (q * (i / q) + i % q) * p := by ring
      _ = i * p := by rw [Nat.div_add_mod]
  rw [List.drop_take, List.drop_drop, hpos, List.take_take]
  congr 1
  omega

/-- **Address law**: with lines of width `w`, runs of `p` lines and groups of `q` runs, the
lines `[(i % q) * p, (i % q) * p + p)` of group `i / q` concatenate to the `i`-th slice of
width `w * p` of the text. -/
theorem flatten_run_in_group {w p q : ℕ} (hw : 0 < w) (hq : 0 < q) (t : List α)
    (i : ℕ) (hi : i < (slices (w * p) t).length)
    (hg : i / q < (slices (p * q) (slices w t)).length) :
    ((((slices (p * q) (slices w t))[i / q]).drop (i % q * p)).take p).flatten
      = (slices (w * p) t)[i] := by
  have hstart : i * p * w = i * (w * p) := by ring
  rw [getElem_slices, take_drop_group hq, flatten_take_drop_slices hw, getElem_slices, hstart,
    Nat.mul_comm p w]

/-- Every slice of width `w * p` lies in some group: the group index of the address law is
in range. -/
theorem group_lt_length {w p q : ℕ} (hw : 0 < w) (hp : 0 < p) (hq : 0 < q) (t : List α) (i : ℕ)
    (hi : i < (slices (w * p) t).length) :
    i / q < (slices (p * q) (slices w t)).length := by
  rw [lt_length_slices (Nat.mul_pos hw hp)] at hi
  rw [lt_length_slices (Nat.mul_pos hp hq)]
  have hle : i / q * (p * q) ≤ i * p := by
    calc i / q * (p * q) = i / q * q * p := by ring
      _ ≤ i * p := Nat.mul_le_mul_right p (Nat.div_mul_le_self i q)
  have hline : i * p < (slices w t).length := by
    rw [lt_length_slices hw]
    calc i * p * w = i * (w * p) := by ring
      _ < t.length := hi
  omega

end OsMoap.Lib
