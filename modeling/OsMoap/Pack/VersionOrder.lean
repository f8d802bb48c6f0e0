import OsMoap.Pack.Version
import Mathlib.Order.Lattice

/-!
# The Order of Versions

How far `vercmp` of `tools/pack_repo.py` is an order.  It turns round unless two versions first
differ in numerals of one value, and it is transitive unless three versions first differ pairwise
in segments of which one is no numeral and stands, as a string, between two numerals that their
values put the other way round (`consistent_iff`).
-/

namespace OsMoap.Pack

/-! ## One position -/

/-- Two numerals of which the first has the smaller value. -/
def ValueLt (x y : Text) : Prop := ∃ m n, pyInt x = some m ∧ pyInt y = some n ∧ m < n

theorem ValueLt.trans {x y z : Text} (hxy : ValueLt x y) (hyz : ValueLt y z) : ValueLt x z := by
  obtain ⟨k, m, hx, hy, hkm⟩ := hxy
  obtain ⟨m', n, hy', hz, hmn⟩ := hyz
  obtain rfl : m = m' := Option.some.inj (hy.symm.trans hy')
  exact ⟨k, n, hx, hz, by omega⟩

/-- What it means to lose at a position. -/
theorem segCmp_lost_iff {x y : Text} : segCmp x y = some (-1) ↔
    (isdigit x = true ∧ isdigit y = true ∧ ValueLt x y) ∨
      (¬ (isdigit x = true ∧ isdigit y = true) ∧ x < y) := by
  unfold segCmp
  split_ifs with hxy hdig hlt
  · subst hxy
    constructor
    · intro h
      simp at h
    · rintro (⟨-, -, m, n, hm, hn, hlt⟩ | ⟨-, hlt⟩)
      · rw [hm] at hn
        obtain rfl := Option.some.inj hn
        omega
      · exact absurd hlt (lt_irrefl _)
  · -- two numbers: `int()` may give the same value for both
    constructor
    · intro h
      simp only [Option.bind_eq_bind, Option.bind_eq_some_iff, Option.some.injEq] at h
      obtain ⟨m, hm, n, hn, h⟩ := h
      refine Or.inl ⟨hdig.1, hdig.2, m, n, hm, hn, ?_⟩
      by_contra hge
      simp [hge] at h
    · rintro (⟨-, -, m, n, hm, hn, hlt⟩ | ⟨hnot, -⟩)
      · simp [hm, hn, hlt]
      · exact absurd hdig hnot
  · exact ⟨fun _ => Or.inr ⟨hdig, hlt⟩, fun _ => rfl⟩
  · constructor
    · intro h
      simp at h
    · rintro (⟨hx, hy, -⟩ | ⟨-, hlt'⟩)
      · exact absurd ⟨hx, hy⟩ hdig
      · exact absurd hlt' hlt

/-- Two numerals that `int` takes for different numbers. -/
def ValuesDiffer (x y : Text) : Prop := ∃ m n, pyInt x = some m ∧ pyInt y = some n ∧ m ≠ n

/-- A position turns round unless it has two numerals without different values. -/
theorem segCmp_reverses_iff {x y : Text} (hne : x ≠ y) :
    (∃ r, segCmp x y = some r ∧ segCmp y x = some (-r)) ↔
      (isdigit x = true → isdigit y = true → ValuesDiffer x y) := by
  have hlost : (∃ r, segCmp x y = some r ∧ segCmp y x = some (-r)) ↔
      segCmp x y = some (-1) ∨ segCmp y x = some (-1) := by
    constructor
    · rintro ⟨r, hr, hr'⟩
      rcases segCmp_cases hr with rfl | rfl | rfl
      · exact Or.inl hr
      · exact absurd hr (segCmp_ne_zero hne)
      · exact Or.inr hr'
    · rintro (h | h)
      · exact ⟨-1, h, segCmp_of_swap_lost h⟩
      · exact ⟨1, segCmp_of_swap_lost h, h⟩
  rw [hlost, segCmp_lost_iff, segCmp_lost_iff]
  -- numbers are compared by value, everything else as text
  by_cases hdig : isdigit x = true ∧ isdigit y = true
  · have hdig' : isdigit y = true ∧ isdigit x = true := hdig.symm
    simp only [hdig.1, hdig.2, and_self, not_true, false_and, or_false, true_and, true_implies]
    constructor
    · rintro (⟨m, n, hm, hn, hlt⟩ | ⟨n, m, hn, hm, hlt⟩)
      · exact ⟨m, n, hm, hn, by omega⟩
      · exact ⟨m, n, hm, hn, by omega⟩
    · rintro ⟨m, n, hm, hn, hne⟩
      rcases Nat.lt_or_gt_of_ne hne with hlt | hgt
      · exact Or.inl ⟨m, n, hm, hn, hlt⟩
      · exact Or.inr ⟨n, m, hn, hm, hgt⟩
  · have hdig' : ¬ (isdigit y = true ∧ isdigit x = true) := fun h => hdig h.symm
    constructor
    · intro _ hx hy
      exact absurd ⟨hx, hy⟩ hdig
    · intro _
      rcases lt_or_gt_of_ne hne with hlt | hgt
      · exact Or.inl (Or.inr ⟨hdig, hlt⟩)
      · exact Or.inr (Or.inr ⟨hdig', hgt⟩)

/-- Two numerals with a segment that is none between them as strings, and values the other way
round: `10`, `1a` and `9`. -/
def Clash (x y z : Text) : Prop :=
  (isdigit x = true ∧ isdigit y = false ∧ isdigit z = true ∧ x < y ∧ y < z ∧ ¬ ValueLt x z) ∨
  (isdigit x = true ∧ isdigit y = true ∧ isdigit z = false ∧ ValueLt x y ∧ y < z ∧ z < x) ∨
  (isdigit x = false ∧ isdigit y = true ∧ isdigit z = true ∧ x < y ∧ ValueLt y z ∧ z < x)

/-- Three positions chain unless they clash. -/
theorem segCmp_chains_iff {x y z : Text} (hxz : x ≠ z) :
    (segCmp x y = some (-1) → segCmp y z = some (-1) → segCmp x z = some (-1)) ↔
      ¬ Clash x y z := by
  have hnot : ¬ x < z ↔ z < x := by
    constructor
    · exact fun h => lt_of_le_of_ne (not_lt.mp h) hxz.symm
    · exact lt_asymm
  rw [segCmp_lost_iff, segCmp_lost_iff, segCmp_lost_iff, Clash]
  -- where numbers and words mix, a chain of two comparisons by text may skip one by value
  cases hx : isdigit x with
  | false =>
    cases hy : isdigit y with
    | false => simpa using fun hxy hyz => lt_trans hxy hyz
    | true =>
      cases hz : isdigit z with
      | false => simpa using fun hxy hyz => lt_trans hxy hyz
      | true =>
        simp only [Bool.false_eq_true, false_and, and_false, true_and, and_true, not_false_iff,
          not_true, false_or, or_false, reduceCtorEq, hnot.symm, not_and, not_not]
  | true =>
    cases hy : isdigit y with
    | false =>
      cases hz : isdigit z with
      | false => simpa using fun hxy hyz => lt_trans hxy hyz
      | true =>
        simp only [Bool.false_eq_true, false_and, and_false, true_and, and_true, not_false_iff,
          not_true, false_or, or_false, reduceCtorEq, not_and, not_not]
    | true =>
      cases hz : isdigit z with
      | false =>
        simp only [Bool.false_eq_true, false_and, and_false, true_and, and_true, not_false_iff,
          not_true, false_or, or_false, reduceCtorEq, hnot.symm, not_and, not_not]
      | true => simpa using fun hxy hyz => ValueLt.trans hxy hyz

/-! ## Lists of segments -/

theorem firstDiff_cons {x y u v : Text} {xs ys : List Text} (hne : x ≠ y) :
    FirstDiff (x :: xs) (y :: ys) u v ↔ u = x ∧ v = y := by
  constructor
  · rintro ⟨-, cs, xs', ys', hx, hy⟩
    cases cs with
    | nil => exact ⟨(List.cons.inj hx).1.symm, (List.cons.inj hy).1.symm⟩
    | cons c cs => exact absurd ((List.cons.inj hx).1.trans (List.cons.inj hy).1.symm) hne
  · rintro ⟨rfl, rfl⟩
    exact ⟨hne, [], xs, ys, rfl, rfl⟩

theorem firstDiff_cons_self {x u v : Text} {xs ys : List Text} :
    FirstDiff (x :: xs) (x :: ys) u v ↔ FirstDiff xs ys u v := by
  constructor
  · rintro ⟨hne, cs, xs', ys', hx, hy⟩
    cases cs with
    | nil => exact absurd ((List.cons.inj hx).1.symm.trans (List.cons.inj hy).1) hne
    | cons c cs => exact ⟨hne, cs, xs', ys', (List.cons.inj hx).2, (List.cons.inj hy).2⟩
  · rintro ⟨hne, cs, xs', ys', rfl, rfl⟩
    exact ⟨hne, x :: cs, xs', ys', rfl, rfl⟩

theorem not_firstDiff_nil {ys : List Text} {u v : Text} : ¬ FirstDiff [] ys u v := by
  rintro ⟨-, cs, xs', ys', hx, -⟩
  simp at hx

/-- Nothing loses to anything but blanks. -/
theorem segsCmp_nil (ys : List Text) :
    (segsCmp [] ys = some 0 ∧ segsCmp ys [] = some 0) ∨
      (segsCmp [] ys = some (-1) ∧ segsCmp ys [] = some 1) := by
  induction ys with
  | nil => exact Or.inl ⟨segsCmp_self [], segsCmp_self []⟩
  | cons y ys ih =>
    rw [segsCmp_nil_cons, segsCmp_cons_nil]
    by_cases hy : y = []
    · rw [if_pos hy, if_pos hy.symm]
      exact ih
    · rw [if_neg hy, if_neg fun h => hy h.symm]
      exact Or.inr ⟨segCmp_nil_left hy, segCmp_nil_right hy⟩

/-- The comparison turns round exactly when it is not decided by numerals without different
values. -/
theorem segsCmp_reverses_iff (xs ys : List Text) :
    (∃ r, segsCmp xs ys = some r ∧ segsCmp ys xs = some (-r)) ↔
      ∀ x y, FirstDiff xs ys x y → isdigit x = true → isdigit y = true → ValuesDiffer x y := by
  induction xs generalizing ys with
  | nil =>
    constructor
    · intro _ x y hdiff
      exact absurd hdiff not_firstDiff_nil
    · intro _
      rcases segsCmp_nil ys with ⟨h, h'⟩ | ⟨h, h'⟩
      · exact ⟨0, h, h'⟩
      · exact ⟨-1, h, h'⟩
  | cons x xs ih =>
    cases ys with
    | nil =>
      constructor
      · intro _ u v hdiff
        exact absurd hdiff.symm not_firstDiff_nil
      · intro _
        rcases segsCmp_nil (x :: xs) with ⟨h, h'⟩ | ⟨h, h'⟩
        · exact ⟨0, h', h⟩
        · exact ⟨1, h', h⟩
    | cons y ys =>
      rw [segsCmp_cons_cons, segsCmp_cons_cons]
      -- only the first segments that differ count
      by_cases hxy : x = y
      · subst hxy
        rw [if_pos rfl, if_pos rfl, ih]
        constructor
        · exact fun h u v hdiff => h u v (firstDiff_cons_self.mp hdiff)
        · exact fun h u v hdiff => h u v (firstDiff_cons_self.mpr hdiff)
      · rw [if_neg hxy, if_neg fun h => hxy h.symm, segCmp_reverses_iff hxy]
        constructor
        · rintro h u v hdiff
          obtain ⟨rfl, rfl⟩ := (firstDiff_cons hxy).mp hdiff
          exact h
        · exact fun h => h x y ((firstDiff_cons hxy).mpr ⟨rfl, rfl⟩)

/-- Three versions agree up to a position, and differ pairwise there. -/
def FirstApart (xs ys zs : List Text) (x y z : Text) : Prop :=
  (x ≠ y ∧ y ≠ z ∧ x ≠ z) ∧
    ∃ cs xs' ys' zs', xs = cs ++ x :: xs' ∧ ys = cs ++ y :: ys' ∧ zs = cs ++ z :: zs'

/-- `vercmp(a, b) <= 0` and `vercmp(b, c) <= 0` imply `vercmp(a, c) <= 0`. -/
def Chains (xs ys zs : List Text) : Prop :=
  ∀ r r', segsCmp xs ys = some r → r ≤ 0 → segsCmp ys zs = some r' → r' ≤ 0 →
    ∃ r'', segsCmp xs zs = some r'' ∧ r'' ≤ 0

/-- Either the versions differ in their first segments, or they agree there. -/
theorem FirstApart.heads {xs ys zs : List Text} {x y z : Text} (h : FirstApart xs ys zs x y z) :
    (xs.headD [] = x ∧ ys.headD [] = y ∧ zs.headD [] = z) ∨
      (xs.headD [] = ys.headD [] ∧ ys.headD [] = zs.headD [] ∧
        FirstApart xs.tail ys.tail zs.tail x y z) := by
  obtain ⟨hne, cs, xs', ys', zs', rfl, rfl, rfl⟩ := h
  cases cs with
  | nil => exact Or.inl ⟨rfl, rfl, rfl⟩
  | cons c cs => exact Or.inr ⟨rfl, rfl, hne, cs, xs', ys', zs', rfl, rfl, rfl⟩

theorem FirstApart.of_tails {xs ys zs : List Text} {x y z : Text}
    (hxy : xs.headD [] = ys.headD []) (hyz : ys.headD [] = zs.headD [])
    (h : FirstApart xs.tail ys.tail zs.tail x y z) : FirstApart xs ys zs x y z := by
  obtain ⟨hne, cs, xs', ys', zs', hx, hy, hz⟩ := h
  -- a version with a further segment has a first one
  have hcons : ∀ (l l' : List Text) (u : Text), l.tail = cs ++ u :: l' →
      l = l.headD [] :: (cs ++ u :: l') := by
    intro l l' u hl
    cases l with
    | nil => simp at hl
    | cons a l => exact congrArg (a :: ·) hl
  refine ⟨hne, xs.headD [] :: cs, xs', ys', zs', hcons xs xs' x hx, ?_, ?_⟩
  · rw [hxy]
    exact hcons ys ys' y hy
  · rw [hxy, hyz]
    exact hcons zs zs' z hz

/-- Three versions that differ pairwise in their first segments. -/
theorem chains_of_heads_ne {xs ys zs : List Text} (hxy : xs.headD [] ≠ ys.headD [])
    (hyz : ys.headD [] ≠ zs.headD []) (hxz : xs.headD [] ≠ zs.headD []) :
    Chains xs ys zs ↔ ¬ Clash (xs.headD []) (ys.headD []) (zs.headD []) := by
  have hlost : ∀ {u v : Text} {r : ℤ}, u ≠ v → segCmp u v = some r → r ≤ 0 → r = -1 := by
    intro u v r hne hr hle
    rcases segCmp_cases hr with rfl | rfl | rfl
    · rfl
    · exact absurd hr (segCmp_ne_zero hne)
    · omega
  rw [← segCmp_chains_iff hxz, Chains, segsCmp_step xs ys, segsCmp_step ys zs, segsCmp_step xs zs,
    if_neg hxy, if_neg hyz, if_neg hxz]
  constructor
  · intro h h1 h2
    obtain ⟨r, hr, hle⟩ := h (-1) (-1) h1 (by decide) h2 (by decide)
    rw [hr, hlost hxz hr hle]
  · intro h r r' hr hle hr' hle'
    rw [hlost hxy hr hle] at hr
    rw [hlost hyz hr' hle'] at hr'
    exact ⟨-1, h hr hr', by decide⟩

/-- A clash is between segments that are there. -/
theorem Clash.ne_nil {x y z : Text} (h : Clash x y z) : x ≠ [] ∧ y ≠ [] ∧ z ≠ [] := by
  have hdigit : ∀ {u : Text}, isdigit u = true → u ≠ [] := by
    rintro u hu rfl
    simp [isdigit] at hu
  have hgt : ∀ {u v : Text}, u < v → v ≠ [] := by
    rintro u v huv rfl
    exact absurd huv (List.not_lt_nil u)
  rcases h with ⟨hx, -, hz, hxy, -⟩ | ⟨hx, hy, -, -, hyz, -⟩ | ⟨-, hy, hz, -, -, hzx⟩
  · exact ⟨hdigit hx, hgt hxy, hdigit hz⟩
  · exact ⟨hdigit hx, hdigit hy, hgt hyz⟩
  · exact ⟨hgt hzx, hdigit hy, hdigit hz⟩

theorem firstApart_of_heads {xs ys zs : List Text} (hx : xs.headD [] ≠ []) (hy : ys.headD [] ≠ [])
    (hz : zs.headD [] ≠ []) (hxy : xs.headD [] ≠ ys.headD []) (hyz : ys.headD [] ≠ zs.headD [])
    (hxz : xs.headD [] ≠ zs.headD []) :
    FirstApart xs ys zs (xs.headD []) (ys.headD []) (zs.headD []) := by
  have hcons : ∀ l : List Text, l.headD [] ≠ [] → l = [] ++ l.headD [] :: l.tail := by
    intro l hl
    cases l with
    | nil => exact absurd rfl hl
    | cons a l => rfl
  exact ⟨⟨hxy, hyz, hxz⟩, [], xs.tail, ys.tail, zs.tail, hcons xs hx, hcons ys hy, hcons zs hz⟩

/-- Where two of three versions agree, they are not apart. -/
theorem not_firstApart {xs ys zs : List Text} {x y z : Text}
    (hsome : xs.headD [] = ys.headD [] ∨ ys.headD [] = zs.headD [] ∨ xs.headD [] = zs.headD [])
    (hnot : ¬ (xs.headD [] = ys.headD [] ∧ ys.headD [] = zs.headD [])) :
    ¬ FirstApart xs ys zs x y z := by
  intro hapart
  rcases hapart.heads with ⟨rfl, rfl, rfl⟩ | ⟨hxy, hyz, -⟩
  · obtain ⟨hxy, hyz, hxz⟩ := hapart.1
    rcases hsome with h | h | h
    · exact hxy h
    · exact hyz h
    · exact hxz h
  · exact hnot ⟨hxy, hyz⟩

/-- The loop runs no further than the longest version. -/
private theorem chains_iff_of_le (n : ℕ) : ∀ {xs ys zs : List Text}, xs.length ≤ n →
    ys.length ≤ n → zs.length ≤ n →
    (Chains xs ys zs ↔ ∀ x y z, FirstApart xs ys zs x y z → ¬ Clash x y z) := by
  induction n with
  | zero =>
    intro xs ys zs hxs hys hzs
    obtain rfl := List.length_eq_zero_iff.mp (Nat.le_zero.mp hxs)
    obtain rfl := List.length_eq_zero_iff.mp (Nat.le_zero.mp hys)
    obtain rfl := List.length_eq_zero_iff.mp (Nat.le_zero.mp hzs)
    constructor
    · rintro - x y z ⟨-, cs, xs', ys', zs', hx, -⟩
      simp at hx
    · rintro - r r' - - - -
      exact ⟨0, segsCmp_self [], le_rfl⟩
  | succ n ih =>
    intro xs ys zs hxs hys hzs
    have htail := @ih xs.tail ys.tail zs.tail (by simp; omega) (by simp; omega) (by simp; omega)
    by_cases hxy : xs.headD [] = ys.headD []
    · by_cases hyz : ys.headD [] = zs.headD []
      · -- all agree here
        have hchains : Chains xs ys zs ↔ Chains xs.tail ys.tail zs.tail := by
          rw [Chains, segsCmp_step xs ys, segsCmp_step ys zs, segsCmp_step xs zs, if_pos hxy,
            if_pos hyz, if_pos (hxy.trans hyz)]
          rfl
        rw [hchains, htail]
        constructor
        · intro h x y z hapart
          rcases hapart.heads with ⟨hx, hy, -⟩ | ⟨-, -, hapart⟩
          · exact absurd (hx.symm.trans (hxy.trans hy)) hapart.1.1
          · exact h x y z hapart
        · exact fun h x y z hapart => h x y z (hapart.of_tails hxy hyz)
      · -- the first two do
        constructor
        · intro _ x y z hapart
          exact absurd hapart (not_firstApart (Or.inl hxy) fun h => hyz h.2)
        · rintro - r r' - - hr' hle'
          refine ⟨r', ?_, hle'⟩
          rw [segsCmp_step ys zs, if_neg hyz] at hr'
          rw [segsCmp_step xs zs, hxy, if_neg hyz, hr']
    · by_cases hyz : ys.headD [] = zs.headD []
      · -- the last two do
        constructor
        · intro _ x y z hapart
          exact absurd hapart (not_firstApart (Or.inr (Or.inl hyz)) fun h => hxy h.1)
        · rintro - r r' hr hle - -
          refine ⟨r, ?_, hle⟩
          rw [segsCmp_step xs ys, if_neg hxy] at hr
          rw [segsCmp_step xs zs, ← hyz, if_neg hxy, hr]
      · by_cases hxz : xs.headD [] = zs.headD []
        · -- the outer two do: not both comparisons are lost
          constructor
          · intro _ x y z hapart
            exact absurd hapart (not_firstApart (Or.inr (Or.inr hxz)) fun h => hxy h.1)
          · rintro - r r' hr hle hr' hle'
            exfalso
            rw [segsCmp_step xs ys, if_neg hxy] at hr
            rw [segsCmp_step ys zs, ← hxz, if_neg fun h => hxy h.symm] at hr'
            rcases segCmp_cases hr with rfl | rfl | rfl
            · rw [segCmp_of_swap_lost hr] at hr'
              obtain rfl := Option.some.inj hr'
              omega
            · exact segCmp_ne_zero hxy hr
            · omega
        · rw [chains_of_heads_ne hxy hyz hxz]
          constructor
          · intro hclash x y z hapart
            rcases hapart.heads with ⟨rfl, rfl, rfl⟩ | ⟨h, -⟩
            · exact hclash
            · exact absurd h hxy
          · intro h hclash
            obtain ⟨hx, hy, hz⟩ := hclash.ne_nil
            exact h _ _ _ (firstApart_of_heads hx hy hz hxy hyz hxz) hclash

/-! ## Versions -/

/-- `vercmp(a, b) == -vercmp(b, a)`, and `vercmp(a, c) <= 0` follows from `vercmp(a, b) <= 0` and
`vercmp(b, c) <= 0`. -/
def Consistent (a b c : Text) : Prop :=
  (∃ r, vercmp a b = some r ∧ vercmp b a = some (-r)) ∧
    ∀ r r', vercmp a b = some r → r ≤ 0 → vercmp b c = some r' → r' ≤ 0 →
      ∃ r'', vercmp a c = some r'' ∧ r'' ≤ 0

/-- **Consistency**, exactly: the first two versions do not first differ in numerals without
different values, and the three do not first differ pairwise in segments that clash. -/
theorem consistent_iff (a b c : Text) : Consistent a b c ↔
    (∀ x y, FirstDiff (segments a) (segments b) x y → isdigit x = true → isdigit y = true →
      ValuesDiffer x y) ∧
    ∀ x y z, FirstApart (segments a) (segments b) (segments c) x y z → ¬ Clash x y z := by
  have hchains := @chains_iff_of_le
    (max (segments a).length (max (segments b).length (segments c).length))
    (segments a) (segments b) (segments c) (by omega) (by omega) (by omega)
  exact and_congr (segsCmp_reverses_iff _ _) hchains

/-- `01` and `1` beat each other, and `10`, `1a`, `9` go round. -/
theorem not_consistent_numerals :
    ¬ Consistent "1.01".toList "1.1".toList "1.1".toList ∧
      ¬ Consistent "10".toList "1a".toList "9".toList := by
  constructor
  · rintro ⟨⟨r, hr, hr'⟩, -⟩
    have hone : vercmp "1.01".toList "1.1".toList = some 1 := by decide
    have hone' : vercmp "1.1".toList "1.01".toList = some 1 := by decide
    rw [hone] at hr
    rw [hone'] at hr'
    have h := Option.some.inj hr
    have h' := Option.some.inj hr'
    omega
  · rintro ⟨-, hchains⟩
    obtain ⟨r, hr, hle⟩ := hchains (-1) (-1) (by decide) (by decide) (by decide) (by decide)
    have hone : vercmp "10".toList "9".toList = some 1 := by decide
    rw [hone] at hr
    have h := Option.some.inj hr
    omega

end OsMoap.Pack
