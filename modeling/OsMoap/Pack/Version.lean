import OsMoap.Pack.PyText
import Mathlib.Data.List.Lex
import Mathlib.Data.Char

/-!
# Version Comparison

`vercmp` of `tools/pack_repo.py` (and its mirror in `.github/workflows/track-alpine.yml`):
versions are split at `.` and `-` into one flat list of segments, compared position by
position with missing segments read as `''`; two numerals compare by value, anything else
as strings.  `upstream` strips the packaging revision `-rN`.

`vercmp_revision` says what happens to a positive comparison when the revisions `-r0` and
`-rN` are appended: it survives, unless one version continues the other and the first
further segment sorts before the revision segment.
-/

namespace OsMoap.Pack

/-! ## Python numerals -/

/-- The zeros of Unicode's runs of ten decimal digits. -/
def decimalZeros : List ℕ :=
  [0x30, 0x660, 0x6f0, 0x7c0, 0x966, 0x9e6, 0xa66, 0xae6, 0xb66, 0xbe6, 0xc66, 0xce6, 0xd66,
    0xde6, 0xe50, 0xed0, 0xf20, 0x1040, 0x1090, 0x17e0, 0x1810, 0x1946, 0x19d0, 0x1a80, 0x1a90,
    0x1b50, 0x1bb0, 0x1c40, 0x1c50, 0xa620, 0xa8d0, 0xa900, 0xa9d0, 0xa9f0, 0xaa50, 0xabf0,
    0xff10, 0x104a0, 0x10d30, 0x11066, 0x110f0, 0x11136, 0x111d0, 0x112f0, 0x11450, 0x114d0,
    0x11650, 0x116c0, 0x11730, 0x118e0, 0x11950, 0x11c50, 0x11d50, 0x11da0, 0x11f50, 0x16a60,
    0x16ac0, 0x16b50, 0x1d7ce, 0x1d7d8, 0x1d7e2, 0x1d7ec, 0x1d7f6, 0x1e140, 0x1e2f0, 0x1e4f0,
    0x1e950, 0x1fbf0]

/-- The characters that are digits but not decimal (superscripts, circled digits and the
like), as inclusive ranges. -/
def digitRanges : List (ℕ × ℕ) :=
  [(0xb2, 0xb3), (0xb9, 0xb9), (0x1369, 0x1371), (0x19da, 0x19da), (0x2070, 0x2070),
    (0x2074, 0x2079), (0x2080, 0x2089), (0x2460, 0x2468), (0x2474, 0x247c), (0x2488, 0x2490),
    (0x24ea, 0x24ea), (0x24f5, 0x24fd), (0x24ff, 0x24ff), (0x2776, 0x277e), (0x2780, 0x2788),
    (0x278a, 0x2792), (0x10a40, 0x10a43), (0x10e60, 0x10e68), (0x11052, 0x1105a),
    (0x1f100, 0x1f10a)]

/-- The value of a decimal digit, `unicodedata.decimal`. -/
def decimalValue (c : Char) : Option ℕ :=
  (decimalZeros.find? fun z => z ≤ c.toNat && c.toNat < z + 10).map fun z => c.toNat - z

/-- `str.isdigit` of one character. -/
def isDigitChar (c : Char) : Bool :=
  (decimalValue c).isSome || digitRanges.any fun r => r.1 ≤ c.toNat && c.toNat ≤ r.2

/-- `str.isdigit`: nonempty, digits only. -/
def isdigit (x : Text) : Bool := !x.isEmpty && x.all isDigitChar

/-- `int(x)` of a string of digits; `none` is the `ValueError` on a digit that is not decimal. -/
def pyInt (x : Text) : Option ℕ :=
  x.foldlM (fun n c => (decimalValue c).map (10 * n + ·)) 0

/-! ## `vercmp` -/

/-- The separators of `re.split(r'[.\-]', v)`. -/
def isVerSep (c : Char) : Bool := c = '.' || c = '-'

/-- `re.split(r'[.\-]', v)`. -/
def segments (v : Text) : List Text := v.splitOnP isVerSep

/-- One position: `0` on equal text, numerals by value, else string order; `none` when
`int` raises. -/
def segCmp (x y : Text) : Option ℤ :=
  if x = y then some 0
  else if isdigit x ∧ isdigit y then do
    let m ← pyInt x
    let n ← pyInt y
    some (if m < n then -1 else 1)
  else some (if x < y then -1 else 1)

/-- The positions `0 .. max(len(sa), len(sb)) - 1`, missing segments being `''`. -/
def padded (xs ys : List Text) : List (Text × Text) :=
  List.zipWithAll (fun x y => (x.getD [], y.getD [])) xs ys

/-- The first position that differs decides. -/
def firstDecided : List (Text × Text) → Option ℤ
  | [] => some 0
  | p :: ps => if p.1 = p.2 then firstDecided ps else segCmp p.1 p.2

/-- The loop of `vercmp`. -/
def segsCmp (xs ys : List Text) : Option ℤ := firstDecided (padded xs ys)

def vercmp (a b : Text) : Option ℤ := segsCmp (segments a) (segments b)

/-- `vercmp(a, b) > 0`, where it does not raise. -/
def verBeats (a b : Text) : Option Bool := (vercmp a b).map fun c => decide (c > 0)

/-- The packaging revision `-rN` appended. -/
def withRevision (v : Text) (n : ℕ) : Text := v ++ ('-' :: 'r' :: decimal n)

/-- `re.sub(r'-r\d+$', '', v)` on a string without a final newline. -/
def stripRevision (v : Text) : Text :=
  match v.reverse.dropWhile (fun c => (decimalValue c).isSome) with
  | 'r' :: '-' :: rest =>
    if v.reverse.takeWhile (fun c => (decimalValue c).isSome) = [] then v else rest.reverse
  | _ => v

/-- `upstream`: `$` also matches before a final newline. -/
def upstream (v : Text) : Text :=
  if v.getLast? = some '\n' then stripRevision v.dropLast ++ ['\n'] else stripRevision v

example : vercmp "1.9".toList "1.10".toList = some (-1) := by decide
example : vercmp "2.0-r0".toList "2.0-r1".toList = some (-1) := by decide
example : vercmp "1.0".toList "1.0-r0".toList = some (-1) := by decide
example : upstream "8.6-r12".toList = "8.6".toList := by decide

/-! ## Revisions -/

theorem decimalValue_of_isDigit {c : Char} (h : c.isDigit = true) :
    decimalValue c = some (c.toNat - 48) := by
  simp only [Char.isDigit, Bool.and_eq_true, decide_eq_true_eq, UInt32.le_iff_toNat_le] at h
  have hlo : 48 ≤ c.toNat := h.1
  have hhi : c.toNat ≤ 57 := h.2
  have hfind : decimalZeros.find? (fun z => z ≤ c.toNat && c.toNat < z + 10) = some 0x30 := by
    apply List.find?_cons_of_pos
    simp only [Bool.and_eq_true, decide_eq_true_eq]
    omega
  rw [decimalValue, hfind]
  rfl

theorem decimal_ne_nil (n : ℕ) : decimal n ≠ [] := Nat.toDigits_ne_nil

theorem isDigit_of_mem_decimal {n : ℕ} {c : Char} (hc : c ∈ decimal n) : c.isDigit = true :=
  Nat.isDigit_of_mem_toDigits (by decide) (by decide) hc

/-- `upstream` takes the revision off again, whatever the version. -/
theorem upstream_withRevision (v : Text) (n : ℕ) : upstream (withRevision v n) = v := by
  have hdig : ∀ c ∈ (decimal n).reverse, (decimalValue c).isSome = true := by
    intro c hc
    rw [decimalValue_of_isDigit (isDigit_of_mem_decimal (List.mem_reverse.mp hc))]
    rfl
  have hr : (decimalValue 'r').isSome = false := by decide
  have hrev : (withRevision v n).reverse = (decimal n).reverse ++ ('r' :: '-' :: v.reverse) := by
    simp [withRevision]
  have hdrop : (withRevision v n).reverse.dropWhile (fun c => (decimalValue c).isSome)
      = 'r' :: '-' :: v.reverse := by
    rw [hrev, List.dropWhile_append_of_pos hdig, List.dropWhile_cons_of_neg (by simp [hr])]
  have htake : (withRevision v n).reverse.takeWhile (fun c => (decimalValue c).isSome) ≠ [] := by
    rw [hrev, List.takeWhile_append_of_pos hdig]
    simp [decimal_ne_nil]
  have hlast : (withRevision v n).getLast? ≠ some '\n' := by
    intro h
    have hmem : '\n' ∈ decimal n := by
      have hne := decimal_ne_nil n
      rw [withRevision, List.getLast?_append, List.getLast?_cons_cons, List.getLast?_cons,
        List.getLast?_eq_some_getLast hne] at h
      have : (decimal n).getLast hne = '\n' := by simpa using h
      exact this ▸ List.getLast_mem hne
    exact absurd (isDigit_of_mem_decimal hmem) (by decide)
  rw [upstream, if_neg hlast, stripRevision, hdrop]
  simp [htake]

theorem segments_withRevision (v : Text) (n : ℕ) :
    segments (withRevision v n) = segments v ++ ['r' :: decimal n] := by
  have hrev : ∀ c ∈ 'r' :: decimal n, isVerSep c = false := by
    intro c hc
    rcases List.mem_cons.mp hc with rfl | hc
    · decide
    · have hd := isDigit_of_mem_decimal hc
      simp only [isVerSep, Bool.or_eq_false_iff, decide_eq_false_iff_not]
      constructor <;> rintro rfl <;> exact absurd hd (by decide)
  rw [segments, withRevision, List.splitOnP_append_cons _ _ (by decide),
    List.splitOnP_eq_singleton hrev]
  rfl

theorem isdigit_revision (n : ℕ) : isdigit ('r' :: decimal n) = false := by
  have hr : isDigitChar 'r' = false := by decide
  simp [isdigit, hr]

/-! ## Comparing segment lists -/

theorem segsCmp_cons_cons (x y : Text) (xs ys : List Text) :
    segsCmp (x :: xs) (y :: ys) = if x = y then segsCmp xs ys else segCmp x y := rfl

theorem segsCmp_cons_nil (x : Text) (xs : List Text) :
    segsCmp (x :: xs) [] = if x = [] then segsCmp xs [] else segCmp x [] := by
  simp [segsCmp, padded, firstDecided]

theorem segsCmp_nil_cons (y : Text) (ys : List Text) :
    segsCmp [] (y :: ys) = if [] = y then segsCmp [] ys else segCmp [] y := by
  simp [segsCmp, padded, firstDecided]

theorem segsCmp_append_left (cs xs ys : List Text) :
    segsCmp (cs ++ xs) (cs ++ ys) = segsCmp xs ys := by
  induction cs with
  | nil => rfl
  | cons c cs ih => rw [List.cons_append, List.cons_append, segsCmp_cons_cons, if_pos rfl, ih]

theorem segsCmp_of_ne {x y : Text} (h : x ≠ y) (xs ys : List Text) :
    segsCmp (x :: xs) (y :: ys) = segCmp x y := by
  rw [segsCmp_cons_cons, if_neg h]

theorem segsCmp_self (xs : List Text) : segsCmp xs xs = some 0 := by
  have h := segsCmp_append_left xs [] []
  rw [List.append_nil] at h
  exact h.trans rfl

theorem vercmp_self (v : Text) : vercmp v v = some 0 := segsCmp_self _

theorem segCmp_cases {x y : Text} {c : ℤ} (h : segCmp x y = some c) :
    c = -1 ∨ c = 0 ∨ c = 1 := by
  unfold segCmp at h
  split_ifs at h with hxy hdig hlt
  · exact Or.inr (Or.inl (Option.some.inj h).symm)
  · simp only [Option.bind_eq_bind, Option.bind_eq_some_iff, Option.some.injEq] at h
    obtain ⟨m, -, n, -, rfl⟩ := h
    split_ifs <;> simp
  · exact Or.inl (Option.some.inj h).symm
  · exact Or.inr (Or.inr (Option.some.inj h).symm)

theorem vercmp_cases {a b : Text} {c : ℤ} (h : vercmp a b = some c) :
    c = -1 ∨ c = 0 ∨ c = 1 := by
  unfold vercmp segsCmp at h
  generalize padded (segments a) (segments b) = ps at h
  induction ps with
  | nil => exact Or.inr (Or.inl (Option.some.inj h).symm)
  | cons p ps ih =>
    rw [firstDecided] at h
    split_ifs at h with hp
    · exact ih h
    · exact segCmp_cases h

theorem verBeats_eq_true_iff {a b : Text} : verBeats a b = some true ↔ vercmp a b = some 1 := by
  constructor
  · intro h
    rw [verBeats, Option.map_eq_some_iff] at h
    obtain ⟨c, hc, hpos⟩ := h
    rcases vercmp_cases hc with rfl | rfl | rfl
    · simp at hpos
    · simp at hpos
    · exact hc
  · intro h
    simp [verBeats, h]

theorem segCmp_nil_right {x : Text} (h : x ≠ []) : segCmp x [] = some 1 := by
  simp [segCmp, h, isdigit]

theorem segCmp_nil_left {y : Text} (h : y ≠ []) : segCmp [] y = some (-1) := by
  have hlt : ([] : Text) < y := by
    cases y with
    | nil => exact absurd rfl h
    | cons c cs => exact List.nil_lt_cons c cs
  simp [segCmp, h.symm, isdigit, hlt]

/-- Against nothing, the first nonempty segment wins. -/
theorem segsCmp_nil_right_of_mem {xs : List Text} {x : Text} (hx : x ∈ xs) (hne : x ≠ []) :
    segsCmp xs [] = some 1 := by
  induction xs with
  | nil => simp at hx
  | cons y ys ih =>
    rw [segsCmp_cons_nil]
    split_ifs with hy
    · rcases List.mem_cons.mp hx with rfl | hmem
      · exact absurd hy hne
      · exact ih hmem
    · exact segCmp_nil_right hy

theorem segsCmp_nil_left_of_mem {ys : List Text} {y : Text} (hy : y ∈ ys) (hne : y ≠ []) :
    segsCmp [] ys = some (-1) := by
  induction ys with
  | nil => simp at hy
  | cons z zs ih =>
    rw [segsCmp_nil_cons]
    split_ifs with hz
    · rcases List.mem_cons.mp hy with rfl | hmem
      · exact absurd hz.symm hne
      · exact ih hmem
    · exact segCmp_nil_left fun h => hz h.symm

/-- String order decides against a segment that is no numeral. -/
theorem segCmp_of_not_isdigit_right {x y : Text} (hne : x ≠ y) (hy : isdigit y = false) :
    segCmp x y = some (if x < y then -1 else 1) := by
  simp [segCmp, hne, hy]

theorem segCmp_of_not_isdigit_left {x y : Text} (hne : x ≠ y) (hx : isdigit x = false) :
    segCmp x y = some (if x < y then -1 else 1) := by
  simp [segCmp, hne, hx]

/-- Two versions first differ in the segments `x` and `y`. -/
def FirstDiff (xs ys : List Text) (x y : Text) : Prop :=
  x ≠ y ∧ ∃ cs xs' ys', xs = cs ++ x :: xs' ∧ ys = cs ++ y :: ys'

/-- A positive comparison either meets a difference inside both versions, or the first
version continues the second. -/
theorem segsCmp_eq_one {xs ys : List Text} (h : segsCmp xs ys = some 1) :
    (∃ x y, FirstDiff xs ys x y ∧ segCmp x y = some 1) ∨ ∃ s rest, xs = ys ++ s :: rest := by
  induction xs generalizing ys with
  | nil =>
    -- the empty version never wins
    exfalso
    induction ys with
    | nil => simp [segsCmp_self] at h
    | cons y ys ih =>
      rw [segsCmp_nil_cons] at h
      split_ifs at h with hy
      · exact ih h
      · rw [segCmp_nil_left fun h' => hy h'.symm] at h
        simp at h
  | cons x xs ih =>
    cases ys with
    | nil => exact Or.inr ⟨x, xs, rfl⟩
    | cons y ys =>
      rw [segsCmp_cons_cons] at h
      split_ifs at h with hxy
      · subst hxy
        rcases ih h with ⟨u, v, ⟨huv, cs, xs', ys', rfl, rfl⟩, hcmp⟩ | ⟨s, rest, rfl⟩
        · exact Or.inl ⟨u, v, ⟨huv, x :: cs, xs', ys', rfl, rfl⟩, hcmp⟩
        · exact Or.inr ⟨s, rest, rfl⟩
      · exact Or.inl ⟨x, y, ⟨hxy, [], xs, ys, rfl, rfl⟩, h⟩

theorem segsCmp_of_firstDiff {xs ys : List Text} {x y : Text} (h : FirstDiff xs ys x y)
    (us vs : List Text) : segsCmp (xs ++ us) (ys ++ vs) = segCmp x y := by
  obtain ⟨hne, cs, xs', ys', rfl, rfl⟩ := h
  rw [List.append_assoc, List.append_assoc, segsCmp_append_left, List.cons_append,
    List.cons_append, segsCmp_of_ne hne]

theorem FirstDiff.symm {xs ys : List Text} {x y : Text} (h : FirstDiff xs ys x y) :
    FirstDiff ys xs y x := by
  obtain ⟨hne, cs, xs', ys', hx, hy⟩ := h
  exact ⟨hne.symm, cs, ys', xs', hy, hx⟩

/-- A difference inside both versions excludes that one continues the other. -/
theorem FirstDiff.not_extends {xs ys : List Text} {x y : Text} (h : FirstDiff xs ys x y)
    (s : Text) (rest : List Text) : xs ≠ ys ++ s :: rest := by
  obtain ⟨hne, cs, xs', ys', rfl, rfl⟩ := h
  intro heq
  rw [List.append_assoc] at heq
  have := List.append_cancel_left heq
  exact hne (List.cons.inj this).1

/-- Turned round, a lost comparison is won and a won one lost, except that two numerals of
one value win both ways. -/
theorem segCmp_swap {x y : Text} (hne : x ≠ y) (h : segCmp x y = some 1) :
    segCmp y x = some (if isdigit x ∧ isdigit y ∧ pyInt x = pyInt y then 1 else -1) := by
  unfold segCmp at h ⊢
  rw [if_neg hne] at h
  rw [if_neg hne.symm]
  by_cases hdig : isdigit x = true ∧ isdigit y = true
  · rw [if_pos hdig] at h
    rw [if_pos hdig.symm]
    rcases hm : pyInt x with _ | m
    · rw [hm] at h
      simp at h
    · rcases hn : pyInt y with _ | n
      · rw [hm, hn] at h
        simp at h
      · rw [hm, hn] at h
        have hlt : ¬ m < n := by
          intro hlt
          simp [hlt] at h
        by_cases heq : m = n
        · simp [hdig.1, hdig.2, heq]
        · have hgt : n < m := by omega
          simp [hdig.1, hdig.2, heq, hgt]
  · rw [if_neg hdig] at h
    have hlt : ¬ x < y := by
      intro hlt
      simp [hlt] at h
    have hgt : y < x := lt_of_le_of_ne (not_lt.mp hlt) hne.symm
    rw [if_neg fun hd => hdig hd.symm, if_pos hgt,
      if_neg fun hd => hdig ⟨hd.1, hd.2.1⟩]

/-! ## Appending the revisions -/

/-- `A` continues `B`, and its first further segment sorts before the revision segment. -/
def ContinuesBelow (a b : Text) (n : ℕ) : Prop :=
  ∃ s rest, segments a = segments b ++ s :: rest ∧ s < 'r' :: decimal n

/-- The versions first differ in two numerals of one value (`1.01` and `1.1`). -/
def SameValueDiff (a b : Text) : Prop :=
  ∃ x y, FirstDiff (segments a) (segments b) x y ∧
    isdigit x = true ∧ isdigit y = true ∧ pyInt x = pyInt y

/-- What a positive comparison of the bare versions becomes with the revisions appended,
in both directions. -/
theorem vercmp_revision {a b : Text} (n : ℕ) (h : vercmp a b = some 1) :
    (¬ ContinuesBelow a b n →
      vercmp (withRevision a 0) (withRevision b n) = some 1 ∧
      (SameValueDiff a b → vercmp (withRevision b n) (withRevision a 0) = some 1) ∧
      (¬ SameValueDiff a b → vercmp (withRevision b n) (withRevision a 0) = some (-1))) ∧
    (ContinuesBelow a b n →
      vercmp (withRevision a 0) (withRevision b n) = some (-1) ∧
      vercmp (withRevision b n) (withRevision a 0) = some 1) := by
  have hrev := isdigit_revision n
  rw [vercmp, vercmp, segments_withRevision, segments_withRevision]
  rcases segsCmp_eq_one h with ⟨x, y, hdiff, hxy⟩ | ⟨s, rest, hext⟩
  · -- the deciding segments are the same with the revisions behind them
    have hfwd := segsCmp_of_firstDiff hdiff ['r' :: decimal 0] ['r' :: decimal n]
    have hbwd := segsCmp_of_firstDiff hdiff.symm ['r' :: decimal n] ['r' :: decimal 0]
    have hswap := segCmp_swap hdiff.1 hxy
    have hnot : ¬ ContinuesBelow a b n := by
      rintro ⟨s, rest, hext, -⟩
      exact hdiff.not_extends s rest hext
    refine ⟨fun _ => ⟨hfwd.trans hxy, ?_, ?_⟩, fun hc => absurd hc hnot⟩
    · rintro ⟨x', y', hdiff', hx', hy', hval⟩
      have hfwd' := segsCmp_of_firstDiff hdiff' [] []
      have hbwd' := segsCmp_of_firstDiff hdiff'.symm ['r' :: decimal n] ['r' :: decimal 0]
      have hone : segCmp x' y' = some 1 := by
        rw [List.append_nil, List.append_nil] at hfwd'
        exact hfwd'.symm.trans h
      rw [hbwd', segCmp_swap hdiff'.1 hone, if_pos ⟨hx', hy', hval⟩]
    · intro hnv
      rw [hbwd, hswap, if_neg]
      rintro ⟨hx, hy, hval⟩
      exact hnv ⟨x, y, hdiff, hx, hy, hval⟩
  · -- the first further segment meets the other version's revision
    have hsv : ¬ SameValueDiff a b := by
      rintro ⟨x, y, hdiff, -⟩
      exact hdiff.not_extends s rest hext
    have hcont : ContinuesBelow a b n ↔ s < 'r' :: decimal n := by
      constructor
      · rintro ⟨s', rest', hext', hlt⟩
        rw [hext] at hext'
        have hs : s = s' := (List.cons.inj (List.append_cancel_left hext')).1
        rwa [hs]
      · exact fun hlt => ⟨s, rest, hext, hlt⟩
    rw [hext, hcont, List.append_assoc, segsCmp_append_left, segsCmp_append_left, List.cons_append]
    by_cases hs : s = 'r' :: decimal n
    · -- equal to it: our own revision is still to come
      subst hs
      have hmem : 'r' :: decimal 0 ∈ rest ++ ['r' :: decimal 0] := by simp
      refine ⟨fun _ => ⟨?_, fun hv => absurd hv hsv, fun _ => ?_⟩, fun hlt => absurd hlt (lt_irrefl _)⟩
      · rw [segsCmp_cons_cons, if_pos rfl, segsCmp_nil_right_of_mem hmem (by simp)]
      · rw [segsCmp_cons_cons, if_pos rfl, segsCmp_nil_left_of_mem hmem (by simp)]
    · rw [segsCmp_of_ne hs, segsCmp_of_ne fun h => hs h.symm, segCmp_of_not_isdigit_right hs hrev,
        segCmp_of_not_isdigit_left (fun h => hs h.symm) hrev]
      constructor
      · intro hge
        have hgt : 'r' :: decimal n < s := lt_of_le_of_ne (not_lt.mp hge) fun h => hs h.symm
        exact ⟨by rw [if_neg hge], fun hv => absurd hv hsv, fun _ => by rw [if_pos hgt]⟩
      · intro hlt
        exact ⟨by rw [if_pos hlt], by rw [if_neg (lt_asymm hlt)]⟩

private theorem mem_of_mem_segments {v s : Text} {c : Char} (hs : s ∈ segments v) (hc : c ∈ s) :
    c ∈ v := by
  unfold segments at hs
  induction v generalizing s with
  | nil =>
    rw [List.splitOnP_nil, List.mem_singleton] at hs
    rwa [hs] at hc
  | cons d v ih =>
    rw [List.splitOnP_cons_eq_if_modifyHead] at hs
    split_ifs at hs with hd
    · rcases List.mem_cons.mp hs with rfl | hs
      · simp at hc
      · exact List.mem_cons_of_mem _ (ih hs hc)
    · -- `d` joins the first segment of the rest
      obtain ⟨first, others, hsplit⟩ := List.exists_cons_of_ne_nil (List.splitOnP_ne_nil isVerSep v)
      rw [hsplit, List.modifyHead_cons] at hs
      rcases List.mem_cons.mp hs with rfl | hs
      · rcases List.mem_cons.mp hc with rfl | hc
        · exact List.mem_cons_self
        · exact List.mem_cons_of_mem _ (ih (hsplit ▸ List.mem_cons_self) hc)
      · exact List.mem_cons_of_mem _ (ih (hsplit ▸ List.mem_cons_of_mem _ hs) hc)

private theorem lt_r_of_isDigit {c : Char} (h : c.isDigit = true) : c < 'r' := by
  simp only [Char.isDigit, Bool.and_eq_true, decide_eq_true_eq] at h
  exact lt_of_le_of_lt (show c ≤ '9' from h.2) (by decide)

/-- Digits and dots only. -/
def DottedNumeric (v : Text) : Prop := ∀ c ∈ v, c = '.' ∨ c.isDigit = true

/-- A dotted-numeric version that continues another does so below its revision. -/
theorem continuesBelow_iff_of_dottedNumeric {a b : Text} (n : ℕ) (ha : DottedNumeric a)
    (h : vercmp a b = some 1) : ContinuesBelow a b n ↔ segments b <+: segments a := by
  constructor
  · rintro ⟨s, rest, hext, -⟩
    exact ⟨s :: rest, hext.symm⟩
  · rintro ⟨tail, htail⟩
    cases tail with
    | nil =>
      rw [List.append_nil] at htail
      rw [vercmp, htail, segsCmp_self] at h
      simp at h
    | cons s rest =>
      refine ⟨s, rest, htail.symm, ?_⟩
      cases s with
      | nil => exact List.nil_lt_cons _ _
      | cons c cs =>
        have hmem : (c :: cs) ∈ segments a := by
          rw [← htail]
          exact List.mem_append_right _ List.mem_cons_self
        have hc : c ∈ a := mem_of_mem_segments hmem List.mem_cons_self
        have hlt : c < 'r' := by
          rcases ha c hc with rfl | hdig
          · decide
          · exact lt_r_of_isDigit hdig
        exact List.Lex.rel hlt

/-! ## Turned round -/

/-- One position at a time, missing segments being `''`. -/
theorem segsCmp_step (xs ys : List Text) :
    segsCmp xs ys = if xs.headD [] = ys.headD [] then segsCmp xs.tail ys.tail
      else segCmp (xs.headD []) (ys.headD []) := by
  cases xs with
  | nil =>
    cases ys with
    | nil => simp
    | cons y ys => simpa using segsCmp_nil_cons y ys
  | cons x xs =>
    cases ys with
    | nil => simpa using segsCmp_cons_nil x xs
    | cons y ys => simpa using segsCmp_cons_cons x y xs ys

theorem segCmp_ne_zero {x y : Text} (hne : x ≠ y) : segCmp x y ≠ some 0 := by
  intro h
  unfold segCmp at h
  rw [if_neg hne] at h
  split_ifs at h with hdig hlt
  · simp only [Option.bind_eq_bind, Option.bind_eq_some_iff, Option.some.injEq] at h
    obtain ⟨m, -, n, -, h⟩ := h
    split_ifs at h
    simp at h
  · simp at h
  · simp at h

/-- A lost comparison is won when turned round. -/
theorem segCmp_of_swap_lost {x y : Text} (h : segCmp x y = some (-1)) : segCmp y x = some 1 := by
  unfold segCmp at h ⊢
  split_ifs at h with hne hdig hlt
  · simp at h
  · simp only [Option.bind_eq_bind, Option.bind_eq_some_iff, Option.some.injEq] at h
    obtain ⟨m, hm, n, hn, h⟩ := h
    have hlt : m < n := by
      by_contra hge
      simp [hge] at h
    rw [if_neg fun heq => hne heq.symm, if_pos hdig.symm]
    simp [hm, hn, Nat.not_lt_of_lt hlt]
  · rw [if_neg fun heq => hne heq.symm, if_neg fun hd => hdig hd.symm,
      if_neg (lt_asymm hlt)]
  · simp at h

/-- The three facts about one loop: it runs no further than the longer version. -/
private theorem segsCmp_swap_of_le (n : ℕ) : ∀ {xs ys : List Text}, xs.length ≤ n →
    ys.length ≤ n → (segsCmp xs ys = some (-1) → segsCmp ys xs = some 1) ∧
      (segsCmp xs ys = some 0 → segsCmp ys xs = some 0) := by
  induction n with
  | zero =>
    intro xs ys hxs hys
    obtain rfl := List.length_eq_zero_iff.mp (Nat.le_zero.mp hxs)
    obtain rfl := List.length_eq_zero_iff.mp (Nat.le_zero.mp hys)
    simp [segsCmp_self]
  | succ n ih =>
    intro xs ys hxs hys
    have htail := @ih xs.tail ys.tail (by simp; omega) (by simp; omega)
    rw [segsCmp_step xs ys, segsCmp_step ys xs]
    by_cases hhead : xs.headD [] = ys.headD []
    · rwa [if_pos hhead, if_pos hhead.symm]
    · rw [if_neg hhead, if_neg fun h => hhead h.symm]
      exact ⟨segCmp_of_swap_lost, fun h => absurd h (segCmp_ne_zero hhead)⟩

/-- A lost comparison of versions is won when turned round. -/
theorem vercmp_of_swap_lost {a b : Text} (h : vercmp a b = some (-1)) : vercmp b a = some 1 :=
  (segsCmp_swap_of_le _ (le_max_left _ _) (le_max_right _ _)).1 h

theorem vercmp_zero_symm {a b : Text} (h : vercmp a b = some 0) : vercmp b a = some 0 :=
  (segsCmp_swap_of_le _ (le_max_left _ _) (le_max_right _ _)).2 h

private theorem segsCmp_congr_of_le (n : ℕ) : ∀ {xs ys zs : List Text}, xs.length ≤ n →
    ys.length ≤ n → zs.length ≤ n → segsCmp xs ys = some 0 → segsCmp zs xs = segsCmp zs ys := by
  induction n with
  | zero =>
    intro xs ys zs hxs hys _ _
    obtain rfl := List.length_eq_zero_iff.mp (Nat.le_zero.mp hxs)
    obtain rfl := List.length_eq_zero_iff.mp (Nat.le_zero.mp hys)
    rfl
  | succ n ih =>
    intro xs ys zs hxs hys hzs h
    rw [segsCmp_step xs ys] at h
    by_cases hhead : xs.headD [] = ys.headD []
    · rw [if_pos hhead] at h
      have htail := @ih xs.tail ys.tail zs.tail (by simp; omega) (by simp; omega) (by simp; omega) h
      rw [segsCmp_step zs xs, segsCmp_step zs ys, hhead, htail]
    · rw [if_neg hhead] at h
      exact absurd h (segCmp_ne_zero hhead)

/-- Versions that compare equal lose and win against the same others. -/
theorem vercmp_congr_right {a b : Text} (h : vercmp a b = some 0) (z : Text) :
    vercmp z a = vercmp z b :=
  segsCmp_congr_of_le (max (segments z).length (max (segments a).length (segments b).length))
    (by omega) (by omega) (by omega) h

end OsMoap.Pack
