import OsMoap.Pack.IndexOrder
import OsMoap.Pack.VersionOrder
import Mathlib.Data.Finset.Max

/-!
# Packaging Revisions

A package that changes without a new upstream version is published as the next `-rN`, because
blobs are immutable.  `vercmp` of `tools/pack_repo.py` compares `rM` and `rN` as strings, so the
order of the numbers comes out exactly when the leading digits of the larger one, as many as the
smaller one has, are not below the smaller one: `-r10` is behind `-r9`, and `reindex` then keeps
the old blob in the index.
-/

namespace OsMoap.Pack

open OsMoap.Lib

/-! ## Numerals as strings -/

/-- The number of digits of `str(n)`. -/
def numDigits (n : ℕ) : ℕ := (decimal n).length

theorem append_lt_append_iff {a a' : Text} (h : a.length = a'.length) (b b' : Text) :
    a ++ b < a' ++ b' ↔ a < a' ∨ (a = a' ∧ b < b') := by
  induction a generalizing a' with
  | nil =>
    obtain rfl := List.length_eq_zero_iff.mp h.symm
    simp
  | cons c a ih =>
    cases a' with
    | nil => simp at h
    | cons c' a' =>
      rw [List.cons_append, List.cons_append, List.cons_lt_cons_iff, List.cons_lt_cons_iff,
        ih (Nat.succ.inj h), List.cons.injEq]
      tauto

/-- A string that is no longer is below another with a character behind it exactly when it is not
above the other. -/
theorem lt_append_singleton_iff {a b : Text} (h : a.length ≤ b.length) (c : Char) :
    a < b ++ [c] ↔ a < b ∨ a = b := by
  induction a generalizing b with
  | nil =>
    cases b with
    | nil => simp
    | cons e b => simp
  | cons d a ih =>
    cases b with
    | nil => simp at h
    | cons e b =>
      rw [List.cons_append, List.cons_lt_cons_iff, List.cons_lt_cons_iff,
        ih (Nat.le_of_succ_le_succ h), List.cons.injEq]
      tauto

theorem numDigits_of_ten_le {n : ℕ} (h : 10 ≤ n) : numDigits n = numDigits (n / 10) + 1 := by
  rw [numDigits, decimal_of_ten_le h, List.length_append]
  rfl

theorem numDigits_of_lt_ten {n : ℕ} (h : n < 10) : numDigits n = 1 := by
  rw [numDigits, decimal_of_lt_ten h]
  rfl

theorem digitChar_lt_iff {m n : ℕ} (hm : m < 10) (hn : n < 10) :
    Nat.digitChar m < Nat.digitChar n ↔ m < n := by
  have h : ∀ m < 10, ∀ n < 10, (Nat.digitChar m < Nat.digitChar n ↔ m < n) := by decide
  exact h m hm n hn

theorem numDigits_pos (n : ℕ) : 0 < numDigits n := List.length_pos_iff.mpr (decimal_ne_nil n)

/-- Numerals of one length are in the order of their values. -/
theorem decimal_lt_of_numDigits_eq {m n : ℕ} (h : numDigits m = numDigits n) :
    decimal m < decimal n ↔ m < n := by
  induction n using Nat.strongRecOn generalizing m with
  | ind n ih =>
    have hpos := numDigits_pos (m / 10)
    have hpos' := numDigits_pos (n / 10)
    by_cases hm : m < 10
    · have hn : n < 10 := by
        by_contra hn
        rw [numDigits_of_lt_ten hm, numDigits_of_ten_le (Nat.not_lt.mp hn)] at h
        omega
      rw [decimal_of_lt_ten hm, decimal_of_lt_ten hn,
        List.cons_lt_cons_iff, digitChar_lt_iff hm hn]
      simp
    · have hn : ¬ n < 10 := by
        intro hn
        rw [numDigits_of_lt_ten hn, numDigits_of_ten_le (Nat.not_lt.mp hm)] at h
        omega
      rw [numDigits_of_ten_le (Nat.not_lt.mp hm), numDigits_of_ten_le (Nat.not_lt.mp hn)] at h
      have hlen : numDigits (m / 10) = numDigits (n / 10) := Nat.succ.inj h
      -- the digits before the last decide, or the last ones do
      rw [decimal_of_ten_le (Nat.not_lt.mp hm), decimal_of_ten_le (Nat.not_lt.mp hn),
        append_lt_append_iff hlen, ih (n / 10) (by omega) hlen, List.cons_lt_cons_iff,
        digitChar_lt_iff (Nat.mod_lt m (by decide)) (Nat.mod_lt n (by decide))]
      simp only [List.not_lt_nil, and_false, or_false]
      rw [decimal_injective.eq_iff]
      omega

/-- A shorter numeral is below a longer one exactly when its value is not above the leading digits
of the longer one. -/
theorem decimal_lt_of_numDigits_lt {m n : ℕ} (h : numDigits m < numDigits n) :
    decimal m < decimal n ↔ m ≤ n / 10 ^ (numDigits n - numDigits m) := by
  obtain ⟨k, hk⟩ := Nat.exists_eq_add_of_lt h
  -- as many digits as `m` is short of are taken off the end of `n`, one at a time
  induction k generalizing n with
  | zero =>
    have hn : 10 ≤ n := by
      by_contra hn
      rw [numDigits_of_lt_ten (Nat.not_le.mp hn)] at h
      have hpos := numDigits_pos m
      omega
    have hlen := numDigits_of_ten_le hn
    have heq : numDigits m = numDigits (n / 10) := by omega
    rw [decimal_of_ten_le hn, lt_append_singleton_iff (le_of_eq heq),
      decimal_lt_of_numDigits_eq heq, decimal_injective.eq_iff, hk]
    rw [show numDigits m + 0 + 1 - numDigits m = 1 by omega, pow_one]
    omega
  | succ k ih =>
    have hn : 10 ≤ n := by
      by_contra hn
      rw [numDigits_of_lt_ten (Nat.not_le.mp hn)] at h
      have hpos := numDigits_pos m
      omega
    have hlen := numDigits_of_ten_le hn
    have hlt : numDigits m < numDigits (n / 10) := by omega
    have hne : decimal m ≠ decimal (n / 10) := by
      intro heq
      rw [numDigits, numDigits, heq] at hlt
      exact absurd hlt (lt_irrefl _)
    rw [decimal_of_ten_le hn, lt_append_singleton_iff (le_of_lt hlt), or_iff_left hne,
      ih hlt (by omega), Nat.div_div_eq_div_mul, ← pow_succ']
    rw [show numDigits (n / 10) - numDigits m + 1 = numDigits n - numDigits m by omega]

/-- A smaller number has no more digits. -/
theorem numDigits_le_of_le {m n : ℕ} (h : m ≤ n) : numDigits m ≤ numDigits n := by
  induction n using Nat.strongRecOn generalizing m with
  | ind n ih =>
    by_cases hm : m < 10
    · rw [numDigits_of_lt_ten hm]
      exact numDigits_pos n
    · have hn : 10 ≤ n := by omega
      rw [numDigits_of_ten_le (Nat.not_lt.mp hm), numDigits_of_ten_le hn]
      exact Nat.succ_le_succ (ih (n / 10) (by omega) (by omega))

/-- Of two numbers, the smaller one's numeral is below the other's exactly when the leading digits
of the other, as many as it has, are not below it. -/
theorem decimal_lt_iff {m n : ℕ} (h : m < n) :
    decimal m < decimal n ↔ m ≤ n / 10 ^ (numDigits n - numDigits m) := by
  rcases Nat.lt_or_eq_of_le (numDigits_le_of_le (le_of_lt h)) with hlt | heq
  · exact decimal_lt_of_numDigits_lt hlt
  · rw [decimal_lt_of_numDigits_eq heq, heq, Nat.sub_self, pow_zero, Nat.div_one]
    omega

/-! ## Revisions -/

/-- Revisions of one version are compared as strings. -/
theorem vercmp_withRevision (v : Text) (m n : ℕ) :
    vercmp (withRevision v m) (withRevision v n) =
      some (if m = n then 0 else if decimal m < decimal n then -1 else 1) := by
  rw [vercmp, segments_withRevision, segments_withRevision, segsCmp_append_left, segsCmp_cons_cons]
  by_cases hmn : m = n
  · rw [hmn, if_pos rfl, if_pos rfl, segsCmp_self]
  · have hne : 'r' :: decimal m ≠ 'r' :: decimal n := fun h =>
      hmn (decimal_injective (List.cons.inj h).2)
    have hlt : 'r' :: decimal m < 'r' :: decimal n ↔ decimal m < decimal n := by
      rw [List.cons_lt_cons_iff]
      simp
    rw [if_neg hne, if_neg hmn, segCmp_of_not_isdigit_right hne (isdigit_revision n)]
    simp only [hlt]

/-- The leading digits of the larger number, as many as the smaller one has, are not below the
smaller one. -/
def LeadingDigits (m n : ℕ) : Prop :=
  (m < n → m ≤ n / 10 ^ (numDigits n - numDigits m)) ∧
    (n < m → n ≤ m / 10 ^ (numDigits m - numDigits n))

/-- The comparison has the sign of the difference. -/
theorem vercmp_revisions_iff (v : Text) (m n : ℕ) :
    vercmp (withRevision v m) (withRevision v n) = some (Int.sign ((m : ℤ) - n)) ↔
      LeadingDigits m n := by
  rw [vercmp_withRevision, Option.some.injEq, LeadingDigits]
  rcases Nat.lt_trichotomy m n with hlt | rfl | hgt
  · rw [if_neg (by omega), ← decimal_lt_iff hlt, Int.sign_eq_neg_one_of_neg (by omega)]
    split_ifs with hdec
    · exact ⟨fun _ => ⟨fun _ => hdec, fun h => absurd h (by omega)⟩, fun _ => rfl⟩
    · exact ⟨fun h => absurd h (by decide), fun h => absurd (h.1 hlt) hdec⟩
  · simp
  · have hne : decimal m ≠ decimal n := fun h => absurd (decimal_injective h) (by omega)
    rw [if_neg (by omega), ← decimal_lt_iff hgt, Int.sign_eq_one_of_pos (by omega)]
    split_ifs with hdec
    · exact ⟨fun h => absurd h (by decide), fun h => absurd (h.2 hgt) (lt_asymm hdec)⟩
    · exact ⟨fun _ => ⟨fun h => absurd h (by omega),
        fun _ => lt_of_le_of_ne (not_lt.mp hdec) hne.symm⟩, fun _ => rfl⟩

/-! ## The indexed revision -/

/-- Some entries are revisions of one version, none of them above `n`. -/
def RevisionsUpTo (v : Text) (n : ℕ) (es : List IndexEntry) : Prop :=
  ∀ e ∈ es, ∃ m, m ≤ n ∧ e.ver = withRevision v m

theorem withRevision_injective (v : Text) : Function.Injective (withRevision v) := by
  intro m n h
  exact decimal_injective (List.cons.inj (List.cons.inj (List.append_cancel_left h)).2).2

theorem withRevision_lt_iff (v : Text) (m n : ℕ) :
    withRevision v m < withRevision v n ↔ decimal m < decimal n := by
  rw [withRevision, withRevision, append_lt_append_iff rfl, List.cons_lt_cons_iff,
    List.cons_lt_cons_iff]
  simp

/-- A revision beats another if its numeral comes after the other's. -/
theorem vercmp_eq_one_iff (v : Text) (m n : ℕ) :
    vercmp (withRevision v m) (withRevision v n) = some 1 ↔ decimal n < decimal m := by
  rw [vercmp_withRevision, Option.some.injEq]
  constructor
  · intro h
    have heq : m ≠ n := by
      rintro rfl
      simp at h
    have hlt : ¬ decimal m < decimal n := by
      intro hlt
      simp [heq, hlt] at h
    have hne : decimal m ≠ decimal n := fun hdec => heq (decimal_injective hdec)
    exact lt_of_le_of_ne (not_lt.mp hlt) hne.symm
  · intro hlt
    rw [if_neg, if_neg (lt_asymm hlt)]
    rintro rfl
    exact absurd hlt (lt_irrefl _)

/-- Among revisions there is one whose numeral is last. -/
theorem hasUnbeaten_of_revisions {v : Text} {n : ℕ} {es : List IndexEntry} (hne : es ≠ [])
    (h : RevisionsUpTo v n es) : HasUnbeaten es := by
  refine ⟨fun e he e' he' => ?_, ?_⟩
  · obtain ⟨m, -, hm⟩ := h e he
    obtain ⟨m', -, hm'⟩ := h e' he'
    rw [hm, hm', vercmp_withRevision]
    rfl
  · obtain ⟨e₀, he₀⟩ := List.exists_mem_of_ne_nil es hne
    have hmem : ∀ e ∈ es, e.ver ∈ (es.map fun e => e.ver).toFinset := fun e he =>
      List.mem_toFinset.mpr (List.mem_map_of_mem he)
    obtain ⟨ver, hver, hmax⟩ := Finset.exists_max_image _ id ⟨e₀.ver, hmem e₀ he₀⟩
    obtain ⟨e, he, rfl⟩ := List.mem_map.mp (List.mem_toFinset.mp hver)
    refine ⟨e, he, fun e' he' hbeat => ?_⟩
    have hle : e'.ver ≤ e.ver := hmax e'.ver (hmem e' he')
    obtain ⟨m, -, hm⟩ := h e he
    obtain ⟨m', -, hm'⟩ := h e' he'
    rw [hm, hm', vercmp_eq_one_iff, ← withRevision_lt_iff v] at hbeat
    rw [hm, hm'] at hle
    exact absurd hbeat (not_lt.mpr hle)

/-- The last revision is indexed exactly when it beats the others. -/
theorem holder_revision_iff {v : Text} {n : ℕ} {es : List IndexEntry} (h : RevisionsUpTo v n es)
    (hn : ∃ e ∈ es, e.ver = withRevision v n) :
    (∃ e, holderAfter entryBeats none es = some (some e) ∧ e.ver = withRevision v n) ↔
      ∀ m, (∃ e ∈ es, e.ver = withRevision v m) → LeadingDigits m n := by
  obtain ⟨e₀, he₀, hver₀⟩ := hn
  have hne : es ≠ [] := List.ne_nil_of_mem he₀
  obtain ⟨c, hc, hbest, hholder⟩ := holderAfter_unbeaten (hasUnbeaten_of_revisions hne h)
  rw [hholder]
  constructor
  · rintro ⟨e, he, hver⟩ m ⟨e', he', hver'⟩
    obtain rfl := Option.some.inj (Option.some.inj he)
    have hnot := hbest e' he'
    rw [hver, hver', Ne, vercmp_eq_one_iff] at hnot
    obtain ⟨m', hle, hm'⟩ := h e' he'
    obtain rfl : m = m' := withRevision_injective v (hver'.symm.trans hm')
    refine ⟨fun hlt => ?_, fun hgt => absurd hle (by omega)⟩
    have hdec : decimal m ≠ decimal n := fun heq => absurd (decimal_injective heq) (by omega)
    exact (decimal_lt_iff hlt).mp (lt_of_le_of_ne (not_lt.mp hnot) hdec)
  · intro hlead
    refine ⟨c, rfl, ?_⟩
    obtain ⟨m, hle, hm⟩ := h c hc
    rcases Nat.lt_or_eq_of_le hle with hlt | rfl
    · -- an unbeaten one is not below the last
      have hdec := (decimal_lt_iff hlt).mpr ((hlead m ⟨c, hc, hm⟩).1 hlt)
      have hnot := hbest e₀ he₀
      rw [hm, hver₀, Ne, vercmp_eq_one_iff] at hnot
      exact absurd hdec hnot
    · exact hm

variable {unpack : Bytes → Option (ℕ × Text)} {sha256 : Bytes → Text}

/-- Two revisions of one release. -/
def lessRevisions (m n : ℕ) : List (Text × Bytes) :=
  lessReleases [withRevision "608".toList m, withRevision "608".toList n]

/-- Two revisions, the second one later, and their index. -/
theorem index_lessRevisions {m n : ℕ} (hmn : m < n)
    (hread : ∀ v ∈ [withRevision "608".toList m, withRevision "608".toList n],
      indexEntry plainUnpack (fun _ => []) (blobName "less".toList v, lessBlob v)
        = some (lessEntry v)) :
    (∃ index, reindexIn plainUnpack (fun _ => []) (lessRevisions m n) = some index) ∧
      contenders plainUnpack (fun _ => []) "less".toList (lessRevisions m n) =
        [lessEntry (withRevision "608".toList m), lessEntry (withRevision "608".toList n)] ∧
      RevisionsUpTo "608".toList n
        (contenders plainUnpack (fun _ => []) "less".toList (lessRevisions m n)) ∧
      ∃ e ∈ contenders plainUnpack (fun _ => []) "less".toList (lessRevisions m n),
        e.ver = withRevision "608".toList n := by
  have hcs := contenders_lessReleases hread "less".toList
  rw [if_pos rfl] at hcs
  have hrevs : RevisionsUpTo "608".toList n
      [lessEntry (withRevision "608".toList m), lessEntry (withRevision "608".toList n)] := by
    intro e he
    rcases List.mem_pair.mp he with rfl | rfl
    · exact ⟨m, le_of_lt hmn, rfl⟩
    · exact ⟨n, le_rfl, rfl⟩
  rw [lessRevisions, hcs]
  refine ⟨?_, rfl, hrevs, lessEntry (withRevision "608".toList n), by simp, rfl⟩
  obtain ⟨index, hindex, -⟩ := reindexIn_unbeaten (readable_lessReleases hread) (List.Perm.refl _)
    fun P hP => by
      rw [contenders_lessReleases hread] at hP ⊢
      split_ifs at hP ⊢
      · exact hasUnbeaten_of_revisions hP hrevs
      · exact absurd rfl hP
  exact ⟨index, hindex⟩

end OsMoap.Pack
