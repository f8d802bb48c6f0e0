import OsMoap.Lib.Lines
import OsMoap.Pack.PyText

/-!
# The Walk Along `PATH`

`padvance` of `guest/busybox/upstream/shell/ash.c` takes one element off `PATH` at each call.  An
element may carry an option, `%builtin` or `%func`; the loops that run programs pass over those.

The calls of such a loop are the elements between the colons, in their order
(`candidates_pathWalk`).  A `Char` stands for a byte.
-/

namespace OsMoap.Shell

open OsMoap.Lib OsMoap.Pack

/-! ## `padvance` -/

/-- `prefix`: what follows `p` in `s`. -/
def afterPrefix (s p : Text) : Option Text :=
  if p.isPrefixOf s then some (s.drop p.length) else none

/-- `legal_pathopt`: the text after a legal option. -/
def legalPathopt (opt : Text) (term : List Char) (magic : ℕ) : Option Text :=
  let opt :=
    match magic with
    | 0 => none
    | 1 => (afterPrefix opt "builtin".toList).or (afterPrefix opt "func".toList)
    | _ => some (opt.dropWhile (· ∉ term))
  opt.map fun opt =>
    match opt with
    | '%' :: opt => opt
    | _ => opt

/-- What a call of `padvance_magic` leaves: the candidate on the stack, `pathopt`, and where
`*path` is then; `none` is `NULL`. -/
structure Advance where
  cmdname : Text
  pathopt : Option Text
  path : Option Text
  deriving DecidableEq

/-- `name` in the directory `dir`; an empty one is left out. -/
def inDir (dir name : Text) : Text := if dir = [] then name else dir ++ '/' :: name

/-- The start of `padvance_magic`: an option before the directory is skipped. -/
def pathStart (path : Text) (magic : ℕ) : Text × Option Text × List Char :=
  match path with
  | '%' :: opt =>
    match legalPathopt opt ['%', ':'] magic with
    | some p => (p, some opt, [':'])
    | none => (path, none, ['%', ':'])
  | _ => (path, none, ['%', ':'])

/-- `*p == ':' ? p + 1 : NULL`. -/
def afterColon : Text → Option Text
  | ':' :: rest => some rest
  | _ => none

/-- `padvance_magic` from its `strcspn` on. -/
def advanceFrom (start : Text) (lpathopt : Option Text) (term : List Char) (name : Text)
    (magic : ℕ) : Advance :=
  let dir := start.takeWhile (· ∉ term)
  match start.dropWhile (· ∉ term) with
  | '%' :: opt =>
    let extra := ('%' :: opt).takeWhile (· ≠ ':')
    let p := ('%' :: opt).dropWhile (· ≠ ':')
    match legalPathopt opt term magic with
    | some _ => ⟨inDir dir name, some opt, afterColon p⟩
    | none => ⟨inDir (dir ++ extra) name, lpathopt, afterColon p⟩
  | p => ⟨inDir dir name, lpathopt, afterColon p⟩

/-- `padvance_magic` with `*path` not `NULL`. -/
def padvanceMagic (path name : Text) (magic : ℕ) : Advance :=
  let (start, lpathopt, term) := pathStart path magic
  advanceFrom start lpathopt term name magic

def padvance (path name : Text) : Advance := padvanceMagic path name 1

/-- The calls of a loop `while (padvance(&path, name) >= 0)`; no body changes `path`. -/
def padvances : ℕ → Text → Text → List Advance
  | 0, _, _ => []
  | fuel + 1, path, name =>
    let a := padvance path name
    a :: match a.path with
      | some rest => padvances fuel rest name
      | none => []

/-- A call leaves less of `PATH`, so its length is enough. -/
def pathWalk (path name : Text) : List Advance := padvances (path.length + 1) path name

/-! ## The elements of `PATH` -/

/-- Whether an element of `PATH` has an option `%builtin` or `%func`. -/
def hasPathopt (element : Text) : Bool :=
  match element.dropWhile (· ≠ '%') with
  | '%' :: opt => (legalPathopt opt [] 1).isSome
  | _ => false

/-- What may follow an element of `PATH`. -/
def EndsElement (tail : Text) : Prop := tail = [] ∨ ∃ rest, tail = ':' :: rest

theorem EndsElement.takeWhile_append {tail : Text} (ht : EndsElement tail) {x : Text}
    {term : List Char} (hx : ∀ c ∈ x, c ∉ term) (hterm : ':' ∈ term) :
    (x ++ tail).takeWhile (· ∉ term) = x ∧ (x ++ tail).dropWhile (· ∉ term) = tail := by
  have hx' : ∀ c ∈ x, decide (c ∉ term) = true := fun c hc => decide_eq_true (hx c hc)
  rw [List.takeWhile_append_of_pos hx', List.dropWhile_append_of_pos hx']
  rcases ht with rfl | ⟨rest, rfl⟩
  · simp
  · simp [hterm]

theorem EndsElement.afterPrefix_append {tail : Text} (ht : EndsElement tail) {p : Text}
    (hp : ':' ∉ p) (x : Text) :
    afterPrefix (x ++ tail) p = (afterPrefix x p).map (· ++ tail) := by
  have hiff : p <+: x ++ tail ↔ p <+: x := by
    constructor
    · intro h
      rcases List.prefix_or_prefix_of_prefix h (List.prefix_append x tail) with h' | ⟨t, rfl⟩
      · exact h'
      · rw [List.prefix_append_right_inj] at h
        rcases ht with rfl | ⟨rest, rfl⟩
        · rw [List.prefix_nil.1 h, List.append_nil]
        · cases t with
          | nil => rw [List.append_nil]
          | cons c t =>
            obtain ⟨rfl, -⟩ := List.cons_prefix_cons.1 h
            simp at hp
    · intro h
      exact h.trans (List.prefix_append x tail)
  unfold afterPrefix
  by_cases h : p <+: x
  · rw [if_pos (List.isPrefixOf_iff_prefix.2 (hiff.2 h)), if_pos (List.isPrefixOf_iff_prefix.2 h),
      Option.map_some, List.drop_append_of_le_length h.length_le]
  · rw [if_neg (fun h' => h (hiff.1 (List.isPrefixOf_iff_prefix.1 h'))),
      if_neg (fun h' => h (List.isPrefixOf_iff_prefix.1 h')), Option.map_none]

/-- An option is read within its element. -/
theorem EndsElement.legalPathopt_append {tail : Text} (ht : EndsElement tail) (x : Text)
    (term term' : List Char) :
    legalPathopt (x ++ tail) term 1 = (legalPathopt x term' 1).map (· ++ tail) := by
  unfold legalPathopt
  simp only
  rw [ht.afterPrefix_append (by decide), ht.afterPrefix_append (by decide)]
  rcases h : (afterPrefix x "builtin".toList).or (afterPrefix x "func".toList) with _ | y
  · rw [Option.or_eq_none_iff] at h
    rw [h.1, h.2]
    rfl
  · have hor : ((afterPrefix x "builtin".toList).map (· ++ tail)).or
        ((afterPrefix x "func".toList).map (· ++ tail)) = some (y ++ tail) := by
      rw [← Option.map_or, h]
      rfl
    rw [hor]
    simp only [Option.map_some, Option.some.injEq]
    rcases y with _ | ⟨c, y⟩
    · rcases ht with rfl | ⟨rest, rfl⟩
      · rfl
      · rfl
    · -- a `%` behind the option is swallowed as well
      by_cases hc : c = '%'
      · subst hc
        rfl
      · simp only [List.cons_append]
        split
        · rename_i h1
          rw [List.cons.injEq] at h1
          exact absurd h1.1 hc
        · split
          · rename_i h1
            rw [List.cons.injEq] at h1
            exact absurd h1.1 hc
          · rfl

/-- A legal option has no colon. -/
theorem not_mem_of_legalPathopt {x p : Text} (hx : ':' ∉ x) (h : legalPathopt x [] 1 = some p) :
    ':' ∉ p := by
  have hdrop : ∀ {q y : Text}, afterPrefix x q = some y → ':' ∉ y := by
    intro q y hy
    rw [afterPrefix] at hy
    split_ifs at hy
    rw [← Option.some.inj hy]
    exact fun hc => hx (List.mem_of_mem_drop hc)
  simp only [legalPathopt, Option.map_eq_some_iff] at h
  obtain ⟨y, hy, rfl⟩ := h
  have hcolon : ':' ∉ y := by
    rcases Option.or_eq_some_iff.1 hy with hy | ⟨-, hy⟩
    · exact hdrop hy
    · exact hdrop hy
  split
  · exact fun hc => hcolon (List.mem_cons_of_mem _ hc)
  · exact hcolon

/-- What ends the element is not an option. -/
theorem EndsElement.advanceFrom_end {tail : Text} (ht : EndsElement tail) {dir : Text}
    {term : List Char} (hdir : ∀ c ∈ dir, c ∉ term) (hterm : ':' ∈ term) (lpathopt : Option Text)
    (name : Text) (magic : ℕ) :
    advanceFrom (dir ++ tail) lpathopt term name magic =
      ⟨inDir dir name, lpathopt, afterColon tail⟩ := by
  obtain ⟨htake, hdrop⟩ := ht.takeWhile_append hdir hterm
  rw [advanceFrom, htake, hdrop]
  rcases ht with rfl | ⟨rest, rfl⟩
  · rfl
  · rfl

/-- A `%` after the directory starts an option, or belongs to the directory. -/
theorem EndsElement.advanceFrom_percent {tail : Text} (ht : EndsElement tail) {dir opt : Text}
    (hdir : '%' ∉ dir ∧ ':' ∉ dir) (hopt : ':' ∉ opt) (name : Text) :
    advanceFrom (dir ++ '%' :: opt ++ tail) none ['%', ':'] name 1 =
      if (legalPathopt opt [] 1).isSome then
        ⟨inDir dir name, some (opt ++ tail), afterColon tail⟩
      else ⟨inDir (dir ++ '%' :: opt) name, none, afterColon tail⟩ := by
  have hdir' : ∀ c ∈ dir, decide (c ∉ ['%', ':']) = true := by
    intro c hc
    rw [decide_eq_true_eq, List.mem_pair, not_or]
    exact ⟨fun h => hdir.1 (h ▸ hc), fun h => hdir.2 (h ▸ hc)⟩
  have hstop : ∀ c ∈ '%' :: opt, c ∉ [':'] := by
    intro c hc hcolon
    rw [List.mem_singleton.1 hcolon] at hc
    rcases List.mem_cons.1 hc with h | h
    · cases h
    · exact hopt h
  obtain ⟨htake, hdrop⟩ := ht.takeWhile_append hstop (List.mem_singleton_self _)
  simp only [List.mem_singleton] at htake hdrop
  have hstart : (dir ++ '%' :: opt ++ tail).dropWhile (· ∉ ['%', ':']) = '%' :: (opt ++ tail) := by
    rw [List.append_assoc, List.dropWhile_append_of_pos hdir']
    rfl
  have hhead : (dir ++ '%' :: opt ++ tail).takeWhile (· ∉ ['%', ':']) = dir := by
    rw [List.append_assoc, List.takeWhile_append_of_pos hdir', List.cons_append]
    simp
  rw [advanceFrom, hstart, hhead]
  simp only [ne_eq]
  rw [ht.legalPathopt_append opt _ []]
  rw [List.cons_append] at htake hdrop
  rw [htake, hdrop]
  cases legalPathopt opt [] 1 with
  | none => rfl
  | some p => rfl

theorem hasPathopt_of_not_mem {element : Text} (h : '%' ∉ element) :
    hasPathopt element = false := by
  have hplain : ∀ c ∈ element, decide (c ≠ '%') = true := by
    intro c hc
    rw [decide_eq_true_eq]
    rintro rfl
    exact h hc
  have hdrop : (element ++ []).dropWhile (· ≠ '%') = [] := List.dropWhile_append_of_pos hplain
  rw [List.append_nil] at hdrop
  rw [hasPathopt, hdrop]

theorem hasPathopt_append {dir : Text} (h : '%' ∉ dir) (opt : Text) :
    hasPathopt (dir ++ '%' :: opt) = (legalPathopt opt [] 1).isSome := by
  have hdrop : (dir ++ '%' :: opt).dropWhile (· ≠ '%') = '%' :: opt := by
    rw [List.dropWhile_append_of_pos]
    · rfl
    · intro c hc
      rw [decide_eq_true_eq]
      rintro rfl
      exact h hc
  rw [hasPathopt, hdrop]
  rfl

/-- One element is taken off `PATH`; without an option all of it is the directory. -/
theorem padvance_element {element tail : Text} (he : ':' ∉ element) (ht : EndsElement tail)
    (name : Text) :
    (padvance (element ++ tail) name).path = afterColon tail ∧
      (padvance (element ++ tail) name).pathopt.isSome = hasPathopt element ∧
      (hasPathopt element = false →
        (padvance (element ++ tail) name).cmdname = inDir element name) := by
  have hpad : ∀ {start lpathopt term}, pathStart (element ++ tail) 1 = (start, lpathopt, term) →
      padvance (element ++ tail) name = advanceFrom start lpathopt term name 1 := by
    intro start lpathopt term h
    rw [padvance, padvanceMagic, h]
  by_cases hpercent : '%' ∈ element
  · -- the first `%` decides whether there is an option
    obtain ⟨dir, opt, rfl, hdir⟩ := List.eq_append_cons_of_mem hpercent
    simp only [List.mem_append, List.mem_cons, not_or] at he
    rw [hasPathopt_append hdir]
    by_cases hskip : dir = [] ∧ (legalPathopt opt [] 1).isSome
    · obtain ⟨rfl, hsome⟩ := hskip
      obtain ⟨p, hp⟩ := Option.isSome_iff_exists.1 hsome
      have hstart : pathStart ([] ++ '%' :: opt ++ tail) 1 =
          (p ++ tail, some (opt ++ tail), [':']) := by
        rw [List.nil_append, List.cons_append, pathStart]
        rw [ht.legalPathopt_append opt _ [], hp]
        rfl
      have hcolon : ∀ c ∈ p, c ∉ [':'] := by
        intro c hc h
        rw [List.mem_singleton.1 h] at hc
        exact not_mem_of_legalPathopt he.2.2 hp hc
      rw [hpad hstart, ht.advanceFrom_end hcolon (List.mem_singleton_self _), hp]
      exact ⟨rfl, rfl, fun h => Bool.noConfusion h⟩
    · have hstart : pathStart (dir ++ '%' :: opt ++ tail) 1 =
          (dir ++ '%' :: opt ++ tail, none, ['%', ':']) := by
        cases dir with
        | nil =>
          have hnone : legalPathopt opt [] 1 = none := by simpa using hskip
          rw [List.nil_append, List.cons_append, pathStart]
          rw [ht.legalPathopt_append opt _ [], hnone]
          rfl
        | cons c dir =>
          have hc : c ≠ '%' := fun h => hdir (h ▸ List.mem_cons_self)
          simp only [List.cons_append, pathStart]
          split
          · rename_i h
            exact absurd (List.cons.inj h).1 hc
          · rfl
      rw [hpad hstart, ht.advanceFrom_percent ⟨hdir, he.1⟩ he.2.2]
      cases hopt : (legalPathopt opt [] 1).isSome with
      | true => exact ⟨rfl, rfl, fun h => Bool.noConfusion h⟩
      | false => exact ⟨rfl, rfl, fun _ => rfl⟩
  · have hstart : pathStart (element ++ tail) 1 = (element ++ tail, none, ['%', ':']) := by
      unfold pathStart
      split
      · rename_i opt h
        cases element with
        | nil =>
          rcases ht with rfl | ⟨rest, rfl⟩
          · cases h
          · cases h
        | cons c element =>
          exact absurd ((List.cons.inj h).1 ▸ List.mem_cons_self) hpercent
      · rfl
    have hplain : ∀ c ∈ element, c ∉ ['%', ':'] := by
      intro c hc h
      rcases List.mem_pair.1 h with rfl | rfl
      · exact hpercent hc
      · exact he hc
    rw [hpad hstart, ht.advanceFrom_end hplain (by simp), hasPathopt_of_not_mem hpercent]
    exact ⟨rfl, rfl, fun _ => rfl⟩

/-- What one call of `padvance` makes of one element. -/
def Advance.Of (name : Text) (a : Advance) (element : Text) : Prop :=
  a.pathopt.isSome = hasPathopt element ∧
    (hasPathopt element = false → a.cmdname = inDir element name)

theorem padvances_elements {fuel : ℕ} {path : Text} (h : path.length < fuel) (name : Text) :
    List.Forall₂ (Advance.Of name) (padvances fuel path name) (path.splitOn ':') := by
  induction fuel generalizing path with
  | zero => exact absurd h (Nat.not_lt_zero _)
  | succ fuel ih =>
    rw [padvances]
    by_cases hcolon : ':' ∈ path
    · obtain ⟨element, rest, rfl, he⟩ := List.eq_append_cons_of_mem hcolon
      obtain ⟨hpath, hopt, hname⟩ := padvance_element he (.inr ⟨rest, rfl⟩) name
      have hsplit : (element ++ ':' :: rest).splitOn ':' = element :: rest.splitOn ':' := by
        have h := lines_append_cons ':' element rest
        rwa [lines_of_not_mem ':' he] at h
      have hrest : rest.length < fuel := by
        rw [List.length_append, List.length_cons] at h
        omega
      rw [hsplit, hpath]
      exact .cons ⟨hopt, hname⟩ (ih hrest)
    · have hend := padvance_element hcolon (.inl rfl) name
      rw [List.append_nil] at hend
      obtain ⟨hpath, hopt, hname⟩ := hend
      rw [show path.splitOn ':' = [path] from lines_of_not_mem ':' hcolon, hpath]
      exact .cons ⟨hopt, hname⟩ .nil

/-- The candidates that a walk from position `idx` tries. -/
def candidates : List Advance → ℤ → List Text
  | [], _ => []
  | a :: rest, idx =>
    if idx - 1 < 0 ∧ a.pathopt = none then a.cmdname :: candidates rest (idx - 1)
    else candidates rest (idx - 1)

/-- `name` under the elements of `PATH` from a position on, in their order.  An element with an
option is not a directory to look in. -/
def lookups (path : Text) (pos : ℕ) (name : Text) : List Text :=
  (((path.splitOn ':').drop pos).filter (! hasPathopt ·)).map (inDir · name)

/-- The walk tries `name` under the elements of `PATH`. -/
theorem candidates_pathWalk (path name : Text) (idx : ℤ) :
    candidates (pathWalk path name) idx = lookups path idx.toNat name := by
  have h : List.Forall₂ (Advance.Of name) (pathWalk path name) (path.splitOn ':') :=
    padvances_elements (Nat.lt_succ_self path.length) name
  unfold lookups
  generalize pathWalk path name = as at h
  generalize path.splitOn ':' = elements at h
  -- `idx` counts down over the elements, those with an option as well
  induction h generalizing idx with
  | nil => simp [candidates]
  | @cons a element as elements ha _ ih =>
    rw [candidates, ih]
    by_cases hpos : idx - 1 < 0
    · rw [Int.toNat_of_nonpos (by omega), Int.toNat_of_nonpos (by omega), List.drop_zero,
        List.drop_zero]
      cases hopt : hasPathopt element with
      | true =>
        rw [if_neg, List.filter_cons_of_neg (by simp [hopt])]
        rintro ⟨-, hnone⟩
        have h := ha.1
        rw [hnone, hopt] at h
        cases h
      | false =>
        have hnone : a.pathopt = none := by
          have h := ha.1
          rw [hopt] at h
          simpa using h
        rw [if_pos ⟨hpos, hnone⟩, List.filter_cons_of_pos (by simp [hopt]), List.map_cons,
          ha.2 hopt]
    · rw [if_neg fun h => hpos h.1, show idx.toNat = (idx - 1).toNat + 1 by omega,
        List.drop_succ_cons]

end OsMoap.Shell
