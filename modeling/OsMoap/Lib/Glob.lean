import Mathlib.Data.List.Basic

/-!
# Shell Patterns

The patterns of `fnmatch`: `*`, `?`, bracket expressions and literal characters.  A pattern is
read into a list of items once, and a text is matched against the items.

Text without metacharacters is matched by itself only (`globMatch_lit_append`), so what a pattern
with a literal stem matches is told by what comes after the stem.
-/

namespace OsMoap.Lib

/-- The metacharacters. -/
def isMagic (c : Char) : Bool := c == '*' || c == '?' || c == '['

inductive GlobItem where
  | lit (c : Char)
  | any
  | star
  | oneOf (negated : Bool) (set : List Char)
  deriving DecidableEq

/-- Membership in the text between two brackets: ranges and single characters. -/
def inSet : List Char → Char → Bool
  | a :: '-' :: b :: rest, c => (a ≤ c && c ≤ b) || inSet rest c
  | a :: rest, c => a == c || inSet rest c
  | [], _ => false

/-- What stands in the brackets when the text after `[` closes them; a `]` in the first place is
a member. -/
def bracketBody (t : List Char) : Option (Bool × List Char) :=
  let negated := t.head? == some '!'
  let body := if negated then t.tail else t
  (body.tail.idxOf? ']').map fun i => (negated, body.take (i + 1))

/-- The items of a pattern, read after so many characters that belong to the last item. -/
def globItems : ℕ → List Char → List GlobItem
  | _, [] => []
  | k + 1, _ :: t => globItems k t
  | 0, c :: t =>
    if c = '*' then .star :: globItems 0 t
    else if c = '?' then .any :: globItems 0 t
    else if c = '[' then
      match bracketBody t with
      | some (negated, set) =>
        .oneOf negated set :: globItems ((if negated then 2 else 1) + set.length) t
      -- a bracket that is not closed stands for itself
      | none => .lit c :: globItems 0 t
    else .lit c :: globItems 0 t

def globMatch : List GlobItem → List Char → Bool
  | [], s => s.isEmpty
  | .lit c :: p, d :: s => c == d && globMatch p s
  | .any :: p, _ :: s => globMatch p s
  | .oneOf negated set :: p, d :: s => (inSet set d != negated) && globMatch p s
  | .star :: p, s => s.tails.any (globMatch p)
  | _, [] => false

/-! ## Literal text -/

/-- A text without metacharacters, by evaluation. -/
theorem not_isMagic_of_all {t : List Char} (h : t.all (fun c => !isMagic c) = true) :
    ∀ c ∈ t, isMagic c = false := fun c hc => by
  rw [← Bool.not_eq_true']
  exact List.all_eq_true.mp h c hc

theorem globItems_append {t : List Char} (h : ∀ c ∈ t, isMagic c = false) (u : List Char) :
    globItems 0 (t ++ u) = t.map .lit ++ globItems 0 u := by
  induction t with
  | nil => rfl
  | cons c t ih =>
    have hc := h c List.mem_cons_self
    simp only [isMagic, Bool.or_eq_false_iff, beq_eq_false_iff_ne] at hc
    obtain ⟨⟨hstar, hany⟩, hbracket⟩ := hc
    rw [List.cons_append, globItems, if_neg hstar, if_neg hany, if_neg hbracket,
      ih fun d hd => h d (List.mem_cons_of_mem _ hd)]
    rfl

theorem globMatch_lit_append (t : List Char) (p : List GlobItem) (s : List Char) :
    globMatch (t.map .lit ++ p) s = true ↔ ∃ r, s = t ++ r ∧ globMatch p r = true := by
  induction t generalizing s with
  | nil => simp
  | cons c t ih =>
    cases s with
    | nil => simp [globMatch]
    | cons d s =>
      simp only [List.map_cons, List.cons_append, globMatch, Bool.and_eq_true, beq_iff_eq, ih,
        List.cons.injEq]
      constructor
      · rintro ⟨rfl, r, rfl, hr⟩
        exact ⟨r, ⟨rfl, rfl⟩, hr⟩
      · rintro ⟨r, ⟨rfl, rfl⟩, hr⟩
        exact ⟨rfl, r, rfl, hr⟩

/-! ## One character -/

theorem globMatch_oneOf (set : List Char) (p : List GlobItem) (s : List Char) :
    globMatch (.oneOf false set :: p) s = true ↔
      ∃ d r, s = d :: r ∧ inSet set d = true ∧ globMatch p r = true := by
  cases s with
  | nil => simp [globMatch]
  | cons d s => simp [globMatch]

end OsMoap.Lib
