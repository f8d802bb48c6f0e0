import Mathlib.Data.List.Basic
import Mathlib.Data.List.Infix
import Mathlib.Data.List.Lex

/-!
# Searching Line-Oriented Text

Substring search and line scanning as C text code does them, over an arbitrary alphabet with
a line terminator `nl`.  `findSub` is `strstr`, `lineStarts` the positions a
`strchr(p, '\n') + 1` loop visits, `tokens` what `strtok` on line ends yields.

The rules describe these searches on a text given by its lines (`unlines`): a search for
`x` and a line end finds the first line that *ends* in `x` (`findSub_unlines`), and a search
for two line ends finds the first blank line (`findSub_blank`).
-/

namespace OsMoap.Lib

variable {α : Type*}

section Unlines

variable (nl : α)

/-- The lines, each with its terminator. -/
def unlines (ls : List (List α)) : List α := ls.flatMap fun l => l ++ [nl]

@[simp]
theorem unlines_nil : unlines nl ([] : List (List α)) = [] := rfl

@[simp]
theorem unlines_cons (l : List α) (ls : List (List α)) :
    unlines nl (l :: ls) = l ++ nl :: unlines nl ls := by
  simp [unlines]

@[simp]
theorem unlines_append (as bs : List (List α)) :
    unlines nl (as ++ bs) = unlines nl as ++ unlines nl bs := by
  simp [unlines]

/-- Two line-free texts followed by terminators agree when one is a prefix of the other. -/
private theorem eq_of_prefix_lines {x y l rest : List α} (hx : nl ∉ x) (hl : nl ∉ l)
    (h : x ++ nl :: y <+: l ++ nl :: rest) : x = l ∧ y <+: rest := by
  induction x generalizing l with
  | nil =>
    cases l with
    | nil => exact ⟨rfl, (List.cons_prefix_cons.mp h).2⟩
    | cons d l =>
      have : nl = d := (List.cons_prefix_cons.mp h).1
      exact absurd (this ▸ List.mem_cons_self) hl
  | cons c x ih =>
    cases l with
    | nil =>
      have : c = nl := (List.cons_prefix_cons.mp h).1
      exact absurd (this ▸ List.mem_cons_self) hx
    | cons d l =>
      rw [List.cons_append, List.cons_append] at h
      obtain ⟨rfl, htail⟩ := List.cons_prefix_cons.mp h
      obtain ⟨rfl, hy⟩ := ih (fun hm => hx (List.mem_cons_of_mem _ hm))
        (fun hm => hl (List.mem_cons_of_mem _ hm)) htail
      exact ⟨rfl, hy⟩

end Unlines

variable [DecidableEq α]

/-! ## Substring search -/

/-- `strstr`: the text before the first occurrence, and the text from it on. -/
def findSub (needle : List α) : List α → Option (List α × List α)
  | [] => if needle = [] then some ([], []) else none
  | c :: cs =>
    if needle.isPrefixOf (c :: cs) then some ([], c :: cs)
    else (findSub needle cs).map fun hit => (c :: hit.1, hit.2)

theorem findSub_eq_some {needle text before hit : List α}
    (h : findSub needle text = some (before, hit)) : text = before ++ hit ∧ needle <+: hit := by
  induction text generalizing before with
  | nil =>
    rw [findSub] at h
    split_ifs at h with hn
    obtain ⟨rfl, rfl⟩ := Prod.mk.inj (Option.some.inj h)
    exact ⟨rfl, by rw [hn]⟩
  | cons c cs ih =>
    rw [findSub] at h
    split_ifs at h with hn
    · obtain ⟨rfl, rfl⟩ := Prod.mk.inj (Option.some.inj h)
      exact ⟨rfl, List.isPrefixOf_iff_prefix.mp hn⟩
    · obtain ⟨⟨b, r⟩, hrec, heq⟩ := Option.map_eq_some_iff.mp h
      obtain ⟨rfl, rfl⟩ := Prod.mk.inj heq
      obtain ⟨rfl, hpre⟩ := ih hrec
      exact ⟨rfl, hpre⟩

theorem findSub_eq_none_iff {needle text : List α} :
    findSub needle text = none ↔ ¬ needle <:+: text := by
  induction text with
  | nil => simp [findSub]
  | cons c cs ih =>
    rw [findSub]
    split_ifs with hn
    · have : needle <:+: c :: cs := (List.isPrefixOf_iff_prefix.mp hn).isInfix
      simp [this]
    · rw [Option.map_eq_none_iff, ih, List.infix_cons_iff]
      have : ¬ needle <+: c :: cs := fun h => hn (List.isPrefixOf_iff_prefix.mpr h)
      simp [this]

/-- A text with no occurrence starting in its first part is searched from the rest. -/
theorem findSub_append {needle pre text : List α}
    (h : ∀ u v, pre = u ++ v → v ≠ [] → ¬ needle <+: v ++ text) :
    findSub needle (pre ++ text)
      = (findSub needle text).map fun hit => (pre ++ hit.1, hit.2) := by
  induction pre with
  | nil =>
    rw [List.nil_append]
    cases findSub needle text <;> rfl
  | cons c pre ih =>
    have hhead : ¬ needle.isPrefixOf (c :: (pre ++ text)) = true := fun hp =>
      h [] (c :: pre) rfl (by simp) (List.isPrefixOf_iff_prefix.mp hp)
    rw [List.cons_append, findSub, if_neg hhead,
      ih fun u v huv hv => h (c :: u) v (by rw [huv]; rfl) hv]
    cases findSub needle text <;> rfl

theorem findSub_of_prefix {needle text : List α} (h : needle <+: text) :
    findSub needle text = some ([], text) := by
  cases text with
  | nil =>
    obtain rfl := List.prefix_nil.mp h
    rfl
  | cons c cs => rw [findSub, if_pos (List.isPrefixOf_iff_prefix.mpr h)]

/-! ## Texts given by their lines -/

variable (nl : α)

/-- The lines of any text; the last one has no terminator. -/
def lines (text : List α) : List (List α) := text.splitOn nl

theorem lines_append_cons (as bs : List α) :
    lines nl (as ++ nl :: bs) = lines nl as ++ lines nl bs := by
  unfold lines
  rw [List.splitOn_eq_splitOnP, List.splitOn_eq_splitOnP, List.splitOn_eq_splitOnP]
  exact List.splitOnP_append_cons as bs (by simp)

theorem lines_ne_nil (text : List α) : lines nl text ≠ [] := by
  rw [lines, List.splitOn_eq_splitOnP]
  exact List.splitOnP_ne_nil _ _

theorem lines_of_not_mem {l : List α} (h : nl ∉ l) : lines nl l = [l] := by
  rw [lines, List.splitOn_eq_splitOnP]
  exact List.splitOnP_eq_singleton fun x hx => by
    simp only [beq_eq_false_iff_ne]
    rintro rfl
    exact h hx

theorem lines_nl_cons (text : List α) : lines nl (nl :: text) = [] :: lines nl text := by
  have h := lines_append_cons nl [] text
  rwa [lines_of_not_mem nl (List.not_mem_nil (a := nl))] at h

theorem lines_cons_of_ne {c : α} (hc : c ≠ nl) (text : List α) :
    lines nl (c :: text) = (lines nl text).modifyHead (c :: ·) := by
  rw [lines, lines, List.splitOn_eq_splitOnP, List.splitOn_eq_splitOnP,
    List.splitOnP_cons_eq_if_modifyHead, if_neg (by simpa using hc)]

/-- Where two texts meet, the last line of one joins the first line of the other. -/
theorem lines_append {as bs w v : List α} {init rest : List (List α)}
    (has : lines nl as = init ++ [w]) (hbs : lines nl bs = v :: rest) :
    lines nl (as ++ bs) = init ++ (w ++ v) :: rest := by
  induction as generalizing init w with
  | nil =>
    rw [lines_of_not_mem nl (by simp)] at has
    cases init with
    | nil =>
      obtain rfl : [] = w := by simpa using has
      simpa using hbs
    | cons x xs => simp at has
  | cons c as ih =>
    -- the last line of `as` is touched by the end of `as` only
    by_cases hc : c = nl
    · subst hc
      rw [lines_nl_cons] at has
      cases init with
      | nil => simp [lines_ne_nil] at has
      | cons x xs =>
        obtain ⟨rfl, has'⟩ := List.cons.inj has
        rw [List.cons_append, lines_nl_cons, ih has']
        rfl
    · obtain ⟨first, others, hfirst⟩ := List.exists_cons_of_ne_nil (lines_ne_nil nl as)
      rw [lines_cons_of_ne nl hc, hfirst, List.modifyHead_cons] at has
      rw [List.cons_append, lines_cons_of_ne nl hc]
      cases init with
      | nil =>
        obtain ⟨rfl, rfl⟩ : c :: first = w ∧ others = [] := by simpa using has
        rw [ih (hfirst.trans (List.nil_append _).symm)]
        rfl
      | cons x xs =>
        obtain ⟨rfl, rfl⟩ := List.cons.inj has
        rw [ih (hfirst.trans (List.cons_append ..).symm)]
        rfl

/-- The lines are made of the text. -/
theorem sublist_of_mem_lines {text l : List α} (h : l ∈ lines nl text) : l.Sublist text := by
  induction text generalizing l with
  | nil =>
    rw [lines_of_not_mem nl (by simp), List.mem_singleton] at h
    simp [h]
  | cons c text ih =>
    by_cases hc : c = nl
    · subst hc
      rw [lines_nl_cons] at h
      rcases List.mem_cons.mp h with rfl | h
      · exact List.nil_sublist _
      · exact (ih h).cons c
    · obtain ⟨first, others, hfirst⟩ := List.exists_cons_of_ne_nil (lines_ne_nil nl text)
      rw [lines_cons_of_ne nl hc, hfirst, List.modifyHead_cons] at h
      rcases List.mem_cons.mp h with rfl | h
      · exact (ih (hfirst ▸ List.mem_cons_self)).cons_cons c
      · exact (ih (hfirst ▸ List.mem_cons_of_mem _ h)).cons c

theorem subset_of_mem_lines {text l : List α} (h : l ∈ lines nl text) : l ⊆ text :=
  (sublist_of_mem_lines nl h).subset

/-- Records of a bounded length give lines of a bounded length, whatever they hold. -/
theorem length_le_of_mem_lines_unlines {ls : List (List α)} {n : ℕ} (h : ∀ l ∈ ls, l.length ≤ n)
    {l : List α} (hl : l ∈ lines nl (unlines nl ls)) : l.length ≤ n := by
  induction ls with
  | nil =>
    rw [unlines_nil, lines_of_not_mem nl (by simp), List.mem_singleton] at hl
    simp [hl]
  | cons x ls ih =>
    rw [unlines_cons, lines_append_cons, List.mem_append] at hl
    rcases hl with hl | hl
    · exact (sublist_of_mem_lines nl hl).length_le.trans (h x List.mem_cons_self)
    · exact ih (fun l' hl' => h l' (List.mem_cons_of_mem _ hl')) hl

theorem lines_unlines_append {ls : List (List α)} (h : ∀ l ∈ ls, nl ∉ l) (text : List α) :
    lines nl (unlines nl ls ++ text) = ls ++ lines nl text := by
  induction ls with
  | nil => rfl
  | cons l ls ih =>
    rw [unlines_cons, List.append_assoc, List.cons_append, lines_append_cons,
      lines_of_not_mem nl (h l List.mem_cons_self),
      ih fun l' hl' => h l' (List.mem_cons_of_mem _ hl')]
    rfl

theorem lines_unlines {ls : List (List α)} (h : ∀ l ∈ ls, nl ∉ l) :
    lines nl (unlines nl ls) = ls ++ [[]] := by
  have := lines_unlines_append nl h []
  rw [List.append_nil] at this
  rw [this, lines_of_not_mem nl (by simp)]

/-- No line holds the terminator. -/
theorem not_mem_of_mem_lines {text l : List α} (h : l ∈ lines nl text) : nl ∉ l := by
  induction text generalizing l with
  | nil =>
    rw [lines_of_not_mem nl (by simp), List.mem_singleton] at h
    simp [h]
  | cons c text ih =>
    by_cases hc : c = nl
    · subst hc
      rw [lines_nl_cons] at h
      rcases List.mem_cons.mp h with rfl | h
      · simp
      · exact ih h
    · obtain ⟨first, others, hfirst⟩ := List.exists_cons_of_ne_nil (lines_ne_nil nl text)
      rw [lines_cons_of_ne nl hc, hfirst, List.modifyHead_cons] at h
      rcases List.mem_cons.mp h with rfl | h
      · simp only [List.mem_cons, not_or]
        exact ⟨fun heq => hc heq.symm, ih (hfirst ▸ List.mem_cons_self)⟩
      · exact ih (hfirst ▸ List.mem_cons_of_mem _ h)

/-- Searching for `x`, a line end and `y` passes over a line unless it ends in `x` and `y` comes
next. -/
theorem findSub_lines_skip {x y l text : List α} (hx : nl ∉ x) (hl : nl ∉ l)
    (h : ¬ (x <:+ l ∧ y <+: text)) :
    findSub (x ++ nl :: y) (l ++ nl :: text)
      = (findSub (x ++ nl :: y) text).map fun hit => (l ++ nl :: hit.1, hit.2) := by
  have hskip : findSub (x ++ nl :: y) ((l ++ [nl]) ++ text)
      = (findSub (x ++ nl :: y) text).map fun hit => ((l ++ [nl]) ++ hit.1, hit.2) := by
    refine findSub_append fun u v huv hv hp => ?_
    rcases List.eq_nil_or_concat v with rfl | ⟨v', d, rfl⟩
    · exact hv rfl
    · rw [List.concat_eq_append, ← List.append_assoc] at huv
      obtain ⟨hl', hd⟩ := List.append_inj' huv rfl
      obtain rfl : nl = d := by simpa using hd
      rw [List.concat_eq_append, List.append_assoc] at hp
      have hv' : nl ∉ v' := fun hm => hl (hl' ▸ List.mem_append_right u hm)
      obtain ⟨rfl, hy⟩ := eq_of_prefix_lines nl hx hv' hp
      exact h ⟨⟨u, hl'.symm⟩, hy⟩
  rw [List.append_assoc, List.singleton_append] at hskip
  rw [hskip]
  cases findSub (x ++ nl :: y) text <;> simp

/-- Searching for `x` and a line end passes over a line that does not end in `x`. -/
theorem findSub_line_skip {x l : List α} (hx : nl ∉ x) (hl : nl ∉ l) (h : ¬ x <:+ l)
    (text : List α) :
    findSub (x ++ [nl]) (l ++ nl :: text)
      = (findSub (x ++ [nl]) text).map fun hit => (l ++ nl :: hit.1, hit.2) :=
  findSub_lines_skip nl hx hl fun hend => h hend.1

/-- Searching for `x` and a line end stops at the end of a line that ends in `x`. -/
theorem findSub_line_hit {x w : List α} (hx : nl ∉ x) (hw : nl ∉ w) (text : List α) :
    findSub (x ++ [nl]) (w ++ (x ++ nl :: text)) = some (w, x ++ nl :: text) := by
  have hskip : findSub (x ++ [nl]) (w ++ (x ++ nl :: text))
      = (findSub (x ++ [nl]) (x ++ nl :: text)).map fun hit => (w ++ hit.1, hit.2) := by
    refine findSub_append fun u v huv hv hp => ?_
    have hvx : nl ∉ v ++ x := by
      intro hm
      rcases List.mem_append.mp hm with hm | hm
      · exact hw (huv ▸ List.mem_append_right u hm)
      · exact hx hm
    rw [← List.append_assoc] at hp
    have := congrArg List.length (eq_of_prefix_lines nl hx hvx hp).1
    rw [List.length_append] at this
    exact hv (List.length_eq_zero_iff.mp (by omega))
  have hprefix : x ++ [nl] <+: x ++ nl :: text := ⟨text, by simp⟩
  rw [hskip, findSub_of_prefix hprefix]
  simp

/-- A search for a whole line end never reaches into a last line without one. -/
theorem findSub_append_open (x : List α) {last : List α} (hlast : nl ∉ last) (text : List α) :
    findSub (x ++ [nl]) (text ++ last)
      = (findSub (x ++ [nl]) text).map fun hit => (hit.1, hit.2 ++ last) := by
  induction text with
  | nil =>
    have hnone : findSub (x ++ [nl]) last = none := by
      rw [findSub_eq_none_iff]
      exact fun h => hlast (h.subset (by simp))
    rw [List.nil_append, hnone]
    simp [findSub]
  | cons c text ih =>
    have hpre : (x ++ [nl]).isPrefixOf (c :: text ++ last)
        = (x ++ [nl]).isPrefixOf (c :: text) := by
      rw [Bool.eq_iff_iff, List.isPrefixOf_iff_prefix, List.isPrefixOf_iff_prefix]
      refine ⟨fun h => ?_, fun h => h.trans (List.prefix_append _ _)⟩
      obtain ⟨tail, htail⟩ := h
      rcases List.append_eq_append_iff.mp htail with ⟨w, hw, -⟩ | ⟨w, hw, hlast'⟩
      · exact ⟨w, hw.symm⟩
      · -- the line end would be one of the last line
        rcases List.eq_nil_or_concat w with rfl | ⟨w', d, rfl⟩
        · exact ⟨[], by rw [List.append_nil, hw, List.append_nil]⟩
        · rw [List.concat_eq_append, ← List.append_assoc] at hw
          obtain ⟨-, hd⟩ := List.append_inj' hw rfl
          obtain rfl : nl = d := by simpa using hd
          exact absurd (by rw [hlast']; simp) hlast
    rw [List.cons_append] at hpre ⊢
    rw [findSub, findSub, hpre, ih]
    split_ifs with hhit
    · rfl
    · cases findSub (x ++ [nl]) text <;> rfl

/-- **Searching lines**: the first line that ends in `x` is where the search stops. -/
theorem findSub_unlines {x : List α} (hx : nl ∉ x) {ls : List (List α)} (hls : ∀ l ∈ ls, nl ∉ l) :
    (findSub (x ++ [nl]) (unlines nl ls) = none ∧ ∀ l ∈ ls, ¬ x <:+ l) ∨
    ∃ pre w post, ls = pre ++ (w ++ x) :: post ∧ (∀ l ∈ pre, ¬ x <:+ l) ∧
      findSub (x ++ [nl]) (unlines nl ls)
        = some (unlines nl pre ++ w, x ++ nl :: unlines nl post) := by
  induction ls with
  | nil =>
    left
    constructor
    · simp [findSub]
    · simp
  | cons l ls ih =>
    have hl := hls l List.mem_cons_self
    rw [unlines_cons]
    -- a hit ends with the line, since `x` has no line end
    by_cases hend : x <:+ l
    · right
      obtain ⟨w, rfl⟩ := hend
      have hw : nl ∉ w := fun hm => hl (List.mem_append_left x hm)
      refine ⟨[], w, ls, rfl, by simp, ?_⟩
      rw [List.append_assoc, findSub_line_hit nl hx hw]
      rfl
    · rw [findSub_line_skip nl hx hl hend]
      rcases ih fun l' hl' => hls l' (List.mem_cons_of_mem _ hl') with
        ⟨hnone, hno⟩ | ⟨pre, w, post, rfl, hpre, hsome⟩
      · left
        rw [hnone]
        refine ⟨rfl, fun l' hl' => ?_⟩
        rcases List.mem_cons.mp hl' with rfl | hl'
        · exact hend
        · exact hno l' hl'
      · right
        refine ⟨l :: pre, w, post, rfl, fun l' hl' => ?_, ?_⟩
        · rcases List.mem_cons.mp hl' with rfl | hl'
          · exact hend
          · exact hpre l' hl'
        · rw [hsome]
          simp

/-- Searching for two line ends finds the first blank line: here the one after a block of
non-empty lines. -/
theorem findSub_blank {l : List α} {ls : List (List α)} (hl : l ≠ [] ∧ nl ∉ l)
    (hls : ∀ l' ∈ ls, l' ≠ [] ∧ nl ∉ l') (text : List α) :
    ∃ body, unlines nl (l :: ls) = body ++ [nl] ∧
      findSub [nl, nl] (unlines nl (l :: ls) ++ nl :: text) = some (body, nl :: nl :: text) := by
  -- no hit starts inside a line, nor at the end of a line that another follows
  have hline : ∀ (m rest : List α), nl ∉ m → (∀ d ∈ rest.head?, d ≠ nl) →
      findSub [nl, nl] (m ++ nl :: rest)
        = (findSub [nl, nl] rest).map fun hit => (m ++ nl :: hit.1, hit.2) := by
    intro m rest hm hrest
    have hskip : findSub [nl, nl] ((m ++ [nl]) ++ rest)
        = (findSub [nl, nl] rest).map fun hit => ((m ++ [nl]) ++ hit.1, hit.2) := by
      refine findSub_append fun u v huv hv hp => ?_
      cases v with
      | nil => exact hv rfl
      | cons c v =>
        obtain ⟨rfl, htail⟩ := List.cons_prefix_cons.mp hp
        cases v with
        | nil =>
          cases rest with
          | nil => simp at htail
          | cons d rest => exact hrest d rfl (List.cons_prefix_cons.mp htail).1.symm
        | cons d v =>
          -- the first of the two line ends would lie inside the line
          have hmem : nl ∈ m := by
            have hlen := congrArg List.length huv
            simp only [List.length_append, List.length_cons, List.length_nil] at hlen
            have : u ++ [nl] <+: m := by
              refine List.prefix_of_prefix_length_le ⟨d :: v, by rw [huv]; simp⟩
                (List.prefix_append m [nl]) ?_
              simp only [List.length_append, List.length_cons, List.length_nil]
              omega
            exact this.subset (by simp)
          exact hm hmem
    rw [List.append_assoc, List.singleton_append] at hskip
    rw [hskip]
    cases findSub [nl, nl] rest <;> simp
  induction ls generalizing l with
  | nil =>
    refine ⟨l, by simp, ?_⟩
    have hskip : findSub [nl, nl] (l ++ nl :: nl :: text)
        = (findSub [nl, nl] (nl :: nl :: text)).map fun hit => (l ++ hit.1, hit.2) := by
      refine findSub_append fun u v huv hv hp => ?_
      cases v with
      | nil => exact hv rfl
      | cons c v =>
        obtain ⟨rfl, -⟩ := List.cons_prefix_cons.mp hp
        exact hl.2 (huv ▸ List.mem_append_right u List.mem_cons_self)
    have hhit : findSub [nl, nl] (nl :: nl :: text) = some ([], nl :: nl :: text) :=
      findSub_of_prefix ⟨text, rfl⟩
    rw [unlines_cons, unlines_nil, List.append_assoc, List.singleton_append, hskip, hhit]
    simp
  | cons m ls ih =>
    have hm := hls m List.mem_cons_self
    obtain ⟨body, hbody, hfind⟩ := ih hm fun l' hl' => hls l' (List.mem_cons_of_mem _ hl')
    refine ⟨l ++ nl :: body, by rw [unlines_cons, hbody]; simp, ?_⟩
    have hhead : ∀ d ∈ (unlines nl (m :: ls) ++ nl :: text).head?, d ≠ nl := by
      obtain ⟨c, m', rfl⟩ := List.exists_cons_of_ne_nil hm.1
      intro d hd hnl
      simp only [unlines_cons, List.cons_append, List.head?_cons, Option.mem_some_iff] at hd
      exact hm.2 (by rw [← hnl, ← hd]; exact List.mem_cons_self)
    rw [unlines_cons, List.append_assoc, List.cons_append, hline l _ hl.2 hhead, hfind]
    rfl

/-! ## Visiting the lines -/

/-- The text after each line end. -/
def afterLineEnds : List α → List (List α)
  | [] => []
  | c :: cs => if c = nl then cs :: afterLineEnds cs else afterLineEnds cs

/-- The positions of a loop that starts at the text and moves past each line end, for as long
as there is text. -/
def lineStarts (text : List α) : List (List α) :=
  (text :: afterLineEnds nl text).filter fun p => p ≠ []

/-- What `strtok` yields: the non-empty lines. -/
def tokens (text : List α) : List (List α) := (lines nl text).filter fun l => l ≠ []

theorem afterLineEnds_line {l : List α} (hl : nl ∉ l) (text : List α) :
    afterLineEnds nl (l ++ nl :: text) = text :: afterLineEnds nl text := by
  induction l with
  | nil => simp [afterLineEnds]
  | cons c l ih =>
    have hc : c ≠ nl := fun h => hl (h ▸ List.mem_cons_self)
    rw [List.cons_append, afterLineEnds, if_neg hc,
      ih fun hm => hl (List.mem_cons_of_mem _ hm)]

theorem suffix_of_mem_afterLineEnds {text p : List α} (h : p ∈ afterLineEnds nl text) :
    p <:+ text := by
  induction text with
  | nil => simp [afterLineEnds] at h
  | cons c cs ih =>
    rw [afterLineEnds] at h
    split_ifs at h with hc
    · rcases List.mem_cons.mp h with rfl | h
      · exact List.suffix_cons _ _
      · exact (ih h).trans (List.suffix_cons _ _)
    · exact (ih h).trans (List.suffix_cons _ _)

theorem suffix_of_mem_lineStarts {text p : List α} (h : p ∈ lineStarts nl text) : p <:+ text := by
  rcases List.mem_cons.mp (List.mem_filter.mp h).1 with rfl | hmem
  · exact List.suffix_rfl
  · exact suffix_of_mem_afterLineEnds nl hmem

theorem lineStarts_line {l : List α} (hl : nl ∉ l) (text : List α) :
    lineStarts nl (l ++ nl :: text) = (l ++ nl :: text) :: lineStarts nl text := by
  rw [lineStarts, afterLineEnds_line nl hl, List.filter_cons_of_pos (by simp)]
  rfl

theorem tokens_unlines {ls : List (List α)} (h : ∀ l ∈ ls, nl ∉ l ∧ l ≠ []) :
    tokens nl (unlines nl ls) = ls := by
  rw [tokens, lines_unlines nl fun l hl => (h l hl).1, List.filter_append,
    List.filter_eq_self.mpr fun l hl => by simpa using (h l hl).2]
  simp

end OsMoap.Lib
