import OsMoap.Pack.Published
import Mathlib.Data.List.TakeWhile

/-!
# Descriptions in `.PKGINFO`

`stage_entries` writes the description of a package as one line, whatever it holds, and
`pkginfo_from_blob` splits the text at every line boundary that Python knows.  A description comes
back up to its white space exactly when nothing but white space is behind its first line boundary
(`OneLine`), and then the dependencies behind it come back too.
-/

namespace OsMoap.Pack

/-! ## Words -/

/-- Words split at white space. -/
theorem splitWords_append_cons {c : Char} (hc : isSpaceChar c = true) (x y : Text) :
    splitWords (x ++ c :: y) = splitWords x ++ splitWords y := by
  rw [splitWords, List.splitOnP_append_cons x y hc, List.filter_append]
  rfl

theorem splitWords_nil : splitWords [] = [] := by
  simp [splitWords, List.splitOnP_nil]

theorem splitWords_cons {c : Char} (hc : isSpaceChar c = true) (t : Text) :
    splitWords (c :: t) = splitWords t := by
  have h := splitWords_append_cons hc [] t
  rwa [splitWords_nil] at h

theorem splitWords_append_blank {w : Text} (hw : ∀ c ∈ w, isSpaceChar c = true) (t : Text) :
    splitWords (w ++ t) = splitWords t := by
  induction w with
  | nil => rfl
  | cons c w ih =>
    rw [List.cons_append, splitWords_cons (hw c List.mem_cons_self),
      ih fun d hd => hw d (List.mem_cons_of_mem _ hd)]

theorem splitWords_blank_append {w : Text} (hw : ∀ c ∈ w, isSpaceChar c = true) (t : Text) :
    splitWords (t ++ w) = splitWords t := by
  cases w with
  | nil => rw [List.append_nil]
  | cons c w =>
    have hrest := splitWords_append_blank (fun d hd => hw d (List.mem_cons_of_mem _ hd)) []
    rw [List.append_nil, splitWords_nil] at hrest
    rw [splitWords_append_cons (hw c List.mem_cons_self), hrest, List.append_nil]

/-- A text without white space is one word. -/
theorem splitWords_of_word {w : Text} (hne : w ≠ []) (hw : ∀ c ∈ w, isSpaceChar c = false) :
    splitWords w = [w] := by
  rw [splitWords, List.splitOnP_eq_singleton hw]
  simp [hne]

theorem flatten_splitOnP (p : Char → Bool) (t : Text) :
    (t.splitOnP p).flatten = t.filter fun c => !p c := by
  induction t with
  | nil => simp [List.splitOnP_nil]
  | cons c t ih =>
    rw [List.splitOnP_cons_eq_if_modifyHead]
    cases hc : p c with
    | true => simpa [hc] using ih
    | false =>
      obtain ⟨w, ws, hws⟩ := List.exists_cons_of_ne_nil (List.splitOnP_ne_nil p t)
      rw [hws, List.flatten_cons] at ih
      simp [hws, hc, ← ih]

/-- The words hold everything but the white space. -/
theorem flatten_splitWords (t : Text) :
    (splitWords t).flatten = t.filter fun c => !isSpaceChar c := by
  rw [← flatten_splitOnP, splitWords]
  generalize t.splitOnP isSpaceChar = ws
  induction ws with
  | nil => rfl
  | cons w ws ih =>
    cases w with
    | nil => simpa using ih
    | cons c w => simpa using ih

/-- Only white space has no words. -/
theorem splitWords_eq_nil_iff {t : Text} :
    splitWords t = [] ↔ ∀ c ∈ t, isSpaceChar c = true := by
  constructor
  · intro h c hc
    have hflat := flatten_splitWords t
    rw [h, List.flatten_nil, eq_comm, List.filter_eq_nil_iff] at hflat
    simpa using hflat c hc
  · intro h
    have hblank := splitWords_append_blank h []
    rwa [List.append_nil, splitWords_nil] at hblank

/-- A word is not empty and has no white space in it. -/
theorem mem_splitWords {t w : Text} (h : w ∈ splitWords t) :
    w ≠ [] ∧ ∀ c ∈ w, isSpaceChar c = false := by
  rw [splitWords, List.mem_filter] at h
  refine ⟨by simpa using h.2, fun c hc => ?_⟩
  have hmem : c ∈ (t.splitOnP isSpaceChar).flatten := List.mem_flatten_of_mem h.1 hc
  rw [flatten_splitOnP, List.mem_filter] at hmem
  simpa using hmem.2

theorem splitWords_intercalate {ws : List Text}
    (h : ∀ w ∈ ws, w ≠ [] ∧ ∀ c ∈ w, isSpaceChar c = false) :
    splitWords ([' '].intercalate ws) = ws := by
  induction ws with
  | nil => exact splitWords_nil
  | cons w ws ih =>
    obtain ⟨hne, hw⟩ := h w List.mem_cons_self
    cases ws with
    | nil => simpa [List.intercalate] using splitWords_of_word hne hw
    | cons w' ws =>
      have hcons : [' '].intercalate (w :: w' :: ws) = w ++ ' ' :: [' '].intercalate (w' :: ws) := by
        simp [List.intercalate, List.intersperse]
      rw [hcons, splitWords_append_cons (by decide), splitWords_of_word hne hw,
        ih fun v hv => h v (List.mem_cons_of_mem _ hv)]
      rfl

/-- White space may be replaced by white space. -/
theorem splitWords_map {f : Char → Char} (hspace : ∀ c, isSpaceChar (f c) = isSpaceChar c)
    (hword : ∀ c, isSpaceChar c = false → f c = c) (t : Text) :
    splitWords (t.map f) = splitWords t := by
  have hsplit : (t.map f).splitOnP isSpaceChar = t.splitOnP isSpaceChar := by
    induction t with
    | nil => rfl
    | cons c t ih =>
      rw [List.map_cons, List.splitOnP_cons_eq_if_modifyHead, List.splitOnP_cons_eq_if_modifyHead,
        hspace, ih]
      cases hc : isSpaceChar c with
      | true => rfl
      | false => rw [hword c hc]
  rw [splitWords, hsplit, splitWords]

/-- Two descriptions are indexed alike exactly when they have the same words. -/
theorem sanitize_eq_iff (t u : Text) : sanitize t = sanitize u ↔ splitWords t = splitWords u := by
  have hsanitize : ∀ t : Text, sanitize t = [' '].intercalate (splitWords t) := by
    intro t
    rw [sanitize, splitWords_map]
    · intro c
      split_ifs with hcr hnl
      · rw [hcr]
        decide
      · rw [hnl]
        decide
      · rfl
    · intro c hc
      rw [if_neg, if_neg]
      · rintro rfl
        exact absurd hc (by decide)
      · rintro rfl
        exact absurd hc (by decide)
  rw [hsanitize, hsanitize]
  constructor
  · intro h
    rw [← splitWords_intercalate fun w hw => mem_splitWords (t := t) hw, h,
      splitWords_intercalate fun w hw => mem_splitWords hw]
  · exact fun h => congrArg _ h

/-! ## Stripping -/

theorem splitWords_strip (t : Text) : splitWords (strip t) = splitWords t := by
  have htake : ∀ u : Text, ∀ c ∈ u.takeWhile isSpaceChar, isSpaceChar c = true := fun u c hc =>
    List.mem_takeWhile_imp hc
  have hfront : splitWords (t.dropWhile isSpaceChar) = splitWords t := by
    conv_rhs => rw [← List.takeWhile_append_dropWhile (p := isSpaceChar) (l := t)]
    exact (splitWords_append_blank (htake t) _).symm
  rw [← hfront, strip]
  generalize t.dropWhile isSpaceChar = u
  have hback : u = (u.reverse.dropWhile isSpaceChar).reverse ++
      (u.reverse.takeWhile isSpaceChar).reverse := by
    rw [← List.reverse_append, List.takeWhile_append_dropWhile, List.reverse_reverse]
  conv_rhs => rw [hback]
  exact (splitWords_blank_append (fun c hc => htake u.reverse c (List.mem_reverse.mp hc)) _).symm

/-- White space behind a text is stripped. -/
theorem strip_append_blank {w : Text} (hw : ∀ c ∈ w, isSpaceChar c = true) (t : Text) :
    strip (t ++ w) = strip t := by
  have hback : ∀ u : Text, ((u ++ w).reverse.dropWhile isSpaceChar) =
      u.reverse.dropWhile isSpaceChar := by
    intro u
    rw [List.reverse_append, List.dropWhile_append_of_pos fun c hc => hw c (List.mem_reverse.mp hc)]
  rw [strip, strip]
  by_cases hblank : ∀ c ∈ t, isSpaceChar c = true
  · have hboth : ∀ c ∈ t ++ w, isSpaceChar c = true := by
      intro c hc
      rcases List.mem_append.mp hc with hc | hc
      · exact hblank c hc
      · exact hw c hc
    rw [List.dropWhile_eq_nil_iff.mpr hboth, List.dropWhile_eq_nil_iff.mpr hblank]
  · have hne : t.dropWhile isSpaceChar ≠ [] := fun h => hblank (List.dropWhile_eq_nil_iff.mp h)
    rw [List.dropWhile_append, if_neg (by simpa using hne), hback]

theorem mem_strip_iff {t : Text} {c : Char} (hc : isSpaceChar c = false) :
    c ∈ strip t ↔ c ∈ t := by
  have hfilter : (strip t).filter (fun c => !isSpaceChar c) = t.filter fun c => !isSpaceChar c := by
    rw [← flatten_splitWords, splitWords_strip, flatten_splitWords]
  have hmem : ∀ u : Text, c ∈ u ↔ c ∈ u.filter fun c => !isSpaceChar c := by
    intro u
    rw [List.mem_filter, and_iff_left (by rw [hc]; rfl)]
  rw [hmem, hfilter, ← hmem]

theorem isSpaceChar_of_isLineBreak {c : Char} (h : isLineBreak c = true) : isSpaceChar c = true := by
  simp only [isLineBreak, List.mem_cons, List.not_mem_nil, or_false, decide_eq_true_eq] at h
  rw [isSpaceChar]
  rcases h with h | h | h | h | h | h | h | h | h | h <;> simp [h]

/-- A text without white space is stripped and one line. -/
theorem clean_of_word {t : Text} (h : ∀ c ∈ t, isSpaceChar c = false) : Clean t := by
  have hkeep : ∀ u : Text, (∀ c ∈ u, isSpaceChar c = false) → u.dropWhile isSpaceChar = u := by
    intro u hu
    cases u with
    | nil => rfl
    | cons c u => exact List.dropWhile_cons_of_neg (by rw [hu c List.mem_cons_self]; decide)
  constructor
  · rw [strip, hkeep t h, hkeep t.reverse fun c hc => h c (List.mem_reverse.mp hc),
      List.reverse_reverse]
  · intro c hc
    cases hbreak : isLineBreak c with
    | false => rfl
    | true => exact absurd (isSpaceChar_of_isLineBreak hbreak) (by rw [h c hc]; decide)

/-! ## Behind the first line -/

/-- What is behind the first line, with the boundary. -/
def behindFirstLine (t : Text) : Text := t.dropWhile fun c => !isLineBreak c

theorem firstLine_append_behind (t : Text) : firstLine t ++ behindFirstLine t = t :=
  List.takeWhile_append_dropWhile

/-- One line, with nothing but white space behind it. -/
def OneLine (t : Text) : Prop := ∀ c ∈ behindFirstLine t, isSpaceChar c = true

/-- The words of a description are those of its first line exactly when it is one line. -/
theorem splitWords_firstLine_iff (t : Text) :
    splitWords (firstLine t) = splitWords t ↔ OneLine t := by
  have hsplit : splitWords t = splitWords (firstLine t) ++ splitWords (behindFirstLine t) := by
    conv_lhs => rw [← firstLine_append_behind t]
    cases hbehind : behindFirstLine t with
    | nil => rw [List.append_nil, splitWords_nil, List.append_nil]
    | cons c rest =>
      have hbreak : isLineBreak c = true := by
        have hhead := List.head?_dropWhile_not (fun c => !isLineBreak c) t
        rw [show t.dropWhile (fun c => !isLineBreak c) = c :: rest from hbehind] at hhead
        simpa using hhead
      have hspace := isSpaceChar_of_isLineBreak hbreak
      rw [splitWords_append_cons hspace, splitWords_cons hspace]
  rw [hsplit, List.self_eq_append_right]
  exact splitWords_eq_nil_iff

/-! ## Lines -/

theorem splitlines_cons_break {c : Char} {t : Text} (hbreak : isLineBreak c = true)
    (hcr : c = '\r' → t.head? ≠ some '\n') : splitlines (c :: t) = [] :: splitlines t := by
  rw [splitlines, if_pos hbreak]
  rintro rest rfl rfl
  exact hcr rfl rfl

theorem splitlines_cons_char {c : Char} {t l : Text} {ls : List Text} (hc : isLineBreak c = false)
    (ht : splitlines t = l :: ls) : splitlines (c :: t) = (c :: l) :: ls := by
  rw [splitlines, if_neg (by rw [hc]; decide), ht]
  rintro rest rfl
  exact absurd hc (by decide)

/-- White space before a newline is split into lines of white space. -/
theorem splitlines_blank (w rest : Text) (hw : ∀ c ∈ w, isSpaceChar c = true) :
    ∃ blanks, splitlines (w ++ '\n' :: rest) = blanks ++ splitlines rest ∧ blanks ≠ [] ∧
      ∀ l ∈ blanks, ∀ c ∈ l, isSpaceChar c = true := by
  have hchar : ∀ (c : Char) (w : Text), isLineBreak c = false → isSpaceChar c = true →
      (∃ blanks, splitlines (w ++ '\n' :: rest) = blanks ++ splitlines rest ∧ blanks ≠ [] ∧
        ∀ l ∈ blanks, ∀ c ∈ l, isSpaceChar c = true) →
      ∃ blanks, splitlines (c :: w ++ '\n' :: rest) = blanks ++ splitlines rest ∧ blanks ≠ [] ∧
        ∀ l ∈ blanks, ∀ c ∈ l, isSpaceChar c = true := by
    rintro c w hbreak hspace ⟨blanks, hsplit, hne, hblanks⟩
    obtain ⟨l, ls, rfl⟩ := List.exists_cons_of_ne_nil hne
    refine ⟨(c :: l) :: ls, splitlines_cons_char hbreak hsplit, by simp, fun l' hl' => ?_⟩
    rcases List.mem_cons.mp hl' with rfl | hl'
    · intro d hd
      rcases List.mem_cons.mp hd with rfl | hd
      · exact hspace
      · exact hblanks l List.mem_cons_self d hd
    · exact hblanks l' (List.mem_cons_of_mem _ hl')
  -- `\r\n` is one break: a `\r` at the end of `w` swallows the line end behind it
  induction w using splitlines.induct with
  | case1 => exact ⟨[[]], splitlines_newline rest, by simp, by simp⟩
  | case2 w ih =>
    obtain ⟨blanks, hsplit, -, hblanks⟩ := ih fun c hc => hw c (by simp [hc])
    refine ⟨[] :: blanks, ?_, by simp, by simpa using hblanks⟩
    rw [List.cons_append, List.cons_append, splitlines, hsplit]
    rfl
  | case3 c w hcr hbreak ih =>
    cases w with
    | nil =>
      by_cases hc : c = '\r'
      · refine ⟨[[]], ?_, by simp, by simp⟩
        rw [hc, List.cons_append, List.nil_append, splitlines]
        rfl
      · refine ⟨[[], []], ?_, by simp, by simp⟩
        rw [List.cons_append, splitlines_cons_break hbreak fun h => absurd h hc, List.nil_append,
          splitlines_newline]
        rfl
    | cons d w =>
      obtain ⟨blanks, hsplit, -, hblanks⟩ := ih fun e he => hw e (List.mem_cons_of_mem _ he)
      refine ⟨[] :: blanks, ?_, by simp, by simpa using hblanks⟩
      rw [List.cons_append, splitlines_cons_break hbreak, hsplit]
      · rfl
      · rintro rfl hd
        exact hcr w rfl (by simpa using hd)
  | case4 c w hcr hbreak hnil ih =>
    exact hchar c w (by simpa using hbreak) (hw c List.mem_cons_self)
      (ih fun d hd => hw d (List.mem_cons_of_mem _ hd))
  | case5 c w hcr hbreak l ls hls ih =>
    exact hchar c w (by simpa using hbreak) (hw c List.mem_cons_self)
      (ih fun d hd => hw d (List.mem_cons_of_mem _ hd))

theorem splitlines_append {u x l : Text} {ls : List Text} (hu : ∀ c ∈ u, isLineBreak c = false)
    (hx : splitlines x = l :: ls) : splitlines (u ++ x) = (u ++ l) :: ls := by
  induction u with
  | nil => exact hx
  | cons c u ih =>
    exact splitlines_cons_char (hu c List.mem_cons_self) (ih fun d hd => hu d (List.mem_cons_of_mem _ hd))

/-- A description of one line, and what is behind it. -/
theorem splitlines_oneLine {l d : Text} (hl : ∀ c ∈ l, isLineBreak c = false) (hd : OneLine d)
    (rest : Text) : ∃ blanks, splitlines (l ++ (d ++ '\n' :: rest)) =
      (l ++ firstLine d) :: (blanks ++ splitlines rest) ∧
      ∀ b ∈ blanks, ∀ c ∈ b, isSpaceChar c = true := by
  obtain ⟨blanks, hsplit, hne, hblanks⟩ := splitlines_blank (behindFirstLine d) rest hd
  obtain ⟨b, bs, rfl⟩ := List.exists_cons_of_ne_nil hne
  -- a boundary comes first
  have hb : b = [] := by
    have hhead := @head_splitlines (behindFirstLine d ++ '\n' :: rest) (by simp)
    have hfirst : firstLine (behindFirstLine d ++ '\n' :: rest) = [] := by
      have happ := firstLine_append (p := []) (by simp) (behindFirstLine d) rest
      rw [List.nil_append, List.nil_append] at happ
      rw [happ, firstLine, behindFirstLine]
      cases hdrop : d.dropWhile fun c => !isLineBreak c with
      | nil => rfl
      | cons c rest' =>
        have hnot := List.head?_dropWhile_not (fun c => !isLineBreak c) d
        rw [hdrop] at hnot
        exact List.takeWhile_cons_of_neg (by simpa using hnot)
    rw [hsplit, hfirst] at hhead
    exact Option.some.inj hhead
  subst hb
  have hfirst : ∀ c ∈ l ++ firstLine d, isLineBreak c = false := by
    intro c hc
    rcases List.mem_append.mp hc with hc | hc
    · exact hl c hc
    · simpa using List.mem_takeWhile_imp hc
  refine ⟨bs, ?_, fun b hb => hblanks b (List.mem_cons_of_mem _ hb)⟩
  have hcut : l ++ (d ++ '\n' :: rest) =
      (l ++ firstLine d) ++ (behindFirstLine d ++ '\n' :: rest) := by
    conv_lhs => rw [← firstLine_append_behind d]
    simp only [List.append_assoc]
  rw [hcut, splitlines_append hfirst hsplit, List.append_nil]
  rfl

/-- A line of white space holds no value. -/
theorem cutEquals_blank {l : Text} (hl : ∀ c ∈ l, isSpaceChar c = true) : cutEquals l = none := by
  induction l using cutEquals.induct with
  | case1 rest => exact absurd (hl '=' (by simp)) (by decide)
  | case2 c rest hnot ih =>
    rw [cutEquals, ih fun d hd => hl d (List.mem_cons_of_mem _ hd)]
    · rfl
    · exact hnot
  | case3 => rfl

/-- The lines of a description of one line hold no value of another key. -/
theorem pkginfoValues_description {d key : Text} (hd : OneLine d) (hkey : "pkgdesc".toList ≠ key)
    (rest : Text) :
    pkginfoValues (infoLine "pkgdesc".toList d ++ rest) key = pkginfoValues rest key := by
  have hl : ∀ c ∈ "pkgdesc".toList ++ " = ".toList, isLineBreak c = false :=
    noBreak_of_all (by decide)
  obtain ⟨blanks, hsplit, hblanks⟩ := splitlines_oneLine hl hd rest
  have hline : infoLine "pkgdesc".toList d ++ rest =
      ("pkgdesc".toList ++ " = ".toList) ++ (d ++ '\n' :: rest) := by
    simp only [infoLine, List.append_assoc, List.singleton_append]
  have hcut : cutEquals ("pkgdesc".toList ++ " = ".toList ++ firstLine d) =
      some ("pkgdesc".toList, firstLine d) := by
    rw [List.append_assoc]
    exact cutEquals_key (by decide) _
  have hnone : blanks.filterMap cutEquals = [] := by
    rw [List.filterMap_eq_nil_iff]
    exact fun b hb => cutEquals_blank (hblanks b hb)
  rw [pkginfoValues, hline, hsplit, List.filterMap_cons_some hcut, List.filterMap_append, hnone,
    List.nil_append, List.filterMap_cons_none]
  · rfl
  · exact if_neg fun h => hkey ((show strip "pkgdesc".toList = "pkgdesc".toList by decide).symm.trans h)

/-- The dependencies are read back. -/
theorem pkginfoValues_deps {deps : List Text} (h : ∀ d ∈ deps, ∀ c ∈ d, isSpaceChar c = false) :
    pkginfoValues (deps.flatMap (infoLine "depend".toList)) "depend".toList = deps := by
  induction deps with
  | nil => rfl
  | cons d deps ih =>
    obtain ⟨hstrip, hbreak⟩ := clean_of_word (h d List.mem_cons_self)
    have hkey : ∀ c ∈ "depend".toList ++ " = ".toList, isLineBreak c = false :=
      noBreak_of_all (by decide)
    have hline : ∀ c ∈ "depend".toList ++ " = ".toList ++ d, isLineBreak c = false := by
      intro c hc
      rcases List.mem_append.mp hc with hc | hc
      · exact hkey c hc
      · exact hbreak c hc
    have hcut : cutEquals ("depend".toList ++ " = ".toList ++ d) = some ("depend".toList, d) := by
      rw [List.append_assoc]
      exact cutEquals_key (by decide) _
    have hrest := ih fun d' hd' => h d' (List.mem_cons_of_mem _ hd')
    rw [pkginfoValues] at hrest ⊢
    rw [List.flatMap_cons, infoLine, List.append_assoc, List.singleton_append,
      splitlines_append_newline hline, List.filterMap_cons_some hcut,
      List.filterMap_cons_some (by rw [if_pos (show strip "depend".toList = _ by decide)]), hrest,
      hstrip]

end OsMoap.Pack
