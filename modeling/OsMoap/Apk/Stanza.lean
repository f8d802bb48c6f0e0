import OsMoap.Apk.Effects

/-!
# `apk`: the Database as Stanzas

The text of `/lib/apk/db/installed` is a sequence of stanzas, each a block of lines and a
blank line.  `do_add`, `do_del` and `list` look for a package by an unanchored search for
`P:<name>` and a line end, so they find the first line that *ends* in `P:<name>`, whatever
field it belongs to.

`NameLineFirst` says that this line, if there is one, is a name line.  Then the search finds
the first stanza of that name and cuts out exactly its text (`located_render`).
-/

namespace OsMoap.Apk

open OsMoap.Lib
open OsMoap.Pack (Bytes)

/-! ## Stanzas -/

/-- A text that can stand in a line of a C string. -/
def Plain (b : Bytes) : Prop := nl ∉ b ∧ 0 ∉ b

instance (b : Bytes) : Decidable (Plain b) := inferInstanceAs (Decidable (_ ∧ _))

/-- Lines of a C string make a C string. -/
theorem cstr_unlines {ls : List Bytes} (h : ∀ l ∈ ls, Plain l) :
    cstr (unlines nl ls) = unlines nl ls := by
  refine cstr_eq_self fun h0 => ?_
  obtain ⟨l, hl, hmem⟩ := List.mem_flatMap.mp h0
  rcases List.mem_append.mp hmem with hmem | hmem
  · exact (h l hl).2 hmem
  · exact absurd (List.mem_singleton.mp hmem) (by decide)

/-- A stanza of the database: its fields hold no line end and no NUL. -/
structure Stanza where
  name : Bytes
  ver : Bytes
  desc : Bytes
  paths : List Bytes
  plain : ∀ b ∈ name :: ver :: desc :: paths, Plain b

/-- The line of a package name. -/
def nameLine (name : Bytes) : Bytes := ascii "P:" ++ name

/-- The lines of a stanza before its blank line. -/
def Stanza.body (st : Stanza) : List Bytes :=
  nameLine st.name :: (ascii "V:" ++ st.ver) :: (ascii "T:" ++ st.desc) ::
    st.paths.map fun p => ascii "F:" ++ p

/-- The lines of a stanza. -/
def Stanza.lines (st : Stanza) : List Bytes := st.body ++ [[]]

/-- The lines of the database. -/
def dbLines (ss : List Stanza) : List Bytes := ss.flatMap Stanza.lines

/-- The text of the database. -/
def render (ss : List Stanza) : Bytes := unlines nl (dbLines ss)

@[simp]
theorem dbLines_nil : dbLines [] = [] := rfl

@[simp]
theorem dbLines_cons (st : Stanza) (ss : List Stanza) :
    dbLines (st :: ss) = st.lines ++ dbLines ss := by
  simp [dbLines]

@[simp]
theorem dbLines_append (as bs : List Stanza) : dbLines (as ++ bs) = dbLines as ++ dbLines bs := by
  simp [dbLines]

@[simp]
theorem render_append (as bs : List Stanza) : render (as ++ bs) = render as ++ render bs := by
  simp [render]

theorem render_cons (st : Stanza) (ss : List Stanza) :
    render (st :: ss) = unlines nl st.lines ++ render ss := by
  simp [render]

/-- Every line of a stanza but the last is a field behind its two-letter key. -/
theorem mem_body {st : Stanza} {l : Bytes} (h : l ∈ st.body) :
    ∃ c b, c ≠ nl ∧ c ≠ 0 ∧ Plain b ∧ l = c :: 58 :: b := by
  have hplain := st.plain
  simp only [Stanza.body, List.mem_cons, List.mem_map] at h
  rcases h with rfl | rfl | rfl | ⟨p, hp, rfl⟩
  · exact ⟨80, st.name, by decide, by decide, hplain _ (by simp), rfl⟩
  · exact ⟨86, st.ver, by decide, by decide, hplain _ (by simp), rfl⟩
  · exact ⟨84, st.desc, by decide, by decide, hplain _ (by simp), rfl⟩
  · exact ⟨70, p, by decide, by decide, hplain _ (by simp [hp]), rfl⟩

theorem plain_of_mem_body {st : Stanza} {l : Bytes} (h : l ∈ st.body) : l ≠ [] ∧ Plain l := by
  obtain ⟨c, b, hc, h0, hb, rfl⟩ := mem_body h
  refine ⟨by simp, ?_, ?_⟩
  · simp only [List.mem_cons, not_or]
    exact ⟨fun h => hc h.symm, by decide, hb.1⟩
  · simp only [List.mem_cons, not_or]
    exact ⟨fun h => h0 h.symm, by decide, hb.2⟩

theorem plain_of_mem_dbLines {ss : List Stanza} {l : Bytes} (h : l ∈ dbLines ss) : Plain l := by
  obtain ⟨st, -, hl⟩ := List.mem_flatMap.mp h
  rcases List.mem_append.mp hl with hl | hl
  · exact (plain_of_mem_body hl).2
  · rw [List.mem_singleton.mp hl]
    exact ⟨by simp, by simp⟩

/-- The text of the database is a C string. -/
theorem cstr_render (ss : List Stanza) : cstr (render ss) = render ss :=
  cstr_unlines fun _ hl => plain_of_mem_dbLines hl

/-- The name line of a stanza is the only line of it that can be a name line. -/
theorem nameLine_mem_lines_iff {st : Stanza} {q : Bytes} :
    nameLine q ∈ st.lines ↔ st.name = q := by
  constructor
  · intro h
    simp only [Stanza.lines, Stanza.body, List.mem_append, List.mem_cons, List.mem_map,
      List.not_mem_nil, or_false] at h
    rcases h with (h | h | h | ⟨p, -, h⟩) | h
    · exact (List.append_cancel_left h).symm
    · exact absurd (List.cons.inj h).1 (by decide)
    · exact absurd (List.cons.inj h).1 (by decide)
    · exact absurd (List.cons.inj h).1 (by decide)
    · exact absurd h (by simp [nameLine, ascii])
  · rintro rfl
    exact List.mem_append_left _ List.mem_cons_self

/-! ## Finding a stanza -/

/-- The first line that ends in `P:<q>`, if any, is the name line of `q`. -/
def NameLineFirst (ss : List Stanza) (q : Bytes) : Prop :=
  ∀ l, (dbLines ss).find? (fun l => (nameLine q).isSuffixOf l) = some l → l = nameLine q

instance (ss : List Stanza) (q : Bytes) : Decidable (NameLineFirst ss q) :=
  match h : (dbLines ss).find? fun l => (nameLine q).isSuffixOf l with
  | none => .isTrue fun l hl => by simp [h] at hl
  | some l =>
    if heq : l = nameLine q then .isTrue fun l' hl' => by rw [h] at hl'; rw [← heq, Option.some.inj hl']
    else .isFalse fun hno => heq (hno l h)

/-- The stanza a name line belongs to. -/
theorem split_at_nameLine {ss : List Stanza} {pre post : List Bytes} {q : Bytes}
    (h : dbLines ss = pre ++ nameLine q :: post) (hpre : nameLine q ∉ pre) :
    ∃ as st bs, ss = as ++ st :: bs ∧ st.name = q ∧ (∀ st' ∈ as, st'.name ≠ q) ∧
      pre = dbLines as ∧ nameLine q :: post = st.lines ++ dbLines bs := by
  induction ss generalizing pre with
  | nil => simp at h
  | cons st ss ih =>
    rw [dbLines_cons] at h
    by_cases hname : st.name = q
    · -- this is it: its first line is the one found
      have hfirst : st.lines = nameLine q :: st.lines.tail := by rw [← hname]; rfl
      cases pre with
      | nil => exact ⟨[], st, ss, rfl, hname, by simp, rfl, h.symm⟩
      | cons l pre =>
        rw [hfirst] at h
        have := (List.cons.inj h).1
        exact absurd (this ▸ List.mem_cons_self) hpre
    · -- another stanza: the line found lies behind it
      have hno : nameLine q ∉ st.lines := fun hm => hname (nameLine_mem_lines_iff.mp hm)
      rcases List.append_eq_append_iff.mp h with ⟨c, rfl, hc⟩ | ⟨c, hlines, hc⟩
      · obtain ⟨as, st', bs, rfl, hst', has, rfl, hbs⟩ :=
          ih hc fun hm => hpre (List.mem_append_right _ hm)
        refine ⟨st :: as, st', bs, rfl, hst', ?_, by simp, hbs⟩
        intro st'' hmem
        rcases List.mem_cons.mp hmem with rfl | hmem
        · exact hname
        · exact has st'' hmem
      · cases c with
        | nil =>
          rw [List.nil_append] at hc
          rw [List.append_nil] at hlines
          obtain ⟨as, st', bs, rfl, hst', has, has', hbs⟩ := ih (hc.symm.trans (List.nil_append _).symm) (by simp)
          refine ⟨st :: as, st', bs, rfl, hst', ?_, by rw [dbLines_cons, ← has', hlines]; simp, hbs⟩
          intro st'' hmem
          rcases List.mem_cons.mp hmem with rfl | hmem
          · exact hname
          · exact has st'' hmem
        | cons l c =>
          have : l = nameLine q := (List.cons.inj hc).1.symm
          exact absurd (by rw [hlines, this]; simp) hno

/-- A stanza is cut out whole. -/
theorem cutStanza_lines (st : Stanza) (rest : Bytes) :
    cutStanza (unlines nl st.lines ++ rest) = (unlines nl st.lines, rest) := by
  have hbody : ∀ l ∈ st.body, l ≠ [] ∧ nl ∉ l := fun l hl =>
    ⟨(plain_of_mem_body hl).1, (plain_of_mem_body hl).2.1⟩
  obtain ⟨l, ls, hls⟩ : ∃ l ls, st.body = l :: ls := ⟨_, _, rfl⟩
  rw [hls] at hbody
  obtain ⟨b, hb, hfind⟩ := findSub_blank nl (hbody l List.mem_cons_self)
    (fun l' hl' => hbody l' (List.mem_cons_of_mem _ hl')) rest
  have htext : unlines nl st.lines ++ rest = unlines nl (l :: ls) ++ nl :: rest := by
    rw [Stanza.lines, hls]
    simp
  have hlines : unlines nl st.lines = b ++ [nl, nl] := by
    rw [Stanza.lines, hls, unlines_append, hb]
    simp
  rw [cutStanza, htext, hfind, hlines]
  rfl

private theorem filterMap_pathOfLine_lines (st : Stanza) :
    st.lines.filterMap pathOfLine = st.paths := by
  have hP : pathOfLine (nameLine st.name) = none := rfl
  have hV : pathOfLine (ascii "V:" ++ st.ver) = none := rfl
  have hT : pathOfLine (ascii "T:" ++ st.desc) = none := rfl
  rw [Stanza.lines, Stanza.body, List.cons_append, List.cons_append, List.cons_append,
    List.filterMap_cons_none hP, List.filterMap_cons_none hV, List.filterMap_cons_none hT,
    List.filterMap_append, List.filterMap_map]
  simp [pathOfLine, ascii]

/-- The files of a stanza are read back. -/
theorem filePaths_lines (st : Stanza) : filePaths (unlines nl st.lines) = st.paths := by
  have hls : ∀ l ∈ st.lines, nl ∉ l := by
    intro l hl
    have : l ∈ dbLines [st] := by simpa using hl
    exact (plain_of_mem_dbLines this).1
  rw [filePaths, lines_unlines nl hls, List.filterMap_append, filterMap_pathOfLine_lines]
  simp [pathOfLine, ascii]

theorem not_mem_nameLine {q : Bytes} (hq : nl ∉ q) : nl ∉ nameLine q := by
  simp only [nameLine, List.mem_append, not_or]
  exact ⟨by decide, hq⟩

/-- The probe finds a line exactly when one ends in the name line. -/
theorem probe_render_isSome_iff (ss : List Stanza) {q : Bytes} (hq : nl ∉ q) :
    (findSub (probe q) (render ss)).isSome ↔ ∃ l ∈ dbLines ss, nameLine q <:+ l := by
  have hls : ∀ l ∈ dbLines ss, nl ∉ l := fun l hl => (plain_of_mem_dbLines hl).1
  rcases findSub_unlines nl (not_mem_nameLine hq) hls with
    ⟨hnone, hno⟩ | ⟨pre, w, post, hsplit, -, hsome⟩
  · rw [show findSub (probe q) (render ss) = none from hnone]
    simp only [Option.isSome_none, Bool.false_eq_true, false_iff, not_exists, not_and]
    exact hno
  · rw [show findSub (probe q) (render ss) = some _ from hsome]
    simp only [Option.isSome_some, true_iff]
    exact ⟨w ++ nameLine q, by rw [hsplit]; simp, List.suffix_append _ _⟩

/-- **Finding a stanza**: where the first line that ends in `P:<q>` is a name line, the search
finds the first stanza named `q` and cuts out exactly its text, or there is none. -/
theorem located_render {ss : List Stanza} {q : Bytes} (hq : nl ∉ q) (hfirst : NameLineFirst ss q) :
    (located (render ss) q = none ∧ ∀ st ∈ ss, st.name ≠ q) ∨
    ∃ as st bs, ss = as ++ st :: bs ∧ st.name = q ∧ (∀ st' ∈ as, st'.name ≠ q) ∧
      located (render ss) q = some (render as, unlines nl st.lines, render bs) := by
  have hls : ∀ l ∈ dbLines ss, nl ∉ l := fun l hl => (plain_of_mem_dbLines hl).1
  rcases findSub_unlines nl (not_mem_nameLine hq) hls with
    ⟨hnone, hno⟩ | ⟨pre, w, post, hsplit, hpre, hsome⟩
  · left
    refine ⟨?_, fun st hst hname => ?_⟩
    · rw [located, show findSub (probe q) (render ss) = none from hnone]
      rfl
    · refine hno (nameLine q) (List.mem_flatMap.mpr ⟨st, hst, ?_⟩) List.suffix_rfl
      exact nameLine_mem_lines_iff.mpr hname
  · right
    have hfound : (dbLines ss).find? (fun l => (nameLine q).isSuffixOf l) = some (w ++ nameLine q) := by
      rw [hsplit, List.find?_append, List.find?_eq_none.mpr fun l hl => by
        simpa using fun h => hpre l hl (List.isSuffixOf_iff_suffix.mp h)]
      simp [List.isSuffixOf_iff_suffix]
    have hw : w ++ nameLine q = nameLine q := hfirst _ hfound
    rw [hw] at hsplit
    obtain ⟨as, st, bs, rfl, hname, has, rfl, hpost⟩ :=
      split_at_nameLine hsplit fun hm => hpre _ hm List.suffix_rfl
    have hw' : w = [] := by simpa using hw
    refine ⟨as, st, bs, rfl, hname, has, ?_⟩
    have htext : nameLine q ++ nl :: unlines nl post = unlines nl st.lines ++ render bs := by
      rw [← unlines_cons, hpost, unlines_append]
      rfl
    rw [located, show findSub (probe q) (render (as ++ st :: bs)) = some _ from hsome, hw',
      Option.map_some, htext, cutStanza_lines, List.append_nil]
    rfl

end OsMoap.Apk
