import OsMoap.Apk.Commands
import OsMoap.Pack.Descriptions

/-!
# Metadata on Both Readers

The `.PKGINFO` that `stage_entries` of `tools/pack_pkg.py` synthesises is read by
`pkginfo_from_blob` of `tools/pack_repo.py`, line by line, and by `pi_get` of
`guest/busybox/upstream/miscutils/apk.c`, up to the next `\n` of a C string.

`survives_iff` says when both read what was written: the description is one line and no text has a
NUL.
-/

namespace OsMoap.Apk

open OsMoap.Lib OsMoap.Pack

/-! ## The text as a C string -/

def nul : Char := Char.ofNat 0

theorem utf8_cons (c : Char) (t : Text) : utf8 (c :: t) = String.utf8EncodeChar c ++ utf8 t := rfl

theorem not_mem_utf8EncodeChar {c d : Char} (hd : d.toNat < 128) (hne : c ≠ d) :
    UInt8.ofNat d.toNat ∉ String.utf8EncodeChar c := by
  intro hmem
  have hmem' : UInt8.ofNat d.toNat ∈ utf8 [c] := List.mem_flatMap.mpr ⟨c, by simp, hmem⟩
  rw [mem_utf8_iff hd, List.mem_singleton] at hmem'
  exact hne hmem'.symm

theorem cstr_append {b : Bytes} (h : 0 ∉ b) (rest : Bytes) : cstr (b ++ rest) = b ++ cstr rest := by
  rw [cstr, List.takeWhile_append_of_pos]
  · rfl
  · intro x hx
    simp only [ne_eq, decide_eq_true_eq]
    rintro rfl
    exact h hx

theorem zero_not_mem_utf8 {t : Text} (h : nul ∉ t) : (0 : UInt8) ∉ utf8 t := fun hmem =>
  h ((zero_mem_utf8_iff t).mp hmem)

theorem nl_not_mem_utf8 {t : Text} (h : '\n' ∉ t) : nl ∉ utf8 t := fun hmem =>
  h ((mem_utf8_iff (c := '\n') (by decide)).mp hmem)

/-- What is before the first NUL or line end. -/
def cLine (t : Text) : Text := t.takeWhile fun c => c ≠ '\n' && c ≠ nul

theorem takeWhile_cstr_utf8 (t rest : Text) :
    (cstr (utf8 (t ++ '\n' :: rest))).takeWhile (· ≠ nl) = utf8 (cLine t) := by
  induction t with
  | nil =>
    rw [List.nil_append, utf8_cons]
    rfl
  | cons c t ih =>
    rw [List.cons_append, utf8_cons]
    by_cases hnl : c = '\n'
    · subst hnl
      rfl
    · by_cases hnul : c = nul
      · subst hnul
        rfl
      · have hzero : (0 : UInt8) ∉ String.utf8EncodeChar c :=
          not_mem_utf8EncodeChar (d := nul) (by decide) hnul
        have hline : nl ∉ String.utf8EncodeChar c :=
          not_mem_utf8EncodeChar (d := '\n') (by decide) hnl
        rw [cstr_append hzero, List.takeWhile_append_of_pos, ih, cLine, cLine,
          List.takeWhile_cons_of_pos (by simp [hnl, hnul]), utf8_cons]
        intro x hx
        simp only [ne_eq, decide_eq_true_eq]
        rintro rfl
        exact hline hx

/-! ## `pi_get` -/

/-- The line starts with the key and ` =`. -/
def startsWithKey (key p : Bytes) : Bool :=
  key.isPrefixOf p && (ascii " =").isPrefixOf (p.drop key.length)

theorem piGet_eq (pi key : Bytes) :
    piGet pi key = match (lineStarts nl pi).find? (startsWithKey key) with
      | some p => (p.drop (key.length + 3)).takeWhile (· ≠ nl)
      | none => ascii "?" := rfl

/-- A line of another key is passed over. -/
theorem piGet_skip {key l : Bytes} (hl : nl ∉ l) (rest : Bytes)
    (hkey : startsWithKey key (l ++ nl :: rest) = false) :
    piGet (l ++ nl :: rest) key = piGet rest key := by
  rw [piGet_eq, lineStarts_line nl hl, List.find?_cons_of_neg, piGet_eq]
  exact Bool.eq_false_iff.mp hkey

/-- The line of the key holds the value. -/
theorem piGet_hit (key v : Bytes) :
    piGet (key ++ (ascii " = " ++ v)) key = v.takeWhile (· ≠ nl) := by
  have hne : key ++ (ascii " = " ++ v) ≠ [] :=
    List.append_ne_nil_of_right_ne_nil _ (List.append_ne_nil_of_left_ne_nil (by decide) _)
  have hmatch : startsWithKey key (key ++ (ascii " = " ++ v)) = true := by
    rw [startsWithKey, List.drop_left, Bool.and_eq_true]
    exact ⟨List.isPrefixOf_iff_prefix.mpr (List.prefix_append ..), rfl⟩
  rw [piGet_eq, lineStarts, List.filter_cons_of_pos (by exact decide_eq_true hne),
    List.find?_cons_of_pos hmatch]
  simp only
  rw [← List.drop_drop, List.drop_left]
  rfl

theorem afterLineEnds_of_not_mem {l : Bytes} (hl : nl ∉ l) : afterLineEnds nl l = [] := by
  induction l with
  | nil => rfl
  | cons c l ih =>
    have hc : c ≠ nl := fun h => hl (h ▸ List.mem_cons_self)
    rw [afterLineEnds, if_neg hc, ih fun h => hl (List.mem_cons_of_mem _ h)]

/-- A single line of another key. -/
theorem piGet_none {key l : Bytes} (hl : nl ∉ l) (hkey : startsWithKey key l = false) :
    piGet l key = ascii "?" := by
  have hfind : (lineStarts nl l).find? (startsWithKey key) = none := by
    rw [List.find?_eq_none, lineStarts, afterLineEnds_of_not_mem hl]
    intro p hp
    rw [List.mem_singleton.mp (List.mem_of_mem_filter hp), hkey]
    exact Bool.false_ne_true
  rw [piGet_eq, hfind]

/-! ## The lines of a synthesised `.PKGINFO` -/

theorem utf8_infoLine (k v rest : Text) : utf8 (infoLine k v ++ rest) =
    utf8 k ++ (ascii " = " ++ utf8 (v ++ '\n' :: rest)) := by
  simp only [infoLine, utf8, List.append_assoc, List.singleton_append, List.flatMap_append]
  rfl

section Lines

variable {k v : Text} (hnul : nul ∉ k) (hnl : '\n' ∉ k)

include hnul in
theorem cstr_infoLine (v rest : Text) : cstr (utf8 (infoLine k v ++ rest)) =
    utf8 k ++ (ascii " = " ++ cstr (utf8 (v ++ '\n' :: rest))) := by
  rw [utf8_infoLine, cstr_append (zero_not_mem_utf8 hnul), cstr_append (by decide)]

include hnul in
theorem piGet_infoLine (v rest : Text) :
    piGet (cstr (utf8 (infoLine k v ++ rest))) (utf8 k) = utf8 (cLine v) := by
  rw [cstr_infoLine hnul, piGet_hit, takeWhile_cstr_utf8]

variable {key : Bytes} (hkey : ∀ x, startsWithKey key (utf8 k ++ x) = false)

include hnul hnl hkey in
/-- A line without a NUL is passed over. -/
theorem piGet_infoLine_skip (hv : nul ∉ v) (hvnl : '\n' ∉ v) (rest : Text) :
    piGet (cstr (utf8 (infoLine k v ++ rest))) key = piGet (cstr (utf8 rest)) key := by
  have hrest : cstr (utf8 (v ++ '\n' :: rest)) = utf8 v ++ nl :: cstr (utf8 rest) := by
    rw [show utf8 (v ++ '\n' :: rest) = utf8 v ++ ([nl] ++ utf8 rest) from List.flatMap_append,
      cstr_append (zero_not_mem_utf8 hv), cstr_append (by decide)]
    rfl
  have hline : nl ∉ utf8 k ++ (ascii " = " ++ utf8 v) := by
    simp only [List.mem_append, not_or]
    exact ⟨nl_not_mem_utf8 hnl, by decide, nl_not_mem_utf8 hvnl⟩
  have hcat : utf8 k ++ (ascii " = " ++ (utf8 v ++ nl :: cstr (utf8 rest))) =
      utf8 k ++ (ascii " = " ++ utf8 v) ++ nl :: cstr (utf8 rest) := by
    simp only [List.append_assoc]
  rw [cstr_infoLine hnul, hrest, hcat, piGet_skip hline]
  rw [List.append_assoc]
  exact hkey _

include hnul hnl hkey in
/-- Behind a NUL nothing is found. -/
theorem piGet_infoLine_cut (hv : nul ∈ v) (hvnl : '\n' ∉ v) (rest : Text) :
    piGet (cstr (utf8 (infoLine k v ++ rest))) key = ascii "?" := by
  obtain ⟨u, w, rfl⟩ := List.append_of_mem hv
  have hcut : nl ∉ cstr (utf8 ((u ++ nul :: w) ++ '\n' :: rest)) := by
    have hsplit : utf8 ((u ++ nul :: w) ++ '\n' :: rest) =
        utf8 u ++ 0 :: utf8 (w ++ '\n' :: rest) := by
      rw [List.append_assoc]
      exact List.flatMap_append
    intro hmem
    rw [hsplit, cstr, List.takeWhile_append] at hmem
    split_ifs at hmem
    · rw [List.takeWhile_cons_of_neg (by decide), List.append_nil] at hmem
      exact nl_not_mem_utf8 (fun h => hvnl (List.mem_append_left _ h)) hmem
    · exact nl_not_mem_utf8 (fun h => hvnl (List.mem_append_left _ h))
        (List.takeWhile_subset _ hmem)
  rw [cstr_infoLine hnul]
  refine piGet_none ?_ (hkey _)
  simp only [List.mem_append, not_or]
  exact ⟨nl_not_mem_utf8 hnl, by decide, hcut⟩

end Lines

/-! ## What `pi_get` reads -/

theorem not_mem_of_word {t : Text} (h : ∀ c ∈ t, isSpaceChar c = false) : '\n' ∉ t := fun hmem =>
  absurd (h _ hmem) (by decide)

variable {a : PkgArgs} {size : ℕ}

/-- `pi_get` on a synthesised `.PKGINFO`: the rest of a line as a C string, unless a NUL before it
hides the line. -/
theorem piGet_synthesized (hname : ∀ c ∈ a.name, isSpaceChar c = false)
    (hver : ∀ c ∈ a.ver, isSpaceChar c = false) :
    (nul ∉ a.name → piGet (cstr (utf8 (synthesizedInfo a size))) (ascii "pkgver") =
      utf8 (cLine a.ver)) ∧
    (nul ∉ a.name → nul ∉ a.ver →
      piGet (cstr (utf8 (synthesizedInfo a size))) (ascii "pkgdesc") = utf8 (cLine a.desc)) ∧
    (nul ∈ a.name → ∀ key ∈ [ascii "pkgver", ascii "pkgdesc"],
      piGet (cstr (utf8 (synthesizedInfo a size))) key = ascii "?") := by
  have hskipVer : ∀ x, startsWithKey (ascii "pkgver") (utf8 "pkgname".toList ++ x) = false :=
    fun _ => rfl
  have hskipDesc : ∀ x, startsWithKey (ascii "pkgdesc") (utf8 "pkgname".toList ++ x) = false :=
    fun _ => rfl
  have hverDesc : ∀ x, startsWithKey (ascii "pkgdesc") (utf8 "pkgver".toList ++ x) = false :=
    fun _ => rfl
  have hnl := not_mem_of_word hname
  refine ⟨fun hnul => ?_, fun hnul hverNul => ?_, fun hnul key hmem => ?_⟩
  · rw [synthesizedInfo, piGet_infoLine_skip (by decide) (by decide) hskipVer hnul hnl]
    exact piGet_infoLine (by decide) _ _
  · rw [synthesizedInfo, piGet_infoLine_skip (by decide) (by decide) hskipDesc hnul hnl,
      piGet_infoLine_skip (by decide) (by decide) hverDesc hverNul (not_mem_of_word hver)]
    exact piGet_infoLine (by decide) _ _
  · rw [synthesizedInfo]
    rcases List.mem_pair.mp hmem with rfl | rfl
    · exact piGet_infoLine_cut (by decide) (by decide) hskipVer hnul hnl _
    · exact piGet_infoLine_cut (by decide) (by decide) hskipDesc hnul hnl _

/-- A C string is read back whole exactly when there is no NUL in it. -/
theorem cLine_eq_iff {t : Text} (h : '\n' ∉ t) : cLine t = t ↔ nul ∉ t := by
  rw [cLine, List.takeWhile_eq_self_iff]
  constructor
  · intro hall hmem
    simpa using hall _ hmem
  · intro hnul c hc
    have hne : c ≠ '\n' := fun heq => h (heq ▸ hc)
    have hne' : c ≠ nul := fun heq => hnul (heq ▸ hc)
    simp [hne, hne']

/-- The line of a description of one line is its first line, up to the white space. -/
theorem strip_cLine_iff {d : Text} (hd : OneLine d) :
    strip (cLine d) = strip (firstLine d) ↔ nul ∉ d := by
  constructor
  · intro h hmem
    -- the NUL is on the first line
    have hfirst : nul ∈ firstLine d := by
      rw [← firstLine_append_behind d, List.mem_append] at hmem
      rcases hmem with hmem | hmem
      · exact hmem
      · exact absurd (hd _ hmem) (by decide)
    rw [← mem_strip_iff (by decide), ← h, mem_strip_iff (by decide)] at hfirst
    simpa using List.mem_takeWhile_imp hfirst
  · intro hnul
    have hsplit : cLine d = firstLine d ++ cLine (behindFirstLine d) := by
      conv_lhs => rw [← firstLine_append_behind d]
      rw [cLine, List.takeWhile_append_of_pos]
      · rfl
      · intro c hc
        have hbreak : isLineBreak c = false := by simpa using List.mem_takeWhile_imp hc
        have hne : c ≠ '\n' := by
          rintro rfl
          exact absurd hbreak (by decide)
        have hne' : c ≠ nul := by
          rintro rfl
          exact hnul (List.takeWhile_subset _ hc)
        simp [hne, hne']
    rw [hsplit, strip_append_blank]
    exact fun c hc => hd c (List.takeWhile_subset _ hc)

/-! ## What `pkginfo_from_blob` reads -/

theorem noBreak_infoLine {k v : Text} (hk : ∀ c ∈ k ++ " = ".toList, isLineBreak c = false)
    (hv : ∀ c ∈ v, isLineBreak c = false) :
    ∀ c ∈ k ++ " = ".toList ++ v, isLineBreak c = false := by
  intro c hc
  rcases List.mem_append.mp hc with hc | hc
  · exact hk c hc
  · exact hv c hc

/-- The values of the other keys are behind the name and the version. -/
theorem pkginfoValues_synthesized (hname : ∀ c ∈ a.name, isSpaceChar c = false)
    (hver : ∀ c ∈ a.ver, isSpaceChar c = false) {key : Text}
    (hkey : "pkgname".toList ≠ key ∧ "pkgver".toList ≠ key) :
    pkginfoValues (synthesizedInfo a size) key =
      pkginfoValues (infoLine "pkgdesc".toList a.desc ++ (infoLine "size".toList (decimal size) ++
        a.deps.flatMap (infoLine "depend".toList))) key := by
  have hstripName : strip "pkgname".toList = "pkgname".toList := by decide
  have hstripVer : strip "pkgver".toList = "pkgver".toList := by decide
  rw [synthesizedInfo,
    pkginfoValues_other (by decide) (noBreak_infoLine (noBreak_of_all (by decide)) (clean_of_word hname).2)
      (hstripName ▸ hkey.1),
    pkginfoValues_other (by decide) (noBreak_infoLine (noBreak_of_all (by decide)) (clean_of_word hver).2)
      (hstripVer ▸ hkey.2)]

/-- `pkginfo_from_blob` on a synthesised `.PKGINFO`. -/
theorem pkginfoOfText_synthesized (hname : ∀ c ∈ a.name, isSpaceChar c = false)
    (hver : ∀ c ∈ a.ver, isSpaceChar c = false)
    (hdeps : ∀ d ∈ a.deps, ∀ c ∈ d, isSpaceChar c = false) (rb : ℕ) :
    ∃ pi, pkginfoOfText rb (synthesizedInfo a size) = some pi ∧ pi.name = a.name ∧
      pi.ver = a.ver ∧ pi.desc = strip (firstLine a.desc) ∧ (OneLine a.desc → pi.deps = a.deps) := by
  obtain ⟨pi, hpi, hn, hv⟩ := (pkginfoOfText_synthesized_iff a size rb).mpr
    ⟨clean_of_word hname, clean_of_word hver⟩
  refine ⟨pi, hpi, hn, hv, ?_, ?_⟩
  all_goals
    simp only [pkginfoOfText, Option.bind_eq_bind, Option.bind_eq_some_iff] at hpi
    obtain ⟨n, -, v, -, hsome⟩ := hpi
    obtain rfl := Option.some.inj hsome
    dsimp only
  · rw [pkginfoValues_synthesized hname hver ⟨by decide, by decide⟩, List.headD_eq_head?_getD,
      head_pkginfoValues (by decide) (noBreak_of_all (by decide)) (by decide), Option.getD_some]
  · intro hone
    have hsize : ∀ c ∈ decimal size, isLineBreak c = false := fun c hc =>
      isLineBreak_of_isPrintable (decimal_printable size c hc)
    rw [pkginfoValues_synthesized hname hver ⟨by decide, by decide⟩,
      pkginfoValues_description hone (by decide),
      pkginfoValues_other (by decide) (noBreak_infoLine (noBreak_of_all (by decide)) hsize)
        (by decide),
      pkginfoValues_deps hdeps]

/-! ## Both readers -/

section Survival

variable {gzip : Bytes → Bytes} {gunzip : Bytes → Option Bytes}

/-- Both readers of a blob see what was packed: `pkginfo_from_blob` the name, the version, the
dependencies and the description up to white space, and `pi_get` the same version and the same
line of description. -/
def Survives (gunzip : Bytes → Option Bytes) (raw gz : Bytes) (a : PkgArgs) : Prop :=
  ∃ pi info, pkginfoFromBlob (unpackBlob gunzip) gz = some pi ∧
    extractfile raw (utf8 pkginfoName) = some info ∧
    pi.name = a.name ∧ pi.ver = a.ver ∧ pi.deps = a.deps ∧ sanitize pi.desc = sanitize a.desc ∧
    piGet (cstr info) (ascii "pkgver") = utf8 a.ver ∧
    ∃ line, piGet (cstr info) (ascii "pkgdesc") = utf8 line ∧ strip line = pi.desc

/-- No NUL cuts a C string short, or what is cut off reads as `?` anyway. -/
def Uncut (a : PkgArgs) : Prop :=
  (nul ∉ a.name ∧ nul ∉ a.ver ∧ nul ∉ a.desc) ∨
    (nul ∈ a.name ∧ a.ver = ['?'] ∧ strip (firstLine a.desc) = ['?'])

/-- What `pi_get` reads is what was packed exactly when nothing is cut off. -/
theorem piGet_same_iff (hname : ∀ c ∈ a.name, isSpaceChar c = false)
    (hver : ∀ c ∈ a.ver, isSpaceChar c = false) (hone : OneLine a.desc) :
    (piGet (cstr (utf8 (synthesizedInfo a size))) (ascii "pkgver") = utf8 a.ver ∧
      ∃ line, piGet (cstr (utf8 (synthesizedInfo a size))) (ascii "pkgdesc") = utf8 line ∧
        strip line = strip (firstLine a.desc)) ↔ Uncut a := by
  obtain ⟨hgetVer, hgetDesc, hgetCut⟩ := @piGet_synthesized a size hname hver
  have hq : ascii "?" = utf8 ['?'] := by decide
  by_cases hnul : nul ∈ a.name
  · rw [hgetCut hnul _ (by simp), hgetCut hnul _ (by simp), hq, utf8_injective.eq_iff]
    constructor
    · rintro ⟨hv, line, hline, hstrip⟩
      obtain rfl := utf8_injective hline
      exact Or.inr ⟨hnul, hv.symm, hstrip.symm.trans (by decide)⟩
    · rintro (h | ⟨-, hv, hd⟩)
      · exact absurd hnul h.1
      · exact ⟨hv.symm, ['?'], rfl, by rw [hd]; decide⟩
  · rw [hgetVer hnul, utf8_injective.eq_iff, cLine_eq_iff (not_mem_of_word hver)]
    constructor
    · rintro ⟨hv, line, hline, hstrip⟩
      rw [hgetDesc hnul hv] at hline
      obtain rfl := utf8_injective hline
      exact Or.inl ⟨hnul, hv, (strip_cLine_iff hone).mp hstrip⟩
    · rintro (⟨-, hv, hd⟩ | h)
      · exact ⟨hv, cLine a.desc, hgetDesc hnul hv, (strip_cLine_iff hone).mpr hd⟩
      · exact absurd h.1 hnul

section Built

variable (hgz : ∀ raw, gunzip (gzip raw) = some raw) (stage : Stage)
  (hnone : ∀ info, ([pkginfoName], info) ∉ stage.root.listing)
  (hname : ∀ c ∈ a.name, isSpaceChar c = false) (hver : ∀ c ∈ a.ver, isSpaceChar c = false)
  (hdeps : ∀ d ∈ a.deps, ∀ c ∈ d, isSpaceChar c = false) {raw gz : Bytes}
  (hbuild : (buildGz gzip a stage.root).1 = .ok (raw, gz))

include hgz hnone hname hver hdeps hbuild

/-- What the readers find in a built blob. -/
theorem readers_of_built :
    ∃ pi size, pkginfoFromBlob (unpackBlob gunzip) gz = some pi ∧
      extractfile raw (utf8 pkginfoName) = some (utf8 (synthesizedInfo a size)) ∧
      pi.name = a.name ∧ pi.ver = a.ver ∧ pi.desc = strip (firstLine a.desc) ∧
      (OneLine a.desc → pi.deps = a.deps) := by
  obtain ⟨rfl, entries, size, hraw, harcs, hnodup, hinfo⟩ := built_fresh stage.wf hbuild hnone
  have hblob := pkginfoFromBlob_packed hgz harcs hnodup hraw hinfo
  rw [utf8Decode_utf8, Option.bind_some] at hblob
  obtain ⟨pi, hpi, hfields⟩ := @pkginfoOfText_synthesized a size hname hver hdeps raw.length
  exact ⟨pi, size, hblob.trans hpi, extractfile_buildTar harcs hnodup hraw hinfo, hfields⟩

/-- A description that comes back is one line. -/
theorem Survives.oneLine (h : Survives gunzip raw gz a) : OneLine a.desc := by
  obtain ⟨pi, size, hread, -, -, -, hdesc, -⟩ :=
    readers_of_built hgz stage hnone hname hver hdeps hbuild
  obtain ⟨pi', -, hread', -, -, -, -, hsan, -⟩ := h
  obtain rfl := Option.some.inj (hread.symm.trans hread')
  rwa [sanitize_eq_iff, hdesc, splitWords_strip, splitWords_firstLine_iff] at hsan

/-- **Package metadata survives packing** exactly when nothing but white space is behind the first
line boundary of the description and no NUL cuts what `apk` reads: for every stage without a
`.PKGINFO` and every package whose name, version and dependencies have no white space. -/
theorem survives_iff : Survives gunzip raw gz a ↔ OneLine a.desc ∧ Uncut a := by
  obtain ⟨pi, size, hread, hextract, hn, hv, hdesc, hdep⟩ :=
    readers_of_built hgz stage hnone hname hver hdeps hbuild
  constructor
  · intro h
    have hone := Survives.oneLine hgz stage hnone hname hver hdeps hbuild h
    obtain ⟨pi', info, hread', hinfo, -, -, -, -, hgetVer, line, hline, hstrip⟩ := h
    obtain rfl := Option.some.inj (hread.symm.trans hread')
    obtain rfl := Option.some.inj (hextract.symm.trans hinfo)
    rw [hdesc] at hstrip
    exact ⟨hone, (piGet_same_iff hname hver hone).mp ⟨hgetVer, line, hline, hstrip⟩⟩
  · rintro ⟨hone, huncut⟩
    obtain ⟨hgetVer, line, hline, hstrip⟩ := (@piGet_same_iff a size hname hver hone).mpr huncut
    have hsan : sanitize pi.desc = sanitize a.desc := by
      rwa [sanitize_eq_iff, hdesc, splitWords_strip, splitWords_firstLine_iff]
    exact ⟨pi, _, hread, hextract, hn, hv, hdep hone, hsan, hgetVer, line, hline,
      hstrip.trans hdesc.symm⟩

end Built

end Survival

/-! ## The pager -/

/-- A release of `less` with two dependencies. -/
def pagerArgs (desc : Text) : PkgArgs :=
  ⟨"less".toList, "608-r0".toList, desc, ["ncurses".toList, "terminfo".toList]⟩

theorem word_of_all {t : Text} (h : t.all (fun c => !isSpaceChar c) = true) :
    ∀ c ∈ t, isSpaceChar c = false := by
  simpa using h

theorem words_pagerArgs (desc : Text) :
    ∀ d ∈ (pagerArgs desc).deps, ∀ c ∈ d, isSpaceChar c = false := by
  intro d hd
  rcases List.mem_pair.mp hd with rfl | rfl
  · exact word_of_all (by decide)
  · exact word_of_all (by decide)

/-- A description of one line survives, with the dependencies behind it. -/
theorem survives_pager : ∃ raw gz,
    (buildGz id (pagerArgs "A pager = more".toList) lessStage.root).1 = .ok (raw, gz) ∧
      Survives some raw gz (pagerArgs "A pager = more".toList) := by
  obtain ⟨⟨raw, gz⟩, hbuild⟩ :=
    @buildGz_lessStage (pagerArgs "A pager = more".toList) (by decide +kernel)
  refine ⟨raw, gz, hbuild, ?_⟩
  rw [survives_iff (fun _ => rfl) lessStage pkginfo_not_mem_lessStage (word_of_all (by decide))
    (word_of_all (by decide)) (words_pagerArgs _) hbuild]
  refine ⟨fun c hc => ?_, Or.inl ⟨by decide, by decide, by decide⟩⟩
  rw [show behindFirstLine (pagerArgs "A pager = more".toList).desc = [] by decide] at hc
  exact absurd hc (by simp)

/-- The second line of a description is lost, and taken for a dependency. -/
theorem not_survives_pager : ∃ raw gz,
    (buildGz id (pagerArgs "A pager\ndepend = evil".toList) lessStage.root).1 = .ok (raw, gz) ∧
      (∀ info, ([pkginfoName], info) ∉ lessStage.root.listing) ∧
      ¬ Survives some raw gz (pagerArgs "A pager\ndepend = evil".toList) := by
  obtain ⟨⟨raw, gz⟩, hbuild⟩ :=
    @buildGz_lessStage (pagerArgs "A pager\ndepend = evil".toList) (by decide +kernel)
  refine ⟨raw, gz, hbuild, pkginfo_not_mem_lessStage, fun h => ?_⟩
  have hone := Survives.oneLine (fun _ => rfl) lessStage pkginfo_not_mem_lessStage
    (word_of_all (by decide)) (word_of_all (by decide)) (words_pagerArgs _) hbuild h
  exact absurd (hone 'e' (by decide)) (by decide)

end OsMoap.Apk
