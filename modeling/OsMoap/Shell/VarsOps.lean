import OsMoap.Shell.VarsSafety

/-!
# What the Operations on Variables Do

One lemma for each operation, from the search in a chain to a frame of local variables: how the table
changes, in terms of its invariant, and which errors there are.
-/

namespace OsMoap.Shell.Vars

open OsMoap.Lib OsMoap.Pack

/-! ## Setting variables -/

section

variable {static : Bytes → Bool} {hole : Option ℕ} {frames : List (List Localvar)} {log : Notes}
  {cur : Bytes → Cell} {E : ℕ → Option Ent} {st : Vartab}

theorem wp_varAt {vp : ℕ} {v : Var} (h : st.vars.get vp = some v) {Q : Var → Vartab → Prop}
    {Er : Stop → Vartab → Prop} : (varAt vp).wp Q Er st ↔ Q v st := by
  rw [varAt, Program.wp_bind, Program.wp_read, h]
  rfl

theorem wp_textAt {s : ℕ} {text : Bytes} (h : st.texts.get s = some text) {Q : Bytes → Vartab → Prop}
    {Er : Stop → Vartab → Prop} : (textAt s).wp Q Er st ↔ Q text st := by
  rw [textAt, Program.wp_bind, Program.wp_read, h]
  rfl

theorem wp_free {s : ℕ} {text : Bytes} (h : st.texts.get s = some text) {Q : Unit → Vartab → Prop}
    {Er : Stop → Vartab → Prop} :
    (free s).wp Q Er st ↔ Q () { st with texts := st.texts.set s none } := by
  rw [free, Program.wp_bind, wp_textAt h, Program.wp_modify]

theorem wp_strdup (m : Malloc) (text : Bytes) {Q : ℕ → Vartab → Prop} {Er : Stop → Vartab → Prop} :
    (strdup m text).wp Q Er st ↔
      Q (m.text st.texts) { st with texts := st.texts.set (m.text st.texts) (some text) } := by
  rw [strdup, Program.wp_bind, Program.wp_read, Program.wp_bind, Program.wp_modify, Program.wp_pure]

/-- **The search** finds the variable, wherever in its chain it is. -/
theorem wp_findvar (h : Inv static hole frames log cur E st) (name : Bytes)
    {Q : Option ℕ → Vartab → Prop} {Er : Stop → Vartab → Prop}
    (hnone : (∀ vp e, E vp = some e → nameOf e.text ≠ nameOf name) → Q none st)
    (hsome : ∀ vp e, E vp = some e → nameOf e.text = nameOf name → Q (some vp) st) :
    (findvar name (st.vartab (hashvar name))).wp Q Er st := by
  have hall : ∀ vp e, E vp = some e → nameOf e.text = nameOf name → vp ∈ st.vartab (hashvar name) := by
    intro vp e he hname
    rw [h.mem]
    exact ⟨e, he, hashvar_congr hname (h.live vp e he).2.1⟩
  have hin : ∀ vp ∈ st.vartab (hashvar name), ∃ e, E vp = some e := by
    intro vp hvp
    obtain ⟨e, he, -⟩ := (h.mem _ _).mp hvp
    exact ⟨e, he⟩
  -- the variables that have been looked at do not have the name
  have hrest : ∀ chain : List ℕ, (∀ vp ∈ chain, ∃ e, E vp = some e) →
      (∀ vp e, E vp = some e → nameOf e.text = nameOf name → vp ∈ chain) →
      (findvar name chain).wp Q Er st := by
    intro chain
    induction chain with
    | nil =>
      intro _ hmem
      apply hnone
      intro vp e he hname
      exact absurd (hmem vp e he hname) List.not_mem_nil
    | cons vp chain ih =>
      intro hents hmem
      obtain ⟨e, he⟩ := hents vp List.mem_cons_self
      rw [findvar, Program.wp_bind, wp_varAt (h.var vp e he), Program.wp_bind,
        wp_textAt (h.live vp e he).1]
      by_cases hname : nameOf e.text = nameOf name
      · rw [if_pos hname]
        exact hsome vp e he hname
      · rw [if_neg hname]
        apply ih fun vp' hvp' => hents vp' (List.mem_cons_of_mem vp hvp')
        intro vp' e' he' hname'
        rcases List.mem_cons.mp (hmem vp' e' he' hname') with rfl | hvp'
        · obtain rfl : e = e' := Option.some.inj (he.symm.trans he')
          exact absurd hname' hname
        · exact hvp'
  exact hrest _ hin hall

/-- What is not about the table stays. -/
structure Same (st st' : Vartab) : Prop where
  localvars : st'.localvars = st.localvars
  aflag : st'.aflag = st.aflag

/-- Nobody refers to the text. -/
structure Unused (E : ℕ → Option Ent) (frames : List (List Localvar)) (s : ℕ) : Prop where
  vars : ∀ vp e, E vp = some e → e.addr ≠ s
  saved : s ∉ savedTexts frames

/-- The name is fixed in the table. -/
def Pinned (static : Bytes → Bool) (log : Notes) (n : Bytes) : Prop := static n = true ∨ Bound log n

/-- A name of the table is that of a variable with this cell. -/
theorem Inv.cell_of_name (h : Inv static hole frames log cur E st) {vp : ℕ} {e : Ent}
    (he : E vp = some e) {n : Bytes} (hname : nameOf e.text = n) :
    (cur n).exported = e.flags.vexport ∧ (cur n).readonly = e.flags.vreadonly := by
  rw [← hname, h.cell vp e he]
  exact ⟨rfl, rfl⟩

theorem Inv.unused_of_free (h : Inv static hole frames log cur E st) {a : ℕ}
    (ha : st.texts.get a = none) : Unused E frames a where
  vars vp e he heq := by
    have hlive := (h.live vp e he).1
    rw [heq, ha] at hlive
    cases hlive
  saved hmem := by
    obtain ⟨F, hF, lv, hlv, htext⟩ := mem_savedTexts.mp hmem
    obtain ⟨n, c, hv⟩ := h.noted.of_mem hF hlv
    obtain ⟨t, ht, -⟩ := hv.kept a htext
    rw [ha] at ht
    cases ht

theorem Inv.freeText (h : Inv static hole frames log cur E st) {s : ℕ} (hunused : Unused E frames s) :
    Inv static hole frames log cur E { st with texts := st.texts.set s none } := by
  apply h.withTexts
  · exact fun vp e he => Table.get_set_of_ne _ (hunused.vars vp e he) _
  · intro a ha
    apply Table.get_set_of_ne
    rintro rfl
    exact hunused.saved ha

/-- A text that nobody needs may be freed. -/
theorem wp_freeIf (h : Inv static hole frames log cur E st) {s : ℕ} {text : Bytes}
    (hs : st.texts.get s = some text) (hunused : Unused E frames s) (c : Bool)
    {Er : Stop → Vartab → Prop} :
    (freeIf c s).wp (fun _ st' => Same st st' ∧ Inv static hole frames log cur E st') Er st := by
  rw [freeIf]
  split_ifs
  · rw [wp_free hs]
    exact ⟨⟨rfl, rfl⟩, h.freeText hunused⟩
  · exact ⟨⟨rfl, rfl⟩, h⟩

/-- The text that a variable gets is its own. -/
theorem wp_keepText (m : Malloc) {s : ℕ} {text : Bytes} (hs : st.texts.get s = some text)
    (flags : Flags) {Er : Stop → Vartab → Prop} :
    (keepText m s text flags).wp
      (fun a st' => ∃ T, st' = { st with texts := T } ∧ T.get a = some text ∧
        (∀ x, x ≠ a → T.get x = st.texts.get x) ∧ (a = s ∨ st.texts.get a = none)) Er st := by
  rw [keepText]
  split_ifs
  · exact ⟨st.texts, rfl, hs, fun _ _ => rfl, Or.inl rfl⟩
  · rw [wp_strdup]
    refine ⟨_, rfl, Table.get_set_self _ _ _, fun x hx => Table.get_set_of_ne _ hx _, ?_⟩
    exact Or.inr (m.text_free st.texts)

/-- What is freed is what is forgotten. -/
theorem set_of_onlyUnset {flags : Flags} (h : flags.onlyUnset = true) (c : Cell) (text : Bytes) :
    c.set false (flags.value text) flags.vexport flags.vreadonly = {} := by
  rw [Flags.onlyUnset, Bool.and_eq_true, Bool.and_eq_true, Bool.and_eq_true] at h
  obtain ⟨⟨⟨hunset, hexport⟩, hreadonly⟩, -⟩ := h
  rw [Cell.set, Flags.value, if_pos hunset, hexport, hreadonly]
  rfl

theorem set_of_not_onlyUnset {flags : Flags} {pinned : Bool} (hstr : flags.vstrfixed = false)
    (h : (flags.onlyUnset && !pinned) = false) (c : Cell) (text : Bytes) :
    c.set pinned (flags.value text) flags.vexport flags.vreadonly =
      ⟨flags.value text, flags.vexport || c.exported, flags.vreadonly || c.readonly⟩ := by
  have hnone : (flags.value text).isNone = flags.vunset := by
    rw [Flags.value]
    cases flags.vunset with
    | false => rfl
    | true => rfl
  rw [Flags.onlyUnset, hstr, Bool.not_false, Bool.and_true] at h
  rw [Cell.set, hnone, h, if_neg Bool.false_ne_true]

/-- The text that is freed is not needed, or not freed. -/
theorem wp_freeOld {e : Ent} (hlive : st.texts.get e.addr = some e.text)
    {Q : Unit → Vartab → Prop} {Er : Stop → Vartab → Prop}
    (hQ : ∀ T : Table Bytes, (∀ x, (x = e.addr → e.flags.vtextfixed = true) →
      T.get x = st.texts.get x) → Q () { st with texts := T }) :
    (freeIf (!e.flags.vtextfixed) e.addr).wp Q Er st := by
  rw [freeIf]
  split_ifs with hfix
  · rw [wp_free hlive]
    apply hQ
    intro x hx
    apply Table.get_set_of_ne
    intro heq
    rw [hx heq] at hfix
    cases hfix
  · exact hQ st.texts fun _ _ => rfl


/-- How setting a variable ends: it has the new cell, or it is read-only and nothing has changed. -/
def SetBy (static : Bytes → Bool) (hole : Option ℕ) (frames : List (List Localvar)) (log : Notes)
    (cur : Bytes → Cell) (E : ℕ → Option Ent) (st : Vartab) (n : Bytes) (c : Cell)
    (m : Vr (Option ℕ)) : Prop :=
  m.wp
    (fun _ st' => (cur n).readonly = false ∧ Same st st' ∧
      ∃ E', Inv static none frames log (Function.update cur n c) E' st')
    (fun stop st' => (cur n).readonly = true ∧
      stop = .raised (.exerror (some (VarError.readOnly n).message)) ∧ Same st st' ∧
      Inv static hole frames log cur E st')
    st

/-- The variable that is being made local is the one that is set. -/
def HoleOf (E : ℕ → Option Ent) (text : Bytes) (hole : Option ℕ) : Prop :=
  ∀ vp, hole = some vp → ∃ e, E vp = some e ∧ nameOf e.text = nameOf text ∧
    e.flags.vreadonly = false ∧ e.flags.vstrfixed = true

theorem holeOf_none {text : Bytes} : HoleOf E text none :=
  fun vp hvp => absurd hvp.symm (Option.some_ne_none vp)

theorem HoleOf.eq_none {text : Bytes} (hhole : HoleOf E text hole)
    (h : ∀ vp e, hole = some vp → E vp = some e → nameOf e.text = nameOf text →
      e.flags.vreadonly = false → e.flags.vstrfixed = true → False) : hole = none := by
  cases hole with
  | none => rfl
  | some vp =>
    obtain ⟨e, he, hname, hro, hstr⟩ := hhole vp rfl
    exact (h vp e rfl he hname hro hstr).elim

/-- A variable that is not there. -/
theorem wp_setNew (m : Malloc) (h : Inv static hole frames log cur E st) {s : ℕ} {text : Bytes}
    (hs : st.texts.get s = some text) (hgood : GoodName (nameOf text)) (hunused : Unused E frames s)
    (hhole : HoleOf E text hole) {flags : Flags} (hstr : flags.vstrfixed = false)
    (heq : flags.vunset = false → 61 ∈ text) {pinned : Bool}
    (hpinned : pinned = true ↔ Pinned static log (nameOf text))
    (hnone : ∀ vp e, E vp = some e → nameOf e.text ≠ nameOf text) :
    SetBy static hole frames log cur E st (nameOf text)
      ((cur (nameOf text)).set pinned (flags.value text) flags.vexport flags.vreadonly)
      (setNew m s text flags) := by
  obtain rfl : hole = none := hhole.eq_none fun vp e _ he hname _ _ => hnone vp e he hname
  have hempty := h.noCell _ hnone
  obtain ⟨hstatic, hunbound⟩ := h.free_name hnone
  have hfalse : pinned = false := by
    rw [← Bool.not_eq_true, hpinned, Pinned, not_or, hstatic]
    exact ⟨Bool.false_ne_true, hunbound⟩
  subst hfalse
  rw [SetBy, setNew]
  split_ifs with honly
  · rw [Program.wp_bind]
    apply Program.wp_mono (wp_freeIf h hs hunused _)
    · rintro _ st' ⟨hsame, hinv⟩
      refine ⟨by rw [hempty], hsame, E, ?_⟩
      rw [set_of_onlyUnset honly, ← hempty, Function.update_eq_self]
      exact hinv
    · exact fun _ _ hfails => hfails
  · rw [Program.wp_bind]
    apply Program.wp_mono (wp_keepText m hs flags)
    · rintro a st' ⟨T, rfl, hnew, hkeep, ha⟩
      have hafree : Unused E frames a := by
        rcases ha with rfl | ha
        · exact hunused
        · exact h.unused_of_free ha
      rw [Program.wp_bind, Program.wp_read, Program.wp_bind, Program.wp_modify, Program.wp_pure]
      have hinv := h.insert (m.var_free st.vars) hgood hnone hnew hkeep hafree.vars hafree.saved hstr heq
      refine ⟨by rw [hempty], ⟨rfl, rfl⟩,
        Function.update E (m.var st.vars) (some ⟨flags, a, text⟩), ?_⟩
      rw [Bool.not_eq_true] at honly
      rw [set_of_not_onlyUnset hstr (by rw [honly, Bool.false_and]), hempty, Bool.or_false,
        Bool.or_false]
      exact hinv
    · exact fun _ _ hfalse => hfalse

/-- A variable that is freed when it is unset. -/
theorem wp_setFreed (h : Inv static none frames log cur E st) {s : ℕ} {text : Bytes}
    (hs : st.texts.get s = some text) (hunused : Unused E frames s) {vp : ℕ} {e : Ent}
    (he : E vp = some e) (hname : nameOf e.text = nameOf text) (hstr : e.flags.vstrfixed = false)
    {T : Table Bytes} (hT : ∀ x, (x = e.addr → e.flags.vtextfixed = true) → T.get x = st.texts.get x)
    (c : Bool) {Er : Stop → Vartab → Prop} :
    (do
      Program.modify fun st : Vartab =>
        { st with
          vartab := Function.update st.vartab (hashvar text) ((st.vartab (hashvar text)).erase vp)
          vars := st.vars.set vp none }
      freeIf c s
      pure (some vp) : Vr (Option ℕ)).wp
      (fun _ st' => Same st st' ∧
        ∃ E', Inv static none frames log (Function.update cur (nameOf text) {}) E' st') Er
      { st with texts := T } := by
  have hTs : T.get s = some text := by
    rw [hT s fun heq => absurd heq.symm (hunused.vars vp e he), hs]
  have hhash : hashvar text = hashvar e.text :=
    (hashvar_congr hname (h.live vp e he).2.1).symm
  have hunused' : Unused (Function.update E vp none) frames s := by
    refine ⟨fun vp' e' he' => ?_, hunused.saved⟩
    by_cases heq : vp' = vp
    · rw [heq, Function.update_self] at he'
      cases he'
    · exact hunused.vars vp' e' ((Function.update_of_ne heq _ _).symm.trans he')
  have hinv := h.remove he hstr (T := T) fun x hx => hT x fun heq => absurd heq hx
  rw [Program.wp_bind, Program.wp_modify, hhash, Program.wp_bind]
  apply Program.wp_mono (wp_freeIf hinv hTs hunused' c)
  · rintro _ st' ⟨hsame, hinv'⟩
    rw [Program.wp_pure, ← hname]
    exact ⟨⟨hsame.localvars, hsame.aflag⟩, _, hinv'⟩
  · exact fun _ _ hfalse => hfalse

/-- A variable that gets another text. -/
theorem wp_setText (m : Malloc) (h : Inv static hole frames log cur E st) {s : ℕ} {text : Bytes}
    (hs : st.texts.get s = some text) (hunused : Unused E frames s) {vp : ℕ} {e : Ent}
    (he : E vp = some e) (hname : nameOf e.text = nameOf text)
    (hhole : ∀ vp', hole = some vp' → vp' = vp) (hro : e.flags.vreadonly = false) (flags : Flags)
    (hstr : flags.vstrfixed = e.flags.vstrfixed) (heq : flags.vunset = false → 61 ∈ text)
    {T : Table Bytes} (hT : ∀ x, (x = e.addr → e.flags.vtextfixed = true) → T.get x = st.texts.get x)
    {Er : Stop → Vartab → Prop} :
    (do
      let s' ← keepText m s text flags
      Program.modify fun st => { st with vars := st.vars.set vp (some ⟨flags, s'⟩) }
      pure (some vp) : Vr (Option ℕ)).wp
      (fun _ st' => Same st st' ∧ ∃ E', Inv static none frames log
        (Function.update cur (nameOf text) (cellOf flags text)) E' st') Er
      { st with texts := T } := by
  have hTs : T.get s = some text := by
    rw [hT s fun heq => absurd heq.symm (hunused.vars vp e he), hs]
  rw [Program.wp_bind]
  apply Program.wp_mono (wp_keepText m hTs flags)
  · rintro a st' ⟨T', rfl, hnew, hkeep, ha⟩
    have hfree : a ≠ s → T.get a = none := fun hne => ha.resolve_left hne
    have hother : ∀ vp' e', vp' ≠ vp → E vp' = some e' → e'.addr ≠ a := by
      rintro vp' e' hvp he' rfl
      have haddr : e'.addr ≠ e.addr := fun heq => hvp (h.apart vp' e' vp e he' he heq)
      have hnone := hfree (hunused.vars vp' e' he')
      rw [hT _ fun heq => absurd heq haddr, (h.live vp' e' he').1] at hnone
      cases hnone
    have hsaved : a ∉ savedTexts frames := by
      intro hmem
      have hne' : a ≠ s := by
        rintro rfl
        exact hunused.saved hmem
      obtain ⟨F, hF, lv, hlv, htext⟩ := mem_savedTexts.mp hmem
      obtain ⟨n, c, hv⟩ := h.noted.of_mem hF hlv
      obtain ⟨t, ht, -, -, -, hshare⟩ := hv.kept a htext
      have hnone := hfree hne'
      rw [hT a fun heq => (hshare vp e he heq.symm).2, ht] at hnone
      cases hnone
    have hkeep' : ∀ x, x ≠ a → (x = e.addr → e.flags.vtextfixed = true) →
        T'.get x = st.texts.get x := fun x hx hfix => (hkeep x hx).trans (hT x hfix)
    have hinv := h.replace he hhole hname.symm hstr (fun _ => hro) hnew hkeep' hother hsaved heq
    rw [Program.wp_bind, Program.wp_modify, Program.wp_pure, ← hname]
    exact ⟨⟨rfl, rfl⟩, _, hinv⟩
  · exact fun _ _ hfalse => hfalse

/-- A variable that is there. -/
theorem wp_setOld (m : Malloc) (h : Inv static hole frames log cur E st) {s : ℕ} {text : Bytes}
    (hs : st.texts.get s = some text) (hunused : Unused E frames s)
    (hhole : HoleOf E text hole) {flags : Flags} (hstr : flags.vstrfixed = false)
    (heq : flags.vunset = false → 61 ∈ text) {pinned : Bool}
    (hpinned : pinned = true ↔ Pinned static log (nameOf text)) {vp : ℕ} {e : Ent}
    (he : E vp = some e) (hname : nameOf e.text = nameOf text) :
    SetBy static hole frames log cur E st (nameOf text)
      ((cur (nameOf text)).set pinned (flags.value text) flags.vexport flags.vreadonly)
      (setOld m s text flags vp) := by
  obtain ⟨hcexport, hcreadonly⟩ := h.cell_of_name he hname
  -- it is the only one with the name
  have honly : ∀ {vp' e'}, E vp' = some e' → nameOf e'.text = nameOf text → vp' = vp ∧ e' = e := by
    intro vp' e' he' hname'
    obtain rfl := h.unique vp' e' vp e he' he (hname'.trans hname.symm)
    exact ⟨rfl, Option.some.inj (he'.symm.trans he)⟩
  rw [SetBy, setOld, Program.wp_bind, wp_varAt (h.var vp e he)]
  dsimp only
  by_cases hro : e.flags.vreadonly = true
  · rw [if_pos hro, Program.wp_bind]
    obtain rfl : hole = none := by
      apply hhole.eq_none
      intro vp' e' _ he' hname' hro' _
      rw [(honly he' hname').2, hro] at hro'
      cases hro'
    apply Program.wp_mono (wp_freeIf h hs hunused flags.vnosave)
    · rintro _ st' ⟨hsame, hinv⟩
      exact ⟨hcreadonly.trans hro, rfl, hsame, hinv⟩
    · exact fun _ _ hfails => hfails
  · rw [if_neg hro]
    rw [Bool.not_eq_true] at hro
    have hwritable : (cur (nameOf text)).readonly = false := hcreadonly.trans hro
    have hpin : pinned = e.flags.vstrfixed := by
      rw [Bool.eq_iff_iff, hpinned, Pinned, ← hname]
      exact ⟨h.fixed vp e he, h.loose vp e he hro⟩
    subst hpin
    have hunset : ({ flags with vstrfixed := flags.vstrfixed || e.flags.vstrfixed } : Flags).onlyUnset =
        (flags.onlyUnset && !e.flags.vstrfixed) := by
      rw [Flags.onlyUnset, Flags.onlyUnset, hstr, Bool.not_false, Bool.and_true, Bool.false_or]
    rw [Program.wp_bind]
    apply wp_freeOld (h.live vp e he).1
    intro T hT
    rw [hunset]
    split_ifs with hfreed
    · obtain ⟨hflags, hfixed⟩ := Bool.and_eq_true_iff.mp hfreed
      rw [Bool.not_eq_true'] at hfixed
      obtain rfl : hole = none := by
        apply hhole.eq_none
        intro vp' e' _ he' hname' _ hfix'
        rw [(honly he' hname').2, hfixed] at hfix'
        cases hfix'
      apply Program.wp_mono (wp_setFreed h hs hunused he hname hfixed hT _)
      · rintro _ st' ⟨hsame, hinv⟩
        rw [hfixed, set_of_onlyUnset hflags]
        exact ⟨hwritable, hsame, hinv⟩
      · exact fun _ _ hfalse => hfalse
    · have hhole' : ∀ vp', hole = some vp' → vp' = vp := by
        intro vp' hvp'
        obtain ⟨e', he', hname', -⟩ := hhole vp' hvp'
        exact (honly he' hname').1
      have hstr' : (flags.vstrfixed || e.flags.vstrfixed) = e.flags.vstrfixed := by
        rw [hstr, Bool.false_or]
      rw [Bool.not_eq_true] at hfreed
      let flags' : Flags :=
        { flags with
          vexport := flags.vexport || e.flags.vexport
          vreadonly := flags.vreadonly || e.flags.vreadonly
          vstrfixed := flags.vstrfixed || e.flags.vstrfixed }
      apply Program.wp_mono
        (wp_setText m h hs hunused he hname hhole' hro flags' hstr' heq hT)
      · rintro _ st' ⟨hsame, hinv⟩
        refine ⟨hwritable, hsame, ?_⟩
        rw [set_of_not_onlyUnset hstr hfreed, hcexport, hcreadonly]
        exact hinv
      · exact fun _ _ hfalse => hfalse

/-- **Setting a variable**: it gets the value, unless it is read-only, and what is freed is not
needed. -/
theorem wp_setvareq (m : Malloc) (h : Inv static hole frames log cur E st) (haflag : st.aflag = false)
    {s : ℕ} {text : Bytes} (hs : st.texts.get s = some text) (hgood : GoodName (nameOf text))
    (hunused : Unused E frames s) (hhole : HoleOf E text hole) {flags : Flags}
    (hstr : flags.vstrfixed = false) (heq : flags.vunset = false → 61 ∈ text)
    {pinned : Bool} (hpinned : pinned = true ↔ Pinned static log (nameOf text)) :
    SetBy static hole frames log cur E st (nameOf text)
      ((cur (nameOf text)).set pinned (flags.value text) flags.vexport flags.vreadonly)
      (setvareq m s flags) := by
  have hexport : (flags.vexport || st.aflag) = flags.vexport := by rw [haflag, Bool.or_false]
  rw [SetBy, setvareq, Program.wp_bind, Program.wp_read, Program.wp_bind, wp_textAt hs,
    Program.wp_bind, hexport]
  apply wp_findvar h
  · intro hnone
    exact wp_setNew m h hs hgood hunused hhole hstr heq hpinned hnone
  · intro vp e he hname
    exact wp_setOld m h hs hunused hhole hstr heq hpinned he hname

theorem Same.trans {st st' st'' : Vartab} (h : Same st st') (h' : Same st' st'') : Same st st'' :=
  ⟨h'.localvars.trans h.localvars, h'.aflag.trans h.aflag⟩

/-- A copy is nobody's until it is given to a variable. -/
theorem Inv.strdup (h : Inv static hole frames log cur E st) (m : Malloc) (text : Bytes) :
    Inv static hole frames log cur E
      { st with texts := st.texts.set (m.text st.texts) (some text) } ∧
    Unused E frames (m.text st.texts) := by
  have hunused := h.unused_of_free (m.text_free st.texts)
  refine ⟨?_, hunused⟩
  apply h.withTexts
  · exact fun vp e he => Table.get_set_of_ne _ (hunused.vars vp e he) _
  · intro a ha
    apply Table.get_set_of_ne
    rintro rfl
    exact hunused.saved ha

/-- A copy of a text is made, and a variable set by it. -/
theorem wp_setCopy (m : Malloc) (h : Inv static hole frames log cur E st) (haflag : st.aflag = false)
    {text : Bytes} (hgood : GoodName (nameOf text)) (hhole : HoleOf E text hole) {flags : Flags}
    (hstr : flags.vstrfixed = false) (heq : flags.vunset = false → 61 ∈ text)
    {pinned : Bool} (hpinned : pinned = true ↔ Pinned static log (nameOf text)) :
    SetBy static hole frames log cur E st (nameOf text)
      ((cur (nameOf text)).set pinned (flags.value text) flags.vexport flags.vreadonly)
      (do
        let s ← strdup m text
        setvareq m s flags) := by
  obtain ⟨hinv, hunused⟩ := h.strdup m text
  rw [SetBy, Program.wp_bind, wp_strdup]
  apply Program.wp_mono
    (wp_setvareq m hinv haflag (Table.get_set_self _ _ _) hgood hunused hhole hstr heq hpinned)
  · rintro _ st' ⟨hro, hsame, hE⟩
    exact ⟨hro, ⟨hsame.localvars, hsame.aflag⟩, hE⟩
  · rintro stop st' ⟨hro, hstop, hsame, hE⟩
    exact ⟨hro, hstop, ⟨hsame.localvars, hsame.aflag⟩, hE⟩

/-- The text that `setvar` puts together. -/
theorem nameOf_nameeq {name : Bytes} (h : badName name = false) (val : Option Bytes) :
    nameOf (name.take (namelen name) ++ val.elim [] (61 :: ·)) = nameOf name := by
  rw [(nameOf_of_not_badName h).1]
  cases val with
  | none => rw [Option.elim_none, List.append_nil, nameOf_of_notMem (notMem_nameOf name)]
  | some v => exact nameOf_append (notMem_nameOf name) v

/-- **`setvar`** with a name that is one. -/
theorem wp_setvar (m : Malloc) (h : Inv static hole frames log cur E st) (haflag : st.aflag = false)
    {name : Bytes} (hbad : badName name = false) (hhole : HoleOf E name hole) (val : Option Bytes)
    (flags : Flags) (hstr : flags.vstrfixed = false) (hunset : flags.vunset = false) {pinned : Bool}
    (hpinned : pinned = true ↔ Pinned static log (nameOf name)) :
    SetBy static hole frames log cur E st (nameOf name)
      ((cur (nameOf name)).set pinned val flags.vexport flags.vreadonly) (setvar m name val flags) := by
  have hname := nameOf_nameeq hbad val
  have hvalue : Flags.value { flags with vunset := flags.vunset || val.isNone, vnosave := true }
      (name.take (namelen name) ++ val.elim [] (61 :: ·)) = val := by
    rw [(nameOf_of_not_badName hbad).1, Flags.value, hunset]
    cases val with
    | none => rfl
    | some v => exact congrArg some (varEnd_append (notMem_nameOf name) v)
  have hset := @wp_setCopy static hole frames log cur E st m h haflag
    (name.take (namelen name) ++ val.elim [] (61 :: ·)) (hname.symm ▸ good_of_not_badName hbad)
    (by rw [HoleOf, hname]; exact hhole)
    { flags with vunset := flags.vunset || val.isNone, vnosave := true } hstr
    (by
      intro hset
      cases val with
      | none => exact absurd hset (by rw [hunset]; exact Bool.noConfusion)
      | some v => exact List.mem_append_right _ List.mem_cons_self)
    pinned (by rw [hname]; exact hpinned)
  rw [hname, hvalue] at hset
  rw [setvar, if_neg (by rw [hbad]; exact Bool.false_ne_true)]
  exact hset

/-! ## The beginning -/

/-- The cells of `varinit`, and the names that are never forgotten. -/
def initCells : List (Flags × Bytes) → (Bytes → Cell) → Bytes → Cell
  | [], cur => cur
  | v :: rest, cur => initCells rest (Function.update cur (nameOf v.2) (cellOf v.1 v.2))

def initStatic : List (Flags × Bytes) → (Bytes → Bool) → Bytes → Bool
  | [], static => static
  | v :: rest, static => initStatic rest fun n => n == nameOf v.2 || static n

/-- What a variable of `varinit` is like. -/
def InitVar (v : Flags × Bytes) : Prop :=
  GoodName (nameOf v.2) ∧ v.1.vstrfixed = true ∧ (v.1.vunset = false → 61 ∈ v.2)

/-- **`initvar`**: each name is there once, and stays. -/
theorem wp_initvar (m : Malloc) {init : List (Flags × Bytes)} (h : Inv static none [] [] cur E st)
    (hinit : ∀ v ∈ init, InitVar v) (hnodup : (init.map fun v => nameOf v.2).Nodup)
    (hnew : ∀ v ∈ init, ∀ vp e, E vp = some e → nameOf e.text ≠ nameOf v.2)
    {Er : Stop → Vartab → Prop} :
    (initvar m init).wp (fun _ st' => Same st st' ∧
      ∃ E', Inv (initStatic init static) none [] [] (initCells init cur) E' st') Er st := by
  induction init generalizing static cur E st with
  | nil => exact ⟨⟨rfl, rfl⟩, E, h⟩
  | cons v init ih =>
    obtain ⟨flags, text⟩ := v
    obtain ⟨hgood, hstr, heq⟩ := hinit _ List.mem_cons_self
    rw [List.map_cons, List.nodup_cons] at hnodup
    have hafree := h.unused_of_free (m.text_free st.texts)
    have hthere := h.insert (m.var_free st.vars) hgood (hnew _ List.mem_cons_self)
      (Table.get_set_self st.texts _ (some text)) (fun x hx => Table.get_set_of_ne _ hx _) hafree.vars
      hafree.saved (rfl : Flags.vstrfixed { flags with vstrfixed := false } = false) heq
    have hstatic := hthere.makeStatic (Function.update_self _ _ _)
    rw [Function.update_idem, Table.set_set] at hstatic
    have hflags : { flags with vstrfixed := true } = flags := by rw [← hstr]
    dsimp only at hstatic
    rw [hflags] at hstatic
    rw [initvar, Program.wp_bind, wp_strdup, Program.wp_bind, Program.wp_modify]
    apply Program.wp_mono (ih hstatic (fun v hv => hinit v (List.mem_cons_of_mem _ hv)) hnodup.2 ?_)
    · rintro _ st' ⟨hsame, hE⟩
      exact ⟨⟨hsame.localvars, hsame.aflag⟩, hE⟩
    · exact fun _ _ hfails => hfails
    · intro v hv vp' e' he'
      by_cases hvp : vp' = m.var st.vars
      · rw [hvp, Function.update_self] at he'
        obtain rfl := Option.some.inj he'
        rintro hname
        exact hnodup.1 (List.mem_map.mpr ⟨v, hv, hname.symm⟩)
      · rw [Function.update_of_ne hvp] at he'
        exact hnew v (List.mem_cons_of_mem _ hv) vp' e' he'

/-! ## Local variables -/

/-- The variables that are local already. -/
theorem wp_isLocal (h : Inv static hole frames log cur E st) (name : Bytes) {F : List Localvar}
    {frames' : List (List Localvar)} {notes : List (Bytes × Cell)} {log' : Notes}
    (hnoted : Noted static hole E st.texts.get (F :: frames') (notes :: log'))
    {Er : Stop → Vartab → Prop} :
    (isLocal name F).wp (fun b st' => st' = st ∧ (b = true ↔ nameOf name ∈ notes.map Prod.fst)) Er
      st := by
  induction F generalizing notes with
  | nil =>
    cases hnoted with
    | push _ => exact ⟨rfl, fun hfalse => absurd hfalse Bool.false_ne_true, fun hmem => nomatch hmem⟩
  | cons lv F ih =>
    cases hnoted with
    | @note _ n c _ notes _ _ hv hn hstr hnoted =>
    obtain ⟨e, he, hname, -⟩ := hv.var
    rw [isLocal, Program.wp_bind, wp_varAt (h.var _ e he), Program.wp_bind, wp_textAt (h.live _ e he).1]
    split_ifs with heq
    · refine ⟨rfl, fun _ => ?_, fun _ => rfl⟩
      rw [← heq, hname]
      exact List.mem_cons_self
    · apply Program.wp_mono (ih hnoted)
      · rintro b st' ⟨rfl, hb⟩
        refine ⟨rfl, ?_⟩
        rw [hb, List.map_cons, List.mem_cons, or_iff_right]
        rintro hnew
        exact heq (hname.trans hnew.symm)
      · exact fun _ _ hfails => hfails

/-- **A variable that was not there** is there, and local. -/
theorem wp_setNewLocal (m : Malloc) {F : List Localvar} {notes : List (Bytes × Cell)}
    (h : Inv static none (F :: frames) (notes :: log) cur E st) (haflag : st.aflag = false)
    {text : Bytes} (hgood : GoodName (nameOf text))
    (hnone : ∀ vp e, E vp = some e → nameOf e.text ≠ nameOf text) {flags : Flags}
    (hstr : flags.vstrfixed = true) (heq : flags.vunset = false → 61 ∈ text)
    {Er : Stop → Vartab → Prop} :
    (do
      let s ← strdup m text
      setvareq m s flags).wp
      (fun r st' => Same st st' ∧ ∃ vp E', r = some vp ∧
        Inv static none ((⟨vp, { vunset := true }, none⟩ :: F) :: frames)
          (((nameOf text, {}) :: notes) :: log)
          (Function.update cur (nameOf text) (cellOf flags text)) E' st') Er st := by
  obtain ⟨hinv, hunused⟩ := h.strdup m text
  rw [Program.wp_bind, wp_strdup, setvareq, Program.wp_bind, Program.wp_read, Program.wp_bind,
    wp_textAt (Table.get_set_self _ _ _), Program.wp_bind]
  have hexport : (flags.vexport || st.aflag) = flags.vexport := by rw [haflag, Bool.or_false]
  dsimp only
  rw [hexport]
  apply wp_findvar hinv
  · intro _
    have honly : ¬ flags.onlyUnset = true := by
      rw [Flags.onlyUnset, hstr, Bool.not_true, Bool.and_false]
      exact Bool.false_ne_true
    dsimp only [Option.elim_none]
    rw [setNew, if_neg honly, Program.wp_bind]
    apply Program.wp_mono (wp_keepText m (Table.get_set_self _ _ _) flags)
    · rintro a st' ⟨T, rfl, hnew, hkeep, ha⟩
      have hafree : Unused E (F :: frames) a := by
        rcases ha with rfl | ha
        · exact hunused
        · exact hinv.unused_of_free ha
      rw [Program.wp_bind, Program.wp_read, Program.wp_bind, Program.wp_modify, Program.wp_pure]
      -- it is there first, and then held on to
      have hthere := @Inv.insert static (F :: frames) (notes :: log) cur E _ hinv (m.var st.vars) a
        { flags with vstrfixed := false } text T (m.var_free st.vars) hgood hnone hnew hkeep hafree.vars
        hafree.saved rfl heq
      have hlocal := hthere.pin (Function.update_self _ _ _) rfl
      rw [Function.update_idem, Table.set_set] at hlocal
      have hflags : { flags with vstrfixed := true } = flags := by rw [← hstr]
      dsimp only at hlocal
      rw [hflags] at hlocal
      exact ⟨⟨rfl, rfl⟩, m.var st.vars, _, rfl, hlocal⟩
    · exact fun _ _ hfails => hfails
  · intro vp e he hname
    exact absurd hname (hnone vp e he)

/-- **A local variable is given up**: what was noted of it holds again. -/
theorem wp_poplocalvar (m : Malloc) {lv : Localvar} {F : List Localvar} {n : Bytes} {c : Cell}
    {notes : List (Bytes × Cell)}
    (h : Inv static none ((lv :: F) :: frames) (((n, c) :: notes) :: log) cur E st)
    (haflag : st.aflag = false) {Er : Stop → Vartab → Prop} :
    (poplocalvar m lv).wp (fun _ st' => Same st st' ∧ ∃ E', Inv static none (F :: frames)
      (notes :: log) (Function.update cur n c) E' st') Er st := by
  have hnoted := h.noted
  cases hnoted with
  | note hv hn hstr _ =>
  obtain ⟨e, he, hname, -⟩ := hv.var
  rw [poplocalvar, Program.wp_bind, wp_varAt (h.var _ e he)]
  dsimp only
  split_ifs with hflags
  · -- it was not there before
    obtain ⟨rfl, -, hinv⟩ := h.unpin he hflags
    have hbad : badName e.text = false := badName_of_good (hname.symm ▸ hv.good)
    have hunpinned : false = true ↔ Pinned static (notes :: log) (nameOf e.text) := by
      rw [Pinned, bound_cons, hname, or_iff_right hn, ← hstr, hflags]
    have hset := wp_setvar m hinv haflag hbad holeOf_none none {} rfl rfl hunpinned
    rw [Program.wp_bind, Program.wp_modify, Program.wp_bind,
      wp_textAt (hinv.live _ _ (Function.update_self _ _ _)).1, unsetvar, setvar0,
      Program.wp_bind]
    apply Program.wp_mono hset
    · rintro _ st' ⟨-, hsame, E', hinv'⟩
      rw [hname, Function.update_idem] at hinv'
      exact ⟨⟨hsame.localvars, hsame.aflag⟩, E', hinv'⟩
    · rintro _ _ ⟨hro, -⟩
      rw [hname, Function.update_self] at hro
      exact absurd hro Bool.false_ne_true
  · cases htext : lv.text with
    | none => exact absurd (hv.absent htext).1 hflags
    | some a =>
      dsimp only
      rw [Program.wp_bind]
      apply wp_freeOld (h.live _ e he).1
      intro T hT
      rw [Program.wp_modify]
      obtain ⟨text, hinv⟩ := h.restore he htext fun x hx => hT x fun heq => absurd heq hx
      exact ⟨⟨rfl, rfl⟩, _, hinv⟩

/-- **A frame is given up**, the variable that was made local last first. -/
theorem wp_poplocalvarsLoop (m : Malloc) {F : List Localvar} {notes : List (Bytes × Cell)}
    (h : Inv static none (F :: frames) (notes :: log) cur E st) (haflag : st.aflag = false)
    {Er : Stop → Vartab → Prop} :
    (poplocalvarsLoop m F).wp (fun _ st' => Same st st' ∧
      ∃ E', Inv static none frames log (undo cur notes) E' st') Er st := by
  induction F generalizing notes cur E st with
  | nil =>
    have hnoted := h.noted
    cases hnoted with
    | push _ => exact ⟨⟨rfl, rfl⟩, E, h.pop⟩
  | cons lv F ih =>
    have hnoted := h.noted
    cases hnoted with
    | note _ _ _ _ =>
    rw [poplocalvarsLoop, Program.wp_bind]
    apply Program.wp_mono (wp_poplocalvar m h haflag)
    · rintro _ st' ⟨hsame, E', hinv⟩
      apply Program.wp_mono (ih hinv (hsame.aflag.trans haflag))
      · rintro _ st'' ⟨hsame', hE⟩
        exact ⟨hsame.trans hsame', hE⟩
      · exact fun _ _ hfails => hfails
    · exact fun _ _ hfails => hfails

/-! ## Reading -/

theorem wp_lookupvar (h : Inv static hole frames log cur E st) (name : Bytes)
    {Er : Stop → Vartab → Prop} :
    (lookupvar name).wp (fun val st' => st' = st ∧ val = (cur (nameOf name)).value) Er st := by
  rw [lookupvar, Program.wp_bind, Program.wp_read, Program.wp_bind]
  apply wp_findvar h
  · intro hnone
    exact ⟨rfl, by rw [h.noCell _ hnone]⟩
  · intro vp e he hname
    dsimp only
    rw [Program.wp_bind, wp_varAt (h.var vp e he), Program.wp_bind, wp_textAt (h.live vp e he).1,
      ← hname, h.cell vp e he]
    exact ⟨rfl, rfl⟩

/-- What `listvars` gives of a variable. -/
def Shown (lp : List Bytes) (e : Ent) : Prop :=
  (e.flags.vexport && !e.flags.vunset && !lp.contains e.text) = true

theorem wp_listchain (h : Inv static hole frames log cur E st) (lp : List Bytes) {chain : List ℕ}
    (hchain : ∀ vp ∈ chain, ∃ e, E vp = some e) {Er : Stop → Vartab → Prop} :
    (listchain lp chain).wp (fun texts st' => st' = st ∧ ∀ text, text ∈ texts ↔
      ∃ vp ∈ chain, ∃ e, E vp = some e ∧ e.text = text ∧ Shown lp e) Er st := by
  induction chain with
  | nil =>
    refine ⟨rfl, fun text => ⟨fun hmem => absurd hmem List.not_mem_nil, ?_⟩⟩
    rintro ⟨vp, hvp, -⟩
    exact absurd hvp List.not_mem_nil
  | cons vp chain ih =>
    obtain ⟨e, he⟩ := hchain vp List.mem_cons_self
    rw [listchain, Program.wp_bind, wp_varAt (h.var vp e he), Program.wp_bind,
      wp_textAt (h.live vp e he).1, Program.wp_bind]
    apply Program.wp_mono (ih fun vp' hvp' => hchain vp' (List.mem_cons_of_mem vp hvp'))
    · rintro texts st' ⟨rfl, htexts⟩
      have hcons : ∀ text, (∃ vp' ∈ vp :: chain, ∃ e, E vp' = some e ∧ e.text = text ∧ Shown lp e) ↔
          (e.text = text ∧ Shown lp e) ∨ text ∈ texts := by
        intro text
        rw [htexts]
        constructor
        · rintro ⟨vp', hvp', e', he', hrest⟩
          rcases List.mem_cons.mp hvp' with rfl | hvp'
          · obtain rfl : e = e' := Option.some.inj (he.symm.trans he')
            exact Or.inl hrest
          · exact Or.inr ⟨vp', hvp', e', he', hrest⟩
        · rintro (hrest | ⟨vp', hvp', hrest⟩)
          · exact ⟨vp, List.mem_cons_self, e, he, hrest⟩
          · exact ⟨vp', List.mem_cons_of_mem vp hvp', hrest⟩
      split_ifs with hshown
      · refine ⟨rfl, fun text => ?_⟩
        rw [List.mem_cons, hcons, Shown, and_iff_left hshown, eq_comm]
      · refine ⟨rfl, fun text => ?_⟩
        rw [hcons, or_iff_right fun hrest => hshown hrest.2]
    · exact fun _ _ hfails => hfails

theorem wp_listchains (h : Inv static hole frames log cur E st) (lp : List Bytes) (bs : List ℕ)
    {Er : Stop → Vartab → Prop} :
    (listchains lp (bs.map st.vartab)).wp (fun texts st' => st' = st ∧ ∀ text, text ∈ texts ↔
      ∃ vp e, E vp = some e ∧ hashvar e.text ∈ bs ∧ e.text = text ∧ Shown lp e) Er st := by
  induction bs with
  | nil =>
    refine ⟨rfl, fun text => ⟨fun hmem => absurd hmem List.not_mem_nil, ?_⟩⟩
    rintro ⟨vp, e, -, hb, -⟩
    exact absurd hb List.not_mem_nil
  | cons b bs ih =>
    rw [List.map_cons, listchains, Program.wp_bind]
    have hchain : ∀ vp ∈ st.vartab b, ∃ e, E vp = some e := by
      intro vp hvp
      obtain ⟨e, he, -⟩ := (h.mem b vp).mp hvp
      exact ⟨e, he⟩
    apply Program.wp_mono (wp_listchain h lp hchain)
    · rintro first st' ⟨rfl, hfirst⟩
      rw [Program.wp_bind]
      apply Program.wp_mono ih
      · rintro more st'' ⟨rfl, hmore⟩
        refine ⟨rfl, fun text => ?_⟩
        rw [List.mem_append, hfirst, hmore]
        constructor
        · rintro (⟨vp, hvp, e, he, hrest⟩ | ⟨vp, e, he, hb, hrest⟩)
          · obtain ⟨e', he', hhash⟩ := (h.mem b vp).mp hvp
            obtain rfl : e = e' := Option.some.inj (he.symm.trans he')
            exact ⟨vp, e, he, hhash ▸ List.mem_cons_self, hrest⟩
          · exact ⟨vp, e, he, List.mem_cons_of_mem b hb, hrest⟩
        · rintro ⟨vp, e, he, hb, hrest⟩
          rcases List.mem_cons.mp hb with hhash | hb
          · exact Or.inl ⟨vp, (h.mem b vp).mpr ⟨e, he, hhash⟩, e, he, hrest⟩
          · exact Or.inr ⟨vp, e, he, hb, hrest⟩
      · exact fun _ _ hfails => hfails
    · exact fun _ _ hfails => hfails

/-- What a program finds under a name: the variable, if it is exported, or an assignment of its own
command, if that is what the variable holds. -/
def environment (cur : Bytes → Cell) (lp : List Bytes) (n : Bytes) : Option Bytes :=
  match (cur n).value with
  | none => getenv lp n
  | some v => if (cur n).exported && !lp.contains (n ++ 61 :: v) then some v else getenv lp n

theorem getenv_append (texts lp : List Bytes) (n : Bytes) :
    getenv (texts ++ lp) n = (getenv texts n).or (getenv lp n) := by
  rw [getenv, List.find?_append, Option.map_or]
  rfl

/-- One text of the name, or none. -/
theorem getenv_of_unique {texts : List Bytes} {n : Bytes} {o : Option Bytes}
    (hsome : ∀ v, o = some v → n ++ 61 :: v ∈ texts)
    (hall : ∀ text ∈ texts, nameOf text = n → 61 ∈ text → o = some (varEnd text))
    (hn : 61 ∉ n) : getenv texts n = o := by
  have hfind : ∀ text, texts.find? (fun text => nameOf text == n && text.contains 61) = some text →
      o = some (varEnd text) := by
    intro text hfound
    have hp := List.find?_some hfound
    rw [Bool.and_eq_true, beq_iff_eq, List.contains_iff_mem] at hp
    exact hall text (List.mem_of_find?_eq_some hfound) hp.1 hp.2
  rw [getenv]
  cases hfound : texts.find? (fun text => nameOf text == n && text.contains 61) with
  | some text => exact (hfind text hfound).symm
  | none =>
    cases ho : o with
    | none => rfl
    | some v =>
      have hmiss := List.find?_eq_none.mp hfound _ (hsome v ho)
      rw [Bool.and_eq_true, beq_iff_eq, List.contains_iff_mem, nameOf_append hn] at hmiss
      exact absurd ⟨rfl, List.mem_append_right _ List.mem_cons_self⟩ hmiss

/-- **The environment.** -/
theorem wp_listvars (h : Inv static hole frames log cur E st) (lp : List Bytes)
    {Er : Stop → Vartab → Prop} :
    (listvars lp).wp (fun env st' => st' = st ∧ getenv env = environment cur lp) Er st := by
  rw [listvars, Program.wp_bind, Program.wp_read, Program.wp_bind]
  apply Program.wp_mono (wp_listchains h lp (List.range vtabsize))
  · rintro texts st' ⟨rfl, htexts⟩
    refine ⟨rfl, ?_⟩
    funext n
    rw [getenv_append]
    have hrange : ∀ text, hashvar text ∈ List.range vtabsize := fun text =>
      List.mem_range.mpr (Nat.mod_lt _ (by decide))
    by_cases hn : ∃ vp e, E vp = some e ∧ nameOf e.text = n
    · obtain ⟨vp, e, he, rfl⟩ := hn
      have hname := notMem_nameOf e.text
      have hshown : getenv texts (nameOf e.text) =
          if e.flags.vexport && !e.flags.vunset && !lp.contains e.text then some (varEnd e.text)
          else none := by
        apply getenv_of_unique _ _ hname
        · intro v hv
          split_ifs at hv with hif
          obtain rfl : varEnd e.text = v := Option.some.inj hv
          rw [Bool.and_eq_true, Bool.and_eq_true, Bool.not_eq_true', Bool.not_eq_true'] at hif
          rw [nameOf_append_varEnd (h.eq vp e he hif.1.2), htexts]
          refine ⟨vp, e, he, hrange _, rfl, ?_⟩
          rw [Shown, hif.1.1, hif.1.2, hif.2]
          rfl
        · intro text hmem hnt _
          obtain ⟨vp', e', he', -, rfl, hshown⟩ := (htexts text).mp hmem
          obtain rfl := h.unique vp' e' vp e he' he hnt
          obtain rfl : e = e' := Option.some.inj (he.symm.trans he')
          rw [Shown] at hshown
          rw [if_pos hshown]
      rw [hshown, environment, h.cell vp e he, cellOf, Flags.value]
      cases hunset : e.flags.vunset with
      | true =>
        rw [Bool.not_true, Bool.and_false, Bool.false_and, if_neg Bool.false_ne_true, if_pos rfl]
        rfl
      | false =>
        rw [Bool.not_false, Bool.and_true, if_neg Bool.false_ne_true]
        dsimp only
        rw [nameOf_append_varEnd (h.eq vp e he hunset)]
        split_ifs
        · rfl
        · rfl
    · have hnone : getenv texts n = none := by
        rw [getenv, Option.map_eq_none_iff, List.find?_eq_none]
        intro text hmem hp
        rw [Bool.and_eq_true, beq_iff_eq] at hp
        obtain ⟨vp, e, he, -, rfl, -⟩ := (htexts text).mp hmem
        exact hn ⟨vp, e, he, hp.1⟩
      have hempty := h.noCell n fun vp e he heq => hn ⟨vp, e, he, heq⟩
      rw [hnone, Option.none_or, environment, hempty]
  · exact fun _ _ hfails => hfails

end

end OsMoap.Shell.Vars
