import OsMoap.Shell.Vars
import Mathlib.Data.List.TakeWhile
import Mathlib.Tactic.SplitIfs

/-!
# Variables Are Never Freed Too Early

A local variable leaves two traces: its old text in `localvar_stack`, and flags that keep `setvareq` from
freeing either the text or the variable.  `Inv` says how the two go together: what the chains hold, and
what each note of the stack stands for.  While a variable is being made local its old text is both noted
and still in use; `hole` names that variable.

Each change of the table is one lemma, and what it does to the current cells and the notes is stated
there.
-/

namespace OsMoap.Shell.Vars

open OsMoap.Lib OsMoap.Pack

/-! ## Names -/

theorem notMem_nameOf (text : Bytes) : 61 ∉ nameOf text := by
  intro hmem
  have hne := List.mem_takeWhile_imp hmem
  exact absurd rfl (bne_iff_ne.mp hne)

theorem nameOf_of_notMem {text : Bytes} (h : 61 ∉ text) : nameOf text = text := by
  apply List.takeWhile_eq_self_iff.mpr
  intro c hc
  apply bne_iff_ne.mpr
  rintro rfl
  exact h hc

theorem nameOf_append {name : Bytes} (h : 61 ∉ name) (value : Bytes) :
    nameOf (name ++ 61 :: value) = name := by
  rw [nameOf, List.takeWhile_append_of_pos]
  · rw [List.takeWhile_cons_of_neg (by decide), List.append_nil]
  · intro c hc
    apply bne_iff_ne.mpr
    rintro rfl
    exact h hc

theorem varEnd_append {name : Bytes} (h : 61 ∉ name) (value : Bytes) :
    varEnd (name ++ 61 :: value) = value := by
  rw [varEnd, List.dropWhile_append_of_pos]
  · rw [List.dropWhile_cons_of_neg (by decide), List.tail_cons]
  · intro c hc
    apply bne_iff_ne.mpr
    rintro rfl
    exact h hc

/-- A text with a sign is its name and its value. -/
theorem nameOf_append_varEnd {text : Bytes} (h : 61 ∈ text) :
    nameOf text ++ 61 :: varEnd text = text := by
  have hsplit := List.takeWhile_append_dropWhile (p := (· != (61 : UInt8))) (l := text)
  cases hdrop : text.dropWhile (· != 61) with
  | nil =>
    rw [hdrop, List.append_nil] at hsplit
    rw [← hsplit] at h
    exact absurd h (notMem_nameOf text)
  | cons c rest =>
    have hc := List.head?_dropWhile_not (· != (61 : UInt8)) text
    rw [hdrop] at hc
    have heq : c = 61 := by simpa using hc
    rw [hdrop, heq] at hsplit
    rw [varEnd, hdrop, List.tail_cons]
    exact hsplit

/-- The chain depends on the name alone. -/
theorem hashvar_congr {p q : Bytes} (h : nameOf p = nameOf q) (hne : nameOf p ≠ []) :
    hashvar p = hashvar q := by
  have hhead : ∀ {r : Bytes}, nameOf r ≠ [] → r.headD 0 = (nameOf r).headD 0 := by
    intro r hr
    cases r with
    | nil => rfl
    | cons c cs =>
      rw [nameOf, List.takeWhile_cons] at hr ⊢
      split_ifs at hr ⊢
      · rfl
      · exact absurd rfl hr
  have hne' : nameOf q ≠ [] := by
    rw [← h]
    exact hne
  rw [hashvar, hashvar, hhead hne, hhead hne', h]

theorem ne_of_isInName {c : UInt8} (h : isInName c = true) : (c != 61) = true := by
  apply bne_iff_ne.mpr
  rintro rfl
  exact absurd h (by decide)

/-- What `setvar` accepts begins with a name, and nothing but `=` follows it. -/
theorem nameOf_of_not_badName {name : Bytes} (h : badName name = false) :
    name.take (namelen name) = nameOf name ∧ nameOf name ≠ [] := by
  rw [badName, Bool.or_eq_false_iff, decide_eq_false_iff_not, decide_eq_false_iff_not,
    not_ne_iff] at h
  obtain ⟨hpos, hend⟩ := h
  have hrest : (name.drop (endofname name)).takeWhile (· != 61) = [] := by
    apply List.eq_nil_of_length_eq_zero
    rw [namelen] at hend
    omega
  rw [hend] at hpos ⊢
  cases name with
  | nil => exact absurd rfl hpos
  | cons c cs =>
    rw [endofname] at hpos hrest ⊢
    split_ifs at hpos hrest ⊢ with hc
    · rw [Nat.add_comm 1, List.drop_succ_cons] at hrest
      rw [Nat.add_comm 1, List.take_succ_cons]
      -- the rest of the name, and what comes after it
      have hsplit := List.takeWhile_append_dropWhile (p := isInName) (l := cs)
      have hname : ∀ c ∈ cs.takeWhile isInName, (c != 61) = true := fun c hmem =>
        ne_of_isInName (List.mem_takeWhile_imp hmem)
      generalize cs.takeWhile isInName = tw at hsplit hrest hname ⊢
      generalize cs.dropWhile isInName = dw at hsplit
      subst hsplit
      rw [List.drop_left] at hrest
      rw [List.take_left, nameOf, List.takeWhile_cons_of_pos, List.takeWhile_append_of_pos hname,
        hrest, List.append_nil]
      · exact ⟨rfl, List.cons_ne_nil c tw⟩
      · apply ne_of_isInName
        rw [isInName, hc, Bool.true_or]
    · exact absurd rfl hpos

theorem endofname_take (name : Bytes) : endofname (name.take (endofname name)) = endofname name := by
  cases name with
  | nil => rfl
  | cons c cs =>
    rw [endofname]
    split_ifs with hc
    · have hprefix : cs.take (cs.takeWhile isInName).length = cs.takeWhile isInName := by
        have hsplit := List.takeWhile_append_dropWhile (p := isInName) (l := cs)
        generalize cs.takeWhile isInName = tw at hsplit ⊢
        rw [← hsplit, List.take_left]
      have hself : (cs.takeWhile isInName).takeWhile isInName = cs.takeWhile isInName :=
        List.takeWhile_eq_self_iff.mpr fun c hmem => List.mem_takeWhile_imp hmem
      rw [Nat.add_comm 1, List.take_succ_cons, hprefix, endofname, if_pos hc, hself, Nat.add_comm 1]
    · rfl

theorem good_of_not_badName {name : Bytes} (h : badName name = false) : GoodName (nameOf name) := by
  obtain ⟨htake, hne⟩ := nameOf_of_not_badName h
  rw [badName, Bool.or_eq_false_iff, decide_eq_false_iff_not, decide_eq_false_iff_not,
    not_ne_iff] at h
  obtain ⟨-, hend⟩ := h
  rw [hend] at htake
  refine ⟨hne, ?_⟩
  rw [← htake, endofname_take, List.length_take]
  have hle : endofname name ≤ name.length := by
    cases name with
    | nil => exact Nat.le_refl 0
    | cons c cs =>
      rw [endofname, List.length_cons]
      have hlen := (List.takeWhile_prefix isInName (l := cs)).length_le
      split_ifs
      · omega
      · omega
  rw [Nat.min_eq_left hle]

theorem GoodName.notMem {name : Bytes} (h : GoodName name) : 61 ∉ name := by
  obtain ⟨hne, hend⟩ := h
  cases name with
  | nil => exact absurd rfl hne
  | cons c cs =>
    rw [endofname] at hend
    split_ifs at hend with hc
    · rw [List.length_cons] at hend
      have hall : (cs.takeWhile isInName).length = cs.length := by omega
      have hself : cs.takeWhile isInName = cs := (List.takeWhile_prefix isInName).eq_of_length hall
      have hpos : ∀ c ∈ cs, isInName c = true := List.takeWhile_eq_self_iff.mp hself
      intro hmem
      rcases List.mem_cons.mp hmem with heq | hmem
      · rw [← heq] at hc
        exact absurd hc (by decide)
      · exact absurd (hpos _ hmem) (by decide)

theorem badName_of_good {text : Bytes} (h : GoodName (nameOf text)) : badName text = false := by
  obtain ⟨hne, hend⟩ := h
  have hsplit := List.takeWhile_append_dropWhile (p := (· != (61 : UInt8))) (l := text)
  have hrest : text.dropWhile (· != 61) = [] ∨ ∃ v, text.dropWhile (· != 61) = 61 :: v := by
    cases hdrop : text.dropWhile (· != 61) with
    | nil => exact Or.inl rfl
    | cons c v =>
      have hc := List.head?_dropWhile_not (· != (61 : UInt8)) text
      rw [hdrop] at hc
      have heq : c = 61 := by simpa using hc
      exact Or.inr ⟨v, by rw [heq]⟩
  rw [nameOf] at hne hend
  generalize text.takeWhile (· != 61) = name at hsplit hne hend
  generalize text.dropWhile (· != 61) = rest at hsplit hrest
  subst hsplit
  have hstop : rest.takeWhile isInName = [] ∧ rest.takeWhile (· != 61) = [] := by
    rcases hrest with rfl | ⟨v, rfl⟩
    · exact ⟨rfl, rfl⟩
    · exact ⟨List.takeWhile_cons_of_neg (by decide), List.takeWhile_cons_of_neg (by decide)⟩
  have hwhole : endofname (name ++ rest) = name.length := by
    cases name with
    | nil => exact absurd rfl hne
    | cons c cs =>
      rw [endofname] at hend
      rw [List.cons_append, endofname]
      split_ifs at hend ⊢ with hc
      · rw [List.length_cons] at hend
        have hall : (cs.takeWhile isInName).length = cs.length := by omega
        have hself : cs.takeWhile isInName = cs :=
          (List.takeWhile_prefix isInName).eq_of_length hall
        have hpos : ∀ c ∈ cs, isInName c = true := List.takeWhile_eq_self_iff.mp hself
        rw [List.takeWhile_append_of_pos hpos, hstop.1, List.append_nil, List.length_cons,
          Nat.add_comm]
  have hlen : namelen (name ++ rest) = name.length := by
    rw [namelen, hwhole, List.drop_left, hstop.2, List.length_nil, Nat.add_zero]
  rw [badName, hlen, hwhole]
  have hpos : name.length ≠ 0 := fun hzero => hne (List.eq_nil_of_length_eq_zero hzero)
  rw [decide_eq_false hpos, Bool.false_or]
  exact decide_eq_false (not_not_intro rfl)

/-! ## The table -/

/-- What the shell says about a variable. -/
structure Cell where
  value : Option Bytes := none
  exported : Bool := false
  readonly : Bool := false
  deriving DecidableEq

/-- What setting it or unsetting it makes of it: what is unset, and is nothing else, is forgotten,
unless something holds on to it. -/
def Cell.set (c : Cell) (pinned : Bool) (value : Option Bytes) (exported readonly : Bool) : Cell :=
  if value.isNone && !exported && !readonly && !pinned then {}
  else ⟨value, exported || c.exported, readonly || c.readonly⟩

/-- What is set by a text. -/
def Flags.value (flags : Flags) (text : Bytes) : Option Bytes :=
  if flags.vunset then none else some (varEnd text)

def cellOf (flags : Flags) (text : Bytes) : Cell :=
  ⟨flags.value text, flags.vexport, flags.vreadonly⟩

/-- A variable of the table: its flags, and its text and where it is. -/
structure Ent where
  flags : Flags
  addr : ℕ
  text : Bytes

abbrev Notes := List (List (Bytes × Cell))

/-- Some frame has a note of the name. -/
def Bound (log : Notes) (n : Bytes) : Prop := ∃ notes ∈ log, n ∈ notes.map Prod.fst

section

variable (static : Bytes → Bool) (hole : Option ℕ) (E : ℕ → Option Ent) (T : ℕ → Option Bytes)

/-- A local variable is in the table, where it stays, and its old text is there to be put back.  Only
the variable that is being made local has this text as well. -/
structure NotedVar (lv : Localvar) (n : Bytes) (c : Cell) : Prop where
  var : ∃ e, E lv.vp = some e ∧ nameOf e.text = n ∧ e.flags.vstrfixed = true
  good : GoodName n
  absent : lv.text = none → lv.flags = { vunset := true } ∧ c = {}
  kept : ∀ a, lv.text = some a → ∃ t, T a = some t ∧ nameOf t = n ∧ c = cellOf lv.flags t ∧
    (lv.flags.vunset = false → 61 ∈ t) ∧
    ∀ vp e, E vp = some e → e.addr = a → hole = some vp ∧ e.flags.vtextfixed = true
  writable : lv.flags.vreadonly = false

/-- `localvar_stack` and the notes it stands for. -/
inductive Noted : List (List Localvar) → Notes → Prop where
  | nil : Noted [] []
  | push {frames : List (List Localvar)} {log : Notes} :
    Noted frames log → Noted ([] :: frames) ([] :: log)
  | note {lv : Localvar} {n : Bytes} {c : Cell} {F : List Localvar} {notes : List (Bytes × Cell)}
      {frames : List (List Localvar)} {log : Notes} :
    NotedVar hole E T lv n c → n ∉ notes.map Prod.fst →
    (lv.flags.vstrfixed = true ↔ static n = true ∨ Bound log n) →
    Noted (F :: frames) (notes :: log) → Noted ((lv :: F) :: frames) (((n, c) :: notes) :: log)

end

/-- The texts that are to be put back. -/
def savedTexts (frames : List (List Localvar)) : List ℕ := frames.flatten.filterMap Localvar.text

/-- **The invariant**: `E` is what the table holds, `cur` what the variables are, and `log` what is
noted of them. -/
structure Inv (static : Bytes → Bool) (hole : Option ℕ) (frames : List (List Localvar)) (log : Notes)
    (cur : Bytes → Cell) (E : ℕ → Option Ent) (st : Vartab) : Prop where
  mem : ∀ b vp, vp ∈ st.vartab b ↔ ∃ e, E vp = some e ∧ hashvar e.text = b
  nodup : ∀ b, (st.vartab b).Nodup
  var : ∀ vp e, E vp = some e → st.vars.get vp = some ⟨e.flags, e.addr⟩
  live : ∀ vp e, E vp = some e → st.texts.get e.addr = some e.text ∧ GoodName (nameOf e.text)
  unique : ∀ vp e vp' e', E vp = some e → E vp' = some e' → nameOf e.text = nameOf e'.text → vp = vp'
  apart : ∀ vp e vp' e', E vp = some e → E vp' = some e' → e.addr = e'.addr → vp = vp'
  cell : ∀ vp e, E vp = some e → cur (nameOf e.text) = cellOf e.flags e.text
  noCell : ∀ n, (∀ vp e, E vp = some e → nameOf e.text ≠ n) → cur n = {}
  noted : Noted static hole E st.texts.get frames log
  saved : (savedTexts frames).Nodup
  fixed : ∀ vp e, E vp = some e → static (nameOf e.text) = true ∨ Bound log (nameOf e.text) →
    e.flags.vstrfixed = true
  loose : ∀ vp e, E vp = some e → e.flags.vreadonly = false → e.flags.vstrfixed = true →
    static (nameOf e.text) = true ∨ Bound log (nameOf e.text)
  static : ∀ n, static n = true → ∃ vp e, E vp = some e ∧ nameOf e.text = n
  eq : ∀ vp e, E vp = some e → e.flags.vunset = false → 61 ∈ e.text

section

variable {static : Bytes → Bool} {hole hole' : Option ℕ} {frames : List (List Localvar)} {log : Notes}
  {cur : Bytes → Cell} {E E' : ℕ → Option Ent} {st : Vartab}

theorem bound_cons {notes : List (Bytes × Cell)} {n : Bytes} :
    Bound (notes :: log) n ↔ n ∈ notes.map Prod.fst ∨ Bound log n := by
  constructor
  · rintro ⟨notes', hmem, hn⟩
    rcases List.mem_cons.mp hmem with rfl | hmem
    · exact Or.inl hn
    · exact Or.inr ⟨notes', hmem, hn⟩
  · rintro (hn | ⟨notes', hmem, hn⟩)
    · exact ⟨notes, List.mem_cons_self, hn⟩
    · exact ⟨notes', List.mem_cons_of_mem _ hmem, hn⟩

theorem bound_note {n : Bytes} {c : Cell} {notes : List (Bytes × Cell)} {n' : Bytes} :
    Bound (((n, c) :: notes) :: log) n' ↔ n' = n ∨ Bound (notes :: log) n' := by
  rw [bound_cons, bound_cons, List.map_cons, List.mem_cons, or_assoc]

/-- What is kept for each local variable is kept for all. -/
theorem Noted.mono {T T' : ℕ → Option Bytes} (h : Noted static hole E T frames log)
    (hkeep : ∀ F ∈ frames, ∀ lv ∈ F, ∀ n c, Bound log n → NotedVar hole E T lv n c →
      NotedVar hole' E' T' lv n c) :
    Noted static hole' E' T' frames log := by
  induction h with
  | nil => exact .nil
  | push _ ih =>
    apply Noted.push
    apply ih
    intro F hF lv hlv n c hn
    exact hkeep F (List.mem_cons_of_mem _ hF) lv hlv n c (bound_cons.mpr (Or.inr hn))
  | @note lv n c F notes frames log hvar hn hfixed _ ih =>
    have hbound : Bound (((n, c) :: notes) :: log) n := bound_note.mpr (Or.inl rfl)
    apply Noted.note (hkeep _ List.mem_cons_self _ List.mem_cons_self _ _ hbound hvar) hn hfixed
    apply ih
    intro F' hF' lv' hlv' n' c' hn'
    have hn'' : Bound (((n, c) :: notes) :: log) n' := bound_note.mpr (Or.inr hn')
    rcases List.mem_cons.mp hF' with rfl | hF'
    · exact hkeep _ List.mem_cons_self lv' (List.mem_cons_of_mem _ hlv') n' c' hn''
    · exact hkeep F' (List.mem_cons_of_mem _ hF') lv' hlv' n' c' hn''

theorem mem_savedTexts {a : ℕ} : a ∈ savedTexts frames ↔ ∃ F ∈ frames, ∃ lv ∈ F, lv.text = some a := by
  rw [savedTexts, List.mem_filterMap]
  constructor
  · rintro ⟨lv, hlv, ha⟩
    obtain ⟨F, hF, hlvF⟩ := List.mem_flatten.mp hlv
    exact ⟨F, hF, lv, hlvF, ha⟩
  · rintro ⟨F, hF, lv, hlv, ha⟩
    exact ⟨lv, List.mem_flatten.mpr ⟨F, hF, hlv⟩, ha⟩

/-- A name that is noted is that of a variable. -/
theorem Noted.exists_of_bound {T : ℕ → Option Bytes} (h : Noted static hole E T frames log) {n : Bytes}
    (hn : Bound log n) : ∃ vp e, E vp = some e ∧ nameOf e.text = n ∧ e.flags.vstrfixed = true := by
  induction h with
  | nil =>
    obtain ⟨notes, hmem, -⟩ := hn
    cases hmem
  | push _ ih =>
    obtain ⟨notes, hmem, hnotes⟩ := hn
    rcases List.mem_cons.mp hmem with rfl | hmem
    · cases hnotes
    · exact ih ⟨notes, hmem, hnotes⟩
  | @note lv n' c F notes frames log hvar hn' hfixed _ ih =>
    obtain ⟨notes', hmem, hnotes⟩ := hn
    rcases List.mem_cons.mp hmem with rfl | hmem
    · rw [List.map_cons] at hnotes
      rcases List.mem_cons.mp hnotes with rfl | hnotes
      · obtain ⟨e, he, hname, hstr⟩ := hvar.var
        exact ⟨lv.vp, e, he, hname, hstr⟩
      · exact ih ⟨notes, List.mem_cons_self, hnotes⟩
    · exact ih ⟨notes', List.mem_cons_of_mem _ hmem, hnotes⟩

/-- What is noted for a local variable. -/
theorem Noted.of_mem {T : ℕ → Option Bytes} (h : Noted static hole E T frames log) {F : List Localvar}
    (hF : F ∈ frames) {lv : Localvar} (hlv : lv ∈ F) : ∃ n c, NotedVar hole E T lv n c := by
  induction h generalizing F with
  | nil => cases hF
  | push _ ih =>
    rcases List.mem_cons.mp hF with rfl | hF
    · cases hlv
    · exact ih hF hlv
  | @note lv' n c F' notes frames log hvar hn hfixed _ ih =>
    rcases List.mem_cons.mp hF with rfl | hF
    · rcases List.mem_cons.mp hlv with rfl | hlv
      · exact ⟨n, c, hvar⟩
      · exact ih List.mem_cons_self hlv
    · exact ih (List.mem_cons_of_mem _ hF) hlv

/-! ## Changes of the table -/

/-- **Another text and other flags** for a variable, and the old text perhaps freed. -/
theorem Inv.replace (h : Inv static hole frames log cur E st) {vp : ℕ} {e : Ent} (he : E vp = some e)
    (hhole : ∀ vp', hole = some vp' → vp' = vp) {flags : Flags} {a : ℕ} {text : Bytes} {T : Table Bytes}
    (hname : nameOf text = nameOf e.text) (hstr : flags.vstrfixed = e.flags.vstrfixed)
    (hro : flags.vreadonly = false → e.flags.vreadonly = false) (hnew : T.get a = some text)
    (hkeep : ∀ x, x ≠ a → (x = e.addr → e.flags.vtextfixed = true) → T.get x = st.texts.get x)
    (hother : ∀ vp' e', vp' ≠ vp → E vp' = some e' → e'.addr ≠ a) (hsaved : a ∉ savedTexts frames)
    (heq : flags.vunset = false → 61 ∈ text) :
    Inv static none frames log (Function.update cur (nameOf e.text) (cellOf flags text))
      (Function.update E vp (some ⟨flags, a, text⟩))
      { st with texts := T, vars := st.vars.set vp (some ⟨flags, a⟩) } := by
  obtain ⟨hmem, hnodup, hvar, hlive, hunique, hapart, hcell, hnoCell, hnoted, hsavedN, hfixed, hloose,
    hstatic, heqs⟩ := h
  have hgood : GoodName (nameOf text) := hname.symm ▸ (hlive vp e he).2
  have hhash := hashvar_congr hname hgood.1
  have hE : ∀ vp', vp' ≠ vp → Function.update E vp (some ⟨flags, a, text⟩) vp' = E vp' := fun vp' hne =>
    Function.update_of_ne hne _ _
  have hE₀ : Function.update E vp (some ⟨flags, a, text⟩) vp = some ⟨flags, a, text⟩ :=
    Function.update_self _ _ _
  generalize Function.update E vp (some ⟨flags, a, text⟩) = E' at hE hE₀ ⊢
  constructor
  case noCell =>
    intro n hn
    have hne : n ≠ nameOf e.text := by
      rintro rfl
      exact hn vp _ hE₀ hname
    rw [Function.update_of_ne hne]
    apply hnoCell
    intro vp' e' he'
    by_cases heq : vp' = vp
    · grind
    · exact hn vp' e' ((hE vp' heq).trans he')
  case static =>
    intro n hn
    obtain ⟨vp', e', he', hname'⟩ := hstatic n hn
    by_cases heq : vp' = vp
    · exact ⟨vp, _, hE₀, by grind⟩
    · exact ⟨vp', e', (hE vp' heq).trans he', hname'⟩
  case noted =>
    apply hnoted.mono
    intro F hF lv hlv n c _ hv
    refine ⟨?_, hv.good, hv.absent, ?_, hv.writable⟩
    · obtain ⟨e', he', hname', hstr'⟩ := hv.var
      by_cases heq : lv.vp = vp
      · refine ⟨⟨flags, a, text⟩, ?_, ?_, ?_⟩
        · rw [heq]
          exact hE₀
        · grind
        · grind
      · exact ⟨e', (hE _ heq).trans he', hname', hstr'⟩
    · intro a' ha'
      obtain ⟨t, ht, hnt, hc, heqt, hshare⟩ := hv.kept a' ha'
      have hne : a' ≠ a := by
        rintro rfl
        exact hsaved (mem_savedTexts.mpr ⟨F, hF, lv, hlv, ha'⟩)
      refine ⟨t, ?_, hnt, hc, heqt, fun vp' e' he' haddr => ?_⟩
      · dsimp only
        rw [hkeep a' hne]
        · exact ht
        · rintro rfl
          exact (hshare vp e he rfl).2
      · by_cases heq : vp' = vp
        · grind
        · have hold := hshare vp' e' ((hE vp' heq).symm.trans he') haddr
          exact absurd (hhole vp' hold.1) heq
  all_goals grind [Table.get_set]

/-- The names in the table are not touched by a change of one variable. -/
theorem named_update {vp : ℕ} {e e' : Ent} (he : E vp = some e) (hname : nameOf e'.text = nameOf e.text)
    {n : Bytes} : (∃ vp' e₁, Function.update E vp (some e') vp' = some e₁ ∧ nameOf e₁.text = n) ↔
      ∃ vp' e₁, E vp' = some e₁ ∧ nameOf e₁.text = n := by
  constructor
  · rintro ⟨vp', e₁, he₁, hn⟩
    by_cases heq : vp' = vp
    · rw [heq, Function.update_self, Option.some_inj] at he₁
      exact ⟨vp, e, he, by rw [← hname, he₁, hn]⟩
    · exact ⟨vp', e₁, (Function.update_of_ne heq _ _).symm.trans he₁, hn⟩
  · rintro ⟨vp', e₁, he₁, hn⟩
    by_cases heq : vp' = vp
    · subst heq
      obtain rfl : e = e₁ := Option.some.inj (he.symm.trans he₁)
      exact ⟨vp', e', Function.update_self _ _ _, hname.trans hn⟩
    · exact ⟨vp', e₁, (Function.update_of_ne heq _ _).trans he₁, hn⟩

/-- Without a hole nobody else has a text that is to be put back. -/
theorem NotedVar.setFlags {T : ℕ → Option Bytes} {lv : Localvar} {n : Bytes} {c : Cell}
    (hv : NotedVar none E T lv n c) {vp : ℕ} {e : Ent} (he : E vp = some e) {flags : Flags}
    (hstr : e.flags.vstrfixed = true → flags.vstrfixed = true) :
    NotedVar hole (Function.update E vp (some ⟨flags, e.addr, e.text⟩)) T lv n c := by
  refine ⟨?_, hv.good, hv.absent, ?_, hv.writable⟩
  · obtain ⟨e', he', hname', hstr'⟩ := hv.var
    grind
  · intro a ha
    obtain ⟨t, ht, hnt, hc, heqt, hshare⟩ := hv.kept a ha
    refine ⟨t, ht, hnt, hc, heqt, fun vp' e' he' haddr => ?_⟩
    have hother : ∃ vp₁ e₁, E vp₁ = some e₁ ∧ e₁.addr = a := by
      by_cases heq : vp' = vp
      · exact ⟨vp, e, he, by grind⟩
      · exact ⟨vp', e', (Function.update_of_ne heq _ _).symm.trans he', haddr⟩
    obtain ⟨vp₁, e₁, he₁, ha₁⟩ := hother
    exact absurd (hshare vp₁ e₁ he₁ ha₁).1 (Option.some_ne_none vp₁).symm

/-- **Other flags** for a variable. -/
theorem Inv.setFlags (h : Inv static none frames log cur E st) {vp : ℕ} {e : Ent} (he : E vp = some e)
    {flags : Flags} (hstr : flags.vstrfixed = e.flags.vstrfixed)
    (hro : flags.vreadonly = false → e.flags.vreadonly = false)
    (heq : flags.vunset = e.flags.vunset) :
    Inv static none frames log (Function.update cur (nameOf e.text) (cellOf flags e.text))
      (Function.update E vp (some ⟨flags, e.addr, e.text⟩))
      { st with vars := st.vars.set vp (some ⟨flags, e.addr⟩) } := by
  have hname := @named_update E vp e ⟨flags, e.addr, e.text⟩ he rfl
  obtain ⟨hmem, hnodup, hvar, hlive, hunique, hapart, hcell, hnoCell, hnoted, hsavedN, hfixed, hloose,
    hstatic, heqs⟩ := h
  constructor
  case noCell =>
    intro n hn
    have hnone : ¬ ∃ vp' e₁, E vp' = some e₁ ∧ nameOf e₁.text = n := by
      rw [← hname]
      rintro ⟨vp', e₁, he₁, hn₁⟩
      exact hn vp' e₁ he₁ hn₁
    have hne : n ≠ nameOf e.text := by
      rintro rfl
      exact hnone ⟨vp, e, he, rfl⟩
    rw [Function.update_of_ne hne]
    exact hnoCell n fun vp' e₁ he₁ hn₁ => hnone ⟨vp', e₁, he₁, hn₁⟩
  case static => exact fun n hn => hname.mpr (hstatic n hn)
  case noted =>
    apply hnoted.mono
    exact fun _ _ _ _ _ _ _ hv => hv.setFlags he fun hstr' => hstr.trans hstr'
  all_goals grind [Table.get_set]

/-- A variable that must not be made local is marked all the same. -/
theorem Inv.mark (h : Inv static none frames log cur E st) {vp : ℕ} {e : Ent} (he : E vp = some e)
    (hro : e.flags.vreadonly = true) :
    Inv static none frames log cur
      (Function.update E vp
        (some ⟨{ e.flags with vstrfixed := true, vtextfixed := true }, e.addr, e.text⟩))
      { st with
        vars := st.vars.set vp
          (some ⟨{ e.flags with vstrfixed := true, vtextfixed := true }, e.addr⟩) } := by
  have hname := @named_update E vp e
    ⟨{ e.flags with vstrfixed := true, vtextfixed := true }, e.addr, e.text⟩ he rfl
  obtain ⟨hmem, hnodup, hvar, hlive, hunique, hapart, hcell, hnoCell, hnoted, hsavedN, hfixed, hloose,
    hstatic, heqs⟩ := h
  have hcellOf : cellOf { e.flags with vstrfixed := true, vtextfixed := true } e.text =
      cellOf e.flags e.text := rfl
  constructor
  case noCell =>
    intro n hn
    apply hnoCell
    intro vp' e₁ he₁ hn₁
    obtain ⟨vp₂, e₂, he₂, hn₂⟩ := hname.mpr ⟨vp', e₁, he₁, hn₁⟩
    exact hn vp₂ e₂ he₂ hn₂
  case static => exact fun n hn => hname.mpr (hstatic n hn)
  case noted =>
    apply hnoted.mono
    exact fun _ _ _ _ _ _ _ hv => hv.setFlags he fun _ => rfl
  all_goals grind [Table.get_set]

/-- **A variable is made local**: its text and flags are noted, and it has the text still. -/
theorem Inv.localize {F : List Localvar} {notes : List (Bytes × Cell)}
    (h : Inv static none (F :: frames) (notes :: log) cur E st) {vp : ℕ} {e : Ent}
    (he : E vp = some e) (hro : e.flags.vreadonly = false)
    (hnew : nameOf e.text ∉ notes.map Prod.fst) :
    Inv static (some vp) ((⟨vp, e.flags, some e.addr⟩ :: F) :: frames)
      (((nameOf e.text, cur (nameOf e.text)) :: notes) :: log) cur
      (Function.update E vp
        (some ⟨{ e.flags with vstrfixed := true, vtextfixed := true }, e.addr, e.text⟩))
      { st with
        vars := st.vars.set vp
          (some ⟨{ e.flags with vstrfixed := true, vtextfixed := true }, e.addr⟩) } := by
  have hname := @named_update E vp e
    ⟨{ e.flags with vstrfixed := true, vtextfixed := true }, e.addr, e.text⟩ he rfl
  obtain ⟨hmem, hnodup, hvar, hlive, hunique, hapart, hcell, hnoCell, hnoted, hsavedN, hfixed, hloose,
    hstatic, heqs⟩ := h
  have hcellOf : cellOf { e.flags with vstrfixed := true, vtextfixed := true } e.text =
      cellOf e.flags e.text := rfl
  have hbound := fun n => @bound_note log (nameOf e.text) (cur (nameOf e.text)) notes n
  have hunsaved : e.addr ∉ savedTexts (F :: frames) := by
    intro hmem
    obtain ⟨F', hF', lv, hlv, ha⟩ := mem_savedTexts.mp hmem
    obtain ⟨n, c, hv⟩ := hnoted.of_mem hF' hlv
    obtain ⟨t, -, -, -, -, hshare⟩ := hv.kept _ ha
    exact absurd (hshare vp e he rfl).1 (by simp)
  constructor
  case noCell =>
    intro n hn
    apply hnoCell
    intro vp' e₁ he₁ hn₁
    obtain ⟨vp₂, e₂, he₂, hn₂⟩ := hname.mpr ⟨vp', e₁, he₁, hn₁⟩
    exact hn vp₂ e₂ he₂ hn₂
  case static => exact fun n hn => hname.mpr (hstatic n hn)
  case noted =>
    apply Noted.note
    · refine ⟨⟨_, Function.update_self _ _ _, rfl, rfl⟩, (hlive vp e he).2, fun hnone => (nomatch hnone), ?_, hro⟩
      intro a ha
      obtain rfl : e.addr = a := Option.some.inj ha
      refine ⟨e.text, (hlive vp e he).1, rfl, hcell vp e he, heqs vp e he, fun vp' e' he' haddr => ?_⟩
      by_cases heq : vp' = vp
      · grind
      · have hold := hapart vp' e' vp e ((Function.update_of_ne heq _ _).symm.trans he') he haddr
        exact absurd hold heq
    · exact hnew
    · have hiff : e.flags.vstrfixed = true ↔
          static (nameOf e.text) = true ∨ Bound (notes :: log) (nameOf e.text) :=
        ⟨hloose vp e he hro, hfixed vp e he⟩
      rw [bound_cons] at hiff
      dsimp only
      rw [hiff, or_iff_right hnew]
    · apply hnoted.mono
      exact fun _ _ _ _ _ _ _ hv => hv.setFlags he fun _ => rfl
  case saved => exact List.nodup_cons.mpr ⟨hunsaved, hsavedN⟩
  all_goals grind [Table.get_set]

/-- **A variable is freed**, and its text perhaps as well. -/
theorem Inv.remove (h : Inv static none frames log cur E st) {vp : ℕ} {e : Ent} (he : E vp = some e)
    (hstr : e.flags.vstrfixed = false) {T : Table Bytes}
    (hkeep : ∀ x, x ≠ e.addr → T.get x = st.texts.get x) :
    Inv static none frames log (Function.update cur (nameOf e.text) {}) (Function.update E vp none)
      { st with
        texts := T
        vartab := Function.update st.vartab (hashvar e.text) ((st.vartab (hashvar e.text)).erase vp)
        vars := st.vars.set vp none } := by
  obtain ⟨hmem, hnodup, hvar, hlive, hunique, hapart, hcell, hnoCell, hnoted, hsavedN, hfixed, hloose,
    hstatic, heqs⟩ := h
  have hne : ∀ {vp' e'}, E vp' = some e' → nameOf e'.text ≠ nameOf e.text → vp' ≠ vp := by grind
  constructor
  case mem =>
    intro b vp'
    by_cases hb : b = hashvar e.text
    · subst hb
      dsimp only
      rw [Function.update_self, (hnodup _).mem_erase_iff, hmem]
      grind
    · dsimp only
      rw [Function.update_of_ne hb, hmem]
      grind
  case nodup =>
    intro b
    by_cases hb : b = hashvar e.text
    · subst hb
      dsimp only
      rw [Function.update_self]
      exact (hnodup _).erase vp
    · dsimp only
      rw [Function.update_of_ne hb]
      exact hnodup b
  case noCell =>
    intro n hn
    by_cases heq : n = nameOf e.text
    · rw [heq, Function.update_self]
    · rw [Function.update_of_ne heq]
      apply hnoCell
      rintro vp' e' he' rfl
      exact hn vp' e' ((Function.update_of_ne (hne he' heq) _ _).trans he') rfl
  case static =>
    intro n hn
    obtain ⟨vp', e', he', hname'⟩ := hstatic n hn
    have hvp : vp' ≠ vp := by
      rintro rfl
      obtain rfl : e = e' := Option.some.inj (he.symm.trans he')
      have hfix := hfixed _ e he (Or.inl (by rw [hname']; exact hn))
      rw [hstr] at hfix
      cases hfix
    exact ⟨vp', e', (Function.update_of_ne hvp _ _).trans he', hname'⟩
  case noted =>
    apply hnoted.mono
    intro F hF lv hlv n c _ hv
    refine ⟨?_, hv.good, hv.absent, ?_, hv.writable⟩
    · obtain ⟨e', he', hname', hstr'⟩ := hv.var
      refine ⟨e', (Function.update_of_ne ?_ _ _).trans he', hname', hstr'⟩
      rintro heq
      grind
    · intro a ha
      obtain ⟨t, ht, hnt, hc, heqt, hshare⟩ := hv.kept a ha
      have hane : a ≠ e.addr := by
        rintro rfl
        exact absurd (hshare vp e he rfl).1 (Option.some_ne_none vp).symm
      refine ⟨t, (hkeep a hane).trans ht, hnt, hc, heqt, fun vp' e' he' haddr => ?_⟩
      have hvp : vp' ≠ vp := by grind
      exact hshare vp' e' ((Function.update_of_ne hvp _ _).symm.trans he') haddr
  all_goals grind [Table.get_set]

/-- Where no variable has a name, none is noted or fixed. -/
theorem Inv.free_name (h : Inv static hole frames log cur E st) {n : Bytes}
    (hn : ∀ vp e, E vp = some e → nameOf e.text ≠ n) : static n = false ∧ ¬ Bound log n := by
  constructor
  · rw [← Bool.not_eq_true]
    intro hstatic
    obtain ⟨vp, e, he, hname⟩ := h.static n hstatic
    exact hn vp e he hname
  · intro hbound
    obtain ⟨vp, e, he, hname, -⟩ := h.noted.exists_of_bound hbound
    exact hn vp e he hname

/-- **A variable that was not there**, as a local one or not. -/
theorem Inv.insert (h : Inv static none frames log cur E st) {vp a : ℕ} {flags : Flags} {text : Bytes}
    {T : Table Bytes} (hvp : st.vars.get vp = none) (hgood : GoodName (nameOf text))
    (hn : ∀ vp e, E vp = some e → nameOf e.text ≠ nameOf text) (hnew : T.get a = some text)
    (hkeep : ∀ x, x ≠ a → T.get x = st.texts.get x) (hother : ∀ vp e, E vp = some e → e.addr ≠ a)
    (hsaved : a ∉ savedTexts frames) (hstr : flags.vstrfixed = false)
    (heq : flags.vunset = false → 61 ∈ text) :
    Inv static none frames log (Function.update cur (nameOf text) (cellOf flags text))
      (Function.update E vp (some ⟨flags, a, text⟩))
      { st with
        texts := T
        vars := st.vars.set vp (some ⟨flags, a⟩)
        vartab := Function.update st.vartab (hashvar text) (vp :: st.vartab (hashvar text)) } := by
  obtain ⟨hfree, hunbound⟩ := h.free_name hn
  obtain ⟨hmem, hnodup, hvar, hlive, hunique, hapart, hcell, hnoCell, hnoted, hsavedN, hfixed, hloose,
    hstatic, heqs⟩ := h
  have hEvp : E vp = none := by
    rcases hE : E vp with _ | e
    · rfl
    · rw [hvar vp e hE] at hvp
      cases hvp
  constructor
  case mem =>
    intro b vp'
    by_cases hb : b = hashvar text
    · subst hb
      dsimp only
      rw [Function.update_self, List.mem_cons, hmem]
      by_cases heq : vp' = vp
      · subst heq
        exact ⟨fun _ => ⟨_, Function.update_self _ _ _, rfl⟩, fun _ => Or.inl rfl⟩
      · rw [Function.update_of_ne heq, or_iff_right heq]
    · dsimp only
      rw [Function.update_of_ne hb, hmem]
      grind
  case nodup =>
    intro b
    by_cases hb : b = hashvar text
    · subst hb
      dsimp only
      rw [Function.update_self, List.nodup_cons, hmem]
      grind
    · dsimp only
      rw [Function.update_of_ne hb]
      exact hnodup b
  case noCell =>
    intro n hn'
    have hnename : n ≠ nameOf text := by
      rintro rfl
      exact hn' vp _ (Function.update_self _ _ _) rfl
    rw [Function.update_of_ne hnename]
    apply hnoCell
    intro vp' e' he'
    have hvp' : vp' ≠ vp := by grind
    exact hn' vp' e' ((Function.update_of_ne hvp' _ _).trans he')
  case static =>
    intro n hn'
    obtain ⟨vp', e', he', hname'⟩ := hstatic n hn'
    have hvp' : vp' ≠ vp := by grind
    exact ⟨vp', e', (Function.update_of_ne hvp' _ _).trans he', hname'⟩
  case noted =>
    apply hnoted.mono
    intro F hF lv hlv n c _ hv
    refine ⟨?_, hv.good, hv.absent, ?_, hv.writable⟩
    · obtain ⟨e', he', hname', hstr'⟩ := hv.var
      refine ⟨e', (Function.update_of_ne ?_ _ _).trans he', hname', hstr'⟩
      rintro heq
      grind
    · intro a' ha'
      obtain ⟨t, ht, hnt, hc, heqt, hshare⟩ := hv.kept a' ha'
      have hane : a' ≠ a := by
        rintro rfl
        exact hsaved (mem_savedTexts.mpr ⟨F, hF, lv, hlv, ha'⟩)
      refine ⟨t, (hkeep a' hane).trans ht, hnt, hc, heqt, fun vp' e' he' haddr => ?_⟩
      have hvp' : vp' ≠ vp := by grind
      exact hshare vp' e' ((Function.update_of_ne hvp' _ _).symm.trans he') haddr
  all_goals grind [Table.get_set]

/-- **A new variable is made local** as soon as it is there. -/
theorem Inv.pin {F : List Localvar} {notes : List (Bytes × Cell)}
    (h : Inv static none (F :: frames) (notes :: log) cur E st) {vp : ℕ} {e : Ent}
    (he : E vp = some e) (hro : e.flags.vstrfixed = false) :
    Inv static none ((⟨vp, { vunset := true }, none⟩ :: F) :: frames)
      (((nameOf e.text, {}) :: notes) :: log) cur
      (Function.update E vp (some ⟨{ e.flags with vstrfixed := true }, e.addr, e.text⟩))
      { st with
        vars := st.vars.set vp (some ⟨{ e.flags with vstrfixed := true }, e.addr⟩) } := by
  have hname := @named_update E vp e ⟨{ e.flags with vstrfixed := true }, e.addr, e.text⟩ he rfl
  obtain ⟨hmem, hnodup, hvar, hlive, hunique, hapart, hcell, hnoCell, hnoted, hsavedN, hfixed, hloose,
    hstatic, heqs⟩ := h
  have hcellOf : cellOf { e.flags with vstrfixed := true } e.text = cellOf e.flags e.text := rfl
  have hunfixed : ¬ (static (nameOf e.text) = true ∨ Bound (notes :: log) (nameOf e.text)) := by
    intro hor
    have hfix := hfixed vp e he hor
    rw [hro] at hfix
    cases hfix
  have hbound := fun n => @bound_note log (nameOf e.text) {} notes n
  constructor
  case noCell =>
    intro n hn
    apply hnoCell
    intro vp' e₁ he₁ hn₁
    obtain ⟨vp₂, e₂, he₂, hn₂⟩ := hname.mpr ⟨vp', e₁, he₁, hn₁⟩
    exact hn vp₂ e₂ he₂ hn₂
  case static => exact fun n hn => hname.mpr (hstatic n hn)
  case noted =>
    rw [not_or, bound_cons, not_or] at hunfixed
    apply Noted.note
    · refine ⟨⟨_, Function.update_self _ _ _, rfl, rfl⟩, (hlive vp e he).2, fun _ => ⟨rfl, rfl⟩, ?_, rfl⟩
      exact fun a ha => absurd ha.symm (Option.some_ne_none a)
    · exact hunfixed.2.1
    · constructor
      · exact fun hfalse => absurd hfalse Bool.false_ne_true
      · rintro (hstat | hb)
        · exact absurd hstat hunfixed.1
        · exact absurd hb hunfixed.2.2
    · apply hnoted.mono
      exact fun _ _ _ _ _ _ _ hv => hv.setFlags he fun _ => rfl
  case saved => exact hsavedN
  all_goals grind [Table.get_set]

/-- A name becomes one of those the shell has from the beginning. -/
theorem Inv.makeStatic (h : Inv static none [] [] cur E st) {vp : ℕ} {e : Ent} (he : E vp = some e) :
    Inv (fun n => n == nameOf e.text || static n) none [] [] cur
      (Function.update E vp (some ⟨{ e.flags with vstrfixed := true }, e.addr, e.text⟩))
      { st with
        vars := st.vars.set vp (some ⟨{ e.flags with vstrfixed := true }, e.addr⟩) } := by
  have hname := @named_update E vp e ⟨{ e.flags with vstrfixed := true }, e.addr, e.text⟩ he rfl
  obtain ⟨hmem, hnodup, hvar, hlive, hunique, hapart, hcell, hnoCell, hnoted, hsavedN, hfixed, hloose,
    hstatic, heqs⟩ := h
  have hcellOf : cellOf { e.flags with vstrfixed := true } e.text = cellOf e.flags e.text := rfl
  have hunbound : ∀ n, ¬ Bound [] n := by
    rintro n ⟨notes, hmem, -⟩
    cases hmem
  constructor
  case noCell =>
    intro n hn
    apply hnoCell
    intro vp' e₁ he₁ hn₁
    obtain ⟨vp₂, e₂, he₂, hn₂⟩ := hname.mpr ⟨vp', e₁, he₁, hn₁⟩
    exact hn vp₂ e₂ he₂ hn₂
  case static =>
    intro n hn
    rw [Bool.or_eq_true, beq_iff_eq] at hn
    apply hname.mpr
    rcases hn with rfl | hn
    · exact ⟨vp, e, he, rfl⟩
    · exact hstatic n hn
  case noted => exact .nil
  case saved => exact List.nodup_nil
  all_goals grind [Table.get_set]

/-- **A local variable is given up**: its old text is put back. -/
theorem Inv.restore {lv : Localvar} {F : List Localvar} {n : Bytes} {c : Cell}
    {notes : List (Bytes × Cell)}
    (h : Inv static none ((lv :: F) :: frames) (((n, c) :: notes) :: log) cur E st) {e : Ent}
    (he : E lv.vp = some e) {a : ℕ} (ha : lv.text = some a) {T : Table Bytes}
    (hkeep : ∀ x, x ≠ e.addr → T.get x = st.texts.get x) :
    ∃ text, Inv static none (F :: frames) (notes :: log) (Function.update cur n c)
      (Function.update E lv.vp (some ⟨lv.flags, a, text⟩))
      { st with texts := T, vars := st.vars.set lv.vp (some ⟨lv.flags, a⟩) } := by
  obtain ⟨hmem, hnodup, hvar, hlive, hunique, hapart, hcell, hnoCell, hnoted, hsavedN, hfixed, hloose,
    hstatic, heqs⟩ := h
  cases hnoted with
  | note hv hn hstr hnoted =>
  obtain ⟨e₀, he₀, hname₀, hstr₀⟩ := hv.var
  obtain rfl : e₀ = e := Option.some.inj (he₀.symm.trans he)
  obtain ⟨text, hT, hnt, hc, heqt, hshare⟩ := hv.kept a ha
  have hunshared : ∀ vp' e', E vp' = some e' → e'.addr ≠ a := by
    intro vp' e' he' haddr
    exact absurd (hshare vp' e' he' haddr).1 (Option.some_ne_none vp').symm
  have hnew : T.get a = some text := (hkeep a (Ne.symm (hunshared _ _ he))).trans hT
  have hcons : savedTexts ((lv :: F) :: frames) = a :: savedTexts (F :: frames) := by
    rw [savedTexts, List.flatten_cons, List.cons_append, List.filterMap_cons_some ha]
    rfl
  rw [hcons] at hsavedN
  obtain ⟨hsaved, hsavedN'⟩ := List.nodup_cons.mp hsavedN
  have hname := @named_update E lv.vp e₀ ⟨lv.flags, a, text⟩ he (hnt.trans hname₀.symm)
  have hbound := fun n' => @bound_note log n c notes n'
  have hiff : lv.flags.vstrfixed = true ↔ static n = true ∨ Bound (notes :: log) n := by
    rw [hstr, bound_cons, or_iff_right hn]
  have hgood : GoodName (nameOf text) := hnt.symm ▸ hv.good
  have hhash := hashvar_congr (hnt.trans hname₀.symm) hgood.1
  refine ⟨text, ?_⟩
  constructor
  case noCell =>
    intro n' hn'
    have hnone : ¬ ∃ vp' e₁, E vp' = some e₁ ∧ nameOf e₁.text = n' := by
      rw [← hname]
      rintro ⟨vp', e₁, he₁, hn₁⟩
      exact hn' vp' e₁ he₁ hn₁
    have hne : n' ≠ n := by
      rintro rfl
      exact hnone ⟨lv.vp, e₀, he, hname₀⟩
    rw [Function.update_of_ne hne]
    exact hnoCell n' fun vp' e₁ he₁ hn₁ => hnone ⟨vp', e₁, he₁, hn₁⟩
  case static => exact fun n hn => hname.mpr (hstatic n hn)
  case noted =>
    apply hnoted.mono
    intro F' hF' lv' hlv' n' c' hb' hv'
    have hsaved' : ∀ a', lv'.text = some a' → a' ≠ a := by
      rintro a' ha' rfl
      exact hsaved (mem_savedTexts.mpr ⟨F', hF', lv', hlv', ha'⟩)
    refine ⟨?_, hv'.good, hv'.absent, ?_, hv'.writable⟩
    · obtain ⟨e', he', hname', hstr'⟩ := hv'.var
      by_cases heq : lv'.vp = lv.vp
      · -- the same variable is local further out, and fixed there
        rw [heq, he, Option.some_inj] at he'
        subst he'
        obtain rfl : n = n' := hname₀.symm.trans hname'
        refine ⟨⟨lv.flags, a, text⟩, ?_, hnt, hiff.mpr (Or.inr hb')⟩
        rw [heq]
        exact Function.update_self _ _ _
      · exact ⟨e', (Function.update_of_ne heq _ _).trans he', hname', hstr'⟩
    · intro a' ha'
      obtain ⟨t, ht, hnt', hc', heqt', hshare'⟩ := hv'.kept a' ha'
      have hane : a' ≠ e₀.addr := by
        rintro rfl
        exact absurd (hshare' _ _ he rfl).1 (Option.some_ne_none _).symm
      refine ⟨t, (hkeep a' hane).trans ht, hnt', hc', heqt', fun vp' e' he' haddr => ?_⟩
      by_cases heq : vp' = lv.vp
      · have hnea := hsaved' a' ha'
        grind
      · exact hshare' vp' e' ((Function.update_of_ne heq _ _).symm.trans he') haddr
  case saved => exact hsavedN'
  all_goals grind [Table.get_set]

/-- A variable that was not there before it was made local is fixed no more. -/
theorem Inv.unpin {lv : Localvar} {F : List Localvar} {n : Bytes} {c : Cell}
    {notes : List (Bytes × Cell)}
    (h : Inv static none ((lv :: F) :: frames) (((n, c) :: notes) :: log) cur E st) {e : Ent}
    (he : E lv.vp = some e) (hflags : lv.flags = { vunset := true }) :
    c = {} ∧ nameOf e.text = n ∧
    Inv static none (F :: frames) (notes :: log)
      (Function.update cur n (cellOf { e.flags with vstrfixed := false, vreadonly := false } e.text))
      (Function.update E lv.vp
        (some ⟨{ e.flags with vstrfixed := false, vreadonly := false }, e.addr, e.text⟩))
      { st with
        vars := st.vars.set lv.vp
          (some ⟨{ e.flags with vstrfixed := false, vreadonly := false }, e.addr⟩) } := by
  have hname := @named_update E lv.vp e
    ⟨{ e.flags with vstrfixed := false, vreadonly := false }, e.addr, e.text⟩ he rfl
  obtain ⟨hmem, hnodup, hvar, hlive, hunique, hapart, hcell, hnoCell, hnoted, hsavedN, hfixed, hloose,
    hstatic, heqs⟩ := h
  cases hnoted with
  | note hv hn hstr hnoted =>
  obtain ⟨e₀, he₀, hname₀, hstr₀⟩ := hv.var
  obtain rfl : e₀ = e := Option.some.inj (he₀.symm.trans he)
  have hbound := fun n' => @bound_note log n c notes n'
  have hunfixed : ¬ (static n = true ∨ Bound (notes :: log) n) := by
    rw [bound_cons, or_iff_right hn, ← hstr, hflags]
    exact Bool.false_ne_true
  have hc : c = {} := by
    cases htext : lv.text with
    | none => exact (hv.absent htext).2
    | some a =>
      obtain ⟨t, -, -, hc, -, -⟩ := hv.kept a htext
      rw [hc, hflags]
      rfl
  refine ⟨hc, hname₀, ?_⟩
  constructor
  case noCell =>
    intro n' hn'
    have hnone : ¬ ∃ vp' e₁, E vp' = some e₁ ∧ nameOf e₁.text = n' := by
      rw [← hname]
      rintro ⟨vp', e₁, he₁, hn₁⟩
      exact hn' vp' e₁ he₁ hn₁
    have hne : n' ≠ n := by
      rintro rfl
      exact hnone ⟨lv.vp, e₀, he, hname₀⟩
    rw [Function.update_of_ne hne]
    exact hnoCell n' fun vp' e₁ he₁ hn₁ => hnone ⟨vp', e₁, he₁, hn₁⟩
  case static => exact fun n hn => hname.mpr (hstatic n hn)
  case noted =>
    apply hnoted.mono
    intro F' hF' lv' hlv' n' c' hb' hv'
    refine ⟨?_, hv'.good, hv'.absent, ?_, hv'.writable⟩
    · obtain ⟨e', he', hname', hstr'⟩ := hv'.var
      refine ⟨e', (Function.update_of_ne ?_ _ _).trans he', hname', hstr'⟩
      intro heq
      rw [heq, he, Option.some_inj] at he'
      subst he'
      obtain rfl : n = n' := hname₀.symm.trans hname'
      exact hunfixed (Or.inr hb')
    · intro a' ha'
      obtain ⟨t, ht, hnt', hc', heqt', hshare'⟩ := hv'.kept a' ha'
      refine ⟨t, ht, hnt', hc', heqt', fun vp' e' he' haddr => ?_⟩
      have hother : ∃ vp₁ e₁, E vp₁ = some e₁ ∧ e₁.addr = a' := by
        by_cases heq : vp' = lv.vp
        · exact ⟨lv.vp, e₀, he, by grind⟩
        · exact ⟨vp', e', (Function.update_of_ne heq _ _).symm.trans he', haddr⟩
      obtain ⟨vp₁, e₁, he₁, ha₁⟩ := hother
      exact absurd (hshare' vp₁ e₁ he₁ ha₁).1 (Option.some_ne_none vp₁).symm
  case saved =>
    have hsub := (List.sublist_cons_self lv (F ++ frames.flatten)).filterMap Localvar.text
    exact List.Nodup.sublist hsub hsavedN
  all_goals grind [Table.get_set]

/-- Texts that nobody refers to come and go. -/
theorem Inv.withTexts (h : Inv static hole frames log cur E st) {T : Table Bytes}
    (hvars : ∀ vp e, E vp = some e → T.get e.addr = st.texts.get e.addr)
    (hsaved : ∀ a ∈ savedTexts frames, T.get a = st.texts.get a) :
    Inv static hole frames log cur E { st with texts := T } := by
  obtain ⟨hmem, hnodup, hvar, hlive, hunique, hapart, hcell, hnoCell, hnoted, hsavedN, hfixed, hloose,
    hstatic, heqs⟩ := h
  constructor
  case noted =>
    apply hnoted.mono
    intro F hF lv hlv n c _ hv
    refine ⟨hv.var, hv.good, hv.absent, ?_, hv.writable⟩
    intro a ha
    obtain ⟨t, ht, hrest⟩ := hv.kept a ha
    exact ⟨t, (hsaved a (mem_savedTexts.mpr ⟨F, hF, lv, hlv, ha⟩)).trans ht, hrest⟩
  all_goals grind

/-- Only the table and the texts matter. -/
theorem Inv.congr (h : Inv static hole frames log cur E st) {st' : Vartab} (hvars : st'.vars = st.vars)
    (htexts : st'.texts = st.texts) (hvartab : st'.vartab = st.vartab) :
    Inv static hole frames log cur E st' := by
  obtain ⟨vars, texts, vartab, localvars, aflag⟩ := st
  obtain ⟨vars', texts', vartab', localvars', aflag'⟩ := st'
  cases hvars
  cases htexts
  cases hvartab
  exact ⟨h.mem, h.nodup, h.var, h.live, h.unique, h.apart, h.cell, h.noCell, h.noted, h.saved, h.fixed,
    h.loose, h.static, h.eq⟩

theorem bound_nil_cons {n : Bytes} : Bound ([] :: log) n ↔ Bound log n := by
  rw [bound_cons, List.map_nil, or_iff_right List.not_mem_nil]

theorem Inv.push (h : Inv static hole frames log cur E st) :
    Inv static hole ([] :: frames) ([] :: log) cur E st := by
  refine ⟨h.mem, h.nodup, h.var, h.live, h.unique, h.apart, h.cell, h.noCell, .push h.noted, h.saved,
    ?_, ?_, h.static, h.eq⟩
  · intro vp e he
    rw [bound_nil_cons]
    exact h.fixed vp e he
  · intro vp e he
    rw [bound_nil_cons]
    exact h.loose vp e he

theorem Inv.pop (h : Inv static hole ([] :: frames) ([] :: log) cur E st) :
    Inv static hole frames log cur E st := by
  have hnoted : Noted static hole E st.texts.get frames log := by
    cases h.noted with
    | push hnoted => exact hnoted
  refine ⟨h.mem, h.nodup, h.var, h.live, h.unique, h.apart, h.cell, h.noCell, hnoted, h.saved, ?_, ?_,
    h.static, h.eq⟩
  · intro vp e he
    rw [← @bound_nil_cons log]
    exact h.fixed vp e he
  · intro vp e he
    rw [← @bound_nil_cons log]
    exact h.loose vp e he

end

end OsMoap.Shell.Vars
