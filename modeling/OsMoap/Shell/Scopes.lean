import OsMoap.Lib.Simulation
import OsMoap.Shell.VarsOps

/-!
# The Scope of Variables Is Dynamic

The shell has one value for each variable and puts old ones back.  Here the frames of local variables
are kept as they are instead (`deep`), and each operation on the table does what the operation on the
frames does.
-/

namespace OsMoap.Shell.Vars

open OsMoap.Lib OsMoap.Pack

abbrev Bindings := Scopes Bytes Cell

abbrev Bd := Program Bindings Stop

/-! ## Deep binding -/

section

variable (static : Bytes → Bool)

/-- The innermost binding of a name is set; a name that is bound somewhere is not forgotten. -/
def setBinding (n : Bytes) (value : Option Bytes) (exported readonly : Bool) : Bd Unit := do
  let s ← Program.read
  if (s.lookup n).readonly then raiseError (.readOnly n)
  else Program.modify fun s =>
    s.assign n ((s.lookup n).set (static n || s.bound n) value exported readonly)

namespace Deep

def lookupvar (name : Bytes) : Bd (Option Bytes) := do
  let s ← Program.read
  pure (s.lookup (nameOf name)).value

def setvar (name : Bytes) (val : Option Bytes) : Bd Unit :=
  if badName name then raiseError (.badName (name.take (namelen name)))
  else setBinding static (nameOf name) val false false

def setvareq (text : Bytes) (vexport : Bool) : Bd Unit :=
  setBinding static (nameOf text) (some (varEnd text)) vexport false

/-- A name without a value is only marked. -/
def mark (readonly optN : Bool) (c : Cell) : Cell :=
  if readonly then { c with readonly := true } else { c with exported := !optN }

def exportcmd (readonly optN : Bool) (name : Bytes) : Bd Unit :=
  if badName name then raiseError (.badName (name.take (namelen name)))
  else if 61 ∈ name then
    setBinding static (nameOf name) (some (varEnd name)) (!readonly && !optN) readonly
  else Program.modify fun s =>
    s.assign (nameOf name) (mark readonly optN (s.lookup (nameOf name)))

/-- What is local keeps its mark for the environment. -/
def localCell (text : Bytes) (vexport : Bool) (c : Cell) : Cell :=
  ⟨if 61 ∈ text then some (varEnd text) else none, vexport || c.exported, false⟩

/-- A name is bound in the innermost frame. -/
def bindLocal (text : Bytes) (vexport : Bool) : Bd Unit := do
  let s ← Program.read
  if 61 ∉ text ∧ badName text then raiseError (.badName (text.take (namelen text)))
  else if (s.lookup (nameOf text)).readonly then raiseError (.readOnly (nameOf text))
  else Program.modify fun s =>
    s.bind (nameOf text) (localCell text vexport (s.lookup (nameOf text)))

def mklocal (text : Bytes) (vexport : Bool) : Bd Unit := do
  let s ← Program.read
  if s.frames.isEmpty then Program.stop .undefined
  else if s.binds (nameOf text) then
    if 61 ∈ text then setBinding static (nameOf text) (some (varEnd text)) false false else pure ()
  else bindLocal text vexport

def localvarStack : Bd ℕ := do
  let s ← Program.read
  pure s.frames.length

def unwindlocalvars (stop : ℕ) : Bd Unit := do
  let s ← Program.read
  if s.frames.length < stop then Program.stop .undefined
  else Program.modify fun s => s.outer stop

def environ (lp : List Bytes) : Bd (Bytes → Option Bytes) := do
  let s ← Program.read
  pure (environment s.lookup lp)

end Deep

/-- The store that keeps the frames. -/
def deep : Store Bindings where
  lookupvar := Deep.lookupvar
  setvar := Deep.setvar static
  setvareq := Deep.setvareq static
  exportcmd := Deep.exportcmd static
  mklocal := Deep.mklocal static
  pushlocalvars := Program.modify Scopes.push
  localvarStack := Deep.localvarStack
  unwindlocalvars := Deep.unwindlocalvars
  environ := Deep.environ

end

/-! ## Operation by operation -/

/-- The table represents the bindings. -/
def Rep (static : Bytes → Bool) (st : Vartab) (s : Bindings) : Prop :=
  st.aflag = false ∧ ∃ log cur E, Inv static none st.localvars log cur E st ∧ s = deepen cur log

section

variable {static : Bytes → Bool} {frames : List (List Localvar)} {log : Notes} {cur : Bytes → Cell}
  {E : ℕ → Option Ent} {st : Vartab}

/-- What pins a name down. -/
theorem pinned_iff (n : Bytes) : (static n || (deepen cur log).bound n) = true ↔ Pinned static log n := by
  rw [Bool.or_eq_true, bound_deepen, Pinned, Bound]

theorem Inv.rep (h : Inv static none frames log cur E st) (hframes : st.localvars = frames)
    (haflag : st.aflag = false) : Rep static st (deepen cur log) := by
  subst hframes
  exact ⟨haflag, log, cur, E, h, rfl⟩

/-- What is run and then forgotten. -/
theorem simulatesAt_discard {α : Type} {m : Vr α} {m' : Bd Unit} {s : Bindings}
    (h : m.wp (fun _ st' => ∃ s', m' s = (.ok (), s') ∧ Rep static st' s')
      (fun e st' => ∃ s', m' s = (.error e, s') ∧ Rep static st' s') st) :
    Program.SimulatesAt (Rep static)
      (do
        let _ ← m
        pure ()) m' st s := by
  rw [Program.SimulatesAt, Program.wp_bind]
  exact h

/-- **A variable is set** in the table, and a binding in the frames. -/
theorem SetBy.simulatesAt (haflag : st.aflag = false)
    {n : Bytes} {value : Option Bytes} {exported readonly : Bool} {m : Vr (Option ℕ)}
    (h : SetBy static none st.localvars log cur E st n
      ((cur n).set (static n || (deepen cur log).bound n) value exported readonly) m) :
    Program.SimulatesAt (Rep static)
      (do
        let _ ← m
        pure ()) (setBinding static n value exported readonly) st (deepen cur log) := by
  apply simulatesAt_discard
  have hrun : ∀ s : Bindings, setBinding static n value exported readonly s =
      if (s.lookup n).readonly then
        (.error (.raised (.exerror (some (VarError.readOnly n).message))), s)
      else (.ok (), s.assign n ((s.lookup n).set (static n || s.bound n) value exported readonly)) := by
    intro s
    rw [setBinding, Program.read_bind]
    split_ifs
    · rfl
    · rfl
  rw [hrun, lookup_deepen]
  apply Program.wp_mono h
  · rintro _ st' ⟨hro, hsame, E', hinv⟩
    rw [if_neg (by rw [hro]; exact Bool.false_ne_true), ← deepen_update]
    exact ⟨_, rfl, hinv.rep hsame.localvars (hsame.aflag.trans haflag)⟩
  · rintro stop st' ⟨hro, rfl, hsame, hinv⟩
    rw [if_pos hro]
    exact ⟨_, rfl, hinv.rep hsame.localvars (hsame.aflag.trans haflag)⟩

theorem simulates_lookupvar (name : Bytes) :
    Program.Simulates (Rep static) (lookupvar name) (Deep.lookupvar name) := by
  rintro st _ ⟨haflag, log, cur, E, h, rfl⟩
  apply Program.wp_mono (wp_lookupvar h name)
  · rintro val st' ⟨rfl, rfl⟩
    refine ⟨deepen cur log, ?_, h.rep rfl haflag⟩
    rw [Deep.lookupvar, Program.read_bind, lookup_deepen]
    rfl
  · exact fun _ _ hfails => hfails

theorem setvar_of_badName {m : Malloc} {name : Bytes} (hbad : badName name = true) (val : Option Bytes)
    (flags : Flags) : setvar m name val flags = raiseError (.badName (name.take (namelen name))) := by
  rw [setvar, if_pos hbad]

/-- `setvar` with a name that is one. -/
theorem simulates_setvar0 (m : Malloc) {name : Bytes} (hbad : badName name = false)
    (val : Option Bytes) {flags : Flags} (hstr : flags.vstrfixed = false) (hunset : flags.vunset = false) :
    Program.Simulates (Rep static) (setvar0 m name val flags)
      (setBinding static (nameOf name) val flags.vexport flags.vreadonly) := by
  rintro st _ ⟨haflag, log, cur, E, h, rfl⟩
  apply SetBy.simulatesAt haflag
  exact wp_setvar m h haflag hbad holeOf_none val flags hstr hunset (pinned_iff _)

/-- And with one that is not. -/
theorem simulates_badName (m : Malloc) {name : Bytes} (hbad : badName name = true)
    (val : Option Bytes) (flags : Flags) :
    Program.Simulates (Rep static) (setvar0 m name val flags)
      (raiseError (.badName (name.take (namelen name)))) := by
  rw [setvar0, setvar, if_pos hbad]
  exact Program.simulates_stop _

theorem simulates_setvar (m : Malloc) (name : Bytes) (val : Option Bytes) :
    Program.Simulates (Rep static) (setvar0 m name val {}) (Deep.setvar static name val) := by
  rw [Deep.setvar]
  split_ifs with hbad
  · exact simulates_badName m hbad val {}
  · rw [Bool.not_eq_true] at hbad
    exact simulates_setvar0 m hbad val rfl rfl

theorem simulates_setvareq (m : Malloc) {text : Bytes} (hgood : GoodName (nameOf text))
    (heq : 61 ∈ text) (vexport : Bool) :
    Program.Simulates (Rep static) ((vartab m).setvareq text vexport)
      (Deep.setvareq static text vexport) := by
  rintro st _ ⟨haflag, log, cur, E, h, rfl⟩
  have hset := @wp_setCopy static none st.localvars log cur E st m h haflag text hgood
    holeOf_none { vexport := vexport } rfl (fun _ => heq)
    (static (nameOf text) || (deepen cur log).bound (nameOf text)) (pinned_iff _)
  exact hset.simulatesAt haflag

theorem exportFlag_fixed (readonly optN : Bool) : (exportFlag readonly optN).vstrfixed = false := by
  cases readonly with
  | true => rfl
  | false => rfl

theorem exportFlag_unset (readonly optN : Bool) : (exportFlag readonly optN).vunset = false := by
  cases readonly with
  | true => rfl
  | false => rfl

theorem exportFlag_marks (readonly optN : Bool) :
    (exportFlag readonly optN).vexport = (!readonly && !optN) ∧
      (exportFlag readonly optN).vreadonly = readonly := by
  cases readonly with
  | true => exact ⟨rfl, rfl⟩
  | false => exact ⟨rfl, rfl⟩

/-- `export` of a name without a value. -/
theorem simulates_mark (m : Malloc) (readonly optN : Bool) {name : Bytes} (hbad : badName name = false)
    (heq : 61 ∉ name) :
    Program.Simulates (Rep static) (exportcmd m readonly optN name)
      (Deep.exportcmd static readonly optN name) := by
  rintro st _ ⟨haflag, log, cur, E, h, rfl⟩
  have hdeep : Deep.exportcmd static readonly optN name (deepen cur log) =
      (.ok (), deepen (Function.update cur (nameOf name)
        (Deep.mark readonly optN (cur (nameOf name)))) log) := by
    rw [deepen_update, Deep.exportcmd, if_neg (by rw [hbad]; exact Bool.false_ne_true), if_neg heq,
      Program.modify, lookup_deepen]
  rw [exportcmd, if_neg heq, Program.SimulatesAt, Program.wp_bind, Program.wp_read, Program.wp_bind, hdeep]
  apply wp_findvar h
  · -- there is no such variable, and only a mark brings one about
    intro hnone
    have hempty := h.noCell _ hnone
    obtain ⟨hstatic, hunbound⟩ := h.free_name hnone
    have hfalse : false = true ↔ Pinned static log (nameOf name) := by
      rw [Pinned, hstatic]
      exact ⟨fun hfalse => absurd hfalse Bool.false_ne_true,
        fun hor => (hor.resolve_left Bool.false_ne_true |> hunbound).elim⟩
    have hset := wp_setvar m h haflag hbad holeOf_none none _
      (exportFlag_fixed readonly optN) (exportFlag_unset readonly optN) hfalse
    have hcell : (cur (nameOf name)).set false none (exportFlag readonly optN).vexport
        (exportFlag readonly optN).vreadonly =
        Deep.mark readonly optN (cur (nameOf name)) := by
      rw [hempty]
      cases readonly with
      | true => rfl
      | false =>
        cases optN with
        | true => rfl
        | false => rfl
    rw [hcell] at hset
    dsimp only
    rw [setvar0, Program.wp_bind]
    apply Program.wp_mono hset
    · rintro _ st' ⟨-, hsame, E', hinv⟩
      exact ⟨_, rfl, hinv.rep hsame.localvars (hsame.aflag.trans haflag)⟩
    · rintro _ _ ⟨hro, -⟩
      rw [hempty] at hro
      exact absurd hro Bool.false_ne_true
  · intro vp e he hname
    dsimp only
    rw [Program.wp_bind, wp_varAt (h.var vp e he), Program.wp_modify]
    refine ⟨_, rfl, ?_⟩
    have hinv := @Inv.setFlags static st.localvars log cur E st h vp e he
      (e.flags.mark readonly optN)
      (by cases readonly with | true => rfl | false => rfl)
      (by cases readonly with | true => exact Bool.noConfusion | false => exact id)
      (by cases readonly with | true => rfl | false => rfl)
    have hcell : cellOf (e.flags.mark readonly optN) e.text = Deep.mark readonly optN (cur (nameOf name)) := by
      rw [← hname, h.cell vp e he]
      cases readonly with
      | true => rfl
      | false => rfl
    rw [hcell, hname] at hinv
    exact hinv.rep rfl haflag

theorem simulates_exportcmd (m : Malloc) (readonly optN : Bool) (name : Bytes) :
    Program.Simulates (Rep static) (exportcmd m readonly optN name)
      (Deep.exportcmd static readonly optN name) := by
  by_cases hbad : badName name = true
  · have hdeep : Deep.exportcmd static readonly optN name =
        raiseError (.badName (name.take (namelen name))) := by
      rw [Deep.exportcmd, if_pos hbad]
    rw [hdeep, exportcmd]
    split_ifs with heq
    · exact simulates_badName m hbad _ _
    · rintro st _ ⟨haflag, log, cur, E, h, rfl⟩
      rw [Program.SimulatesAt, Program.wp_bind, Program.wp_read, Program.wp_bind]
      apply wp_findvar h
      · intro _
        exact simulates_badName m hbad none _ st _ (h.rep rfl haflag)
      · intro vp e he hname
        have hgood := badName_of_good (hname ▸ (h.live vp e he).2)
        rw [hbad] at hgood
        cases hgood
  · rw [Bool.not_eq_true] at hbad
    by_cases heq : 61 ∈ name
    · rw [exportcmd, Deep.exportcmd, if_pos heq, if_neg (by rw [hbad]; exact Bool.false_ne_true),
        if_pos heq]
      have hset := @simulates_setvar0 static m name hbad (some (varEnd name)) _
        (exportFlag_fixed readonly optN) (exportFlag_unset readonly optN)
      rw [(exportFlag_marks readonly optN).1, (exportFlag_marks readonly optN).2] at hset
      exact hset
    · exact simulates_mark m readonly optN hbad heq

/-! ### Local variables -/

/-- How making a variable local ends in the frames. -/
theorem bindLocal_run {text : Bytes} (hname : 61 ∈ text ∨ badName text = false) (vexport : Bool)
    (notes : List (Bytes × Cell)) (log : Notes) :
    Deep.bindLocal text vexport (deepen cur (notes :: log)) =
      if (cur (nameOf text)).readonly then
        (.error (.raised (.exerror (some (VarError.readOnly (nameOf text)).message))),
          deepen cur (notes :: log))
      else (.ok (), deepen
        (Function.update cur (nameOf text) (Deep.localCell text vexport (cur (nameOf text))))
        (((nameOf text, cur (nameOf text)) :: notes) :: log)) := by
  have hnot : ¬ (61 ∉ text ∧ badName text = true) := by
    rintro ⟨hno, hbad⟩
    rcases hname with hmem | hgood
    · exact hno hmem
    · rw [hgood] at hbad
      cases hbad
  rw [deepen_bind, Deep.bindLocal, Program.read_bind, if_neg hnot, lookup_deepen]
  split_ifs
  · rfl
  · rw [Program.modify, lookup_deepen]

/-- The table stays what it is when the new local variable is put in its frame. -/
theorem Inv.rep_cons {F : List Localvar} {lv : Localvar} {log : Notes}
    (h : Inv static none ((lv :: F) :: frames) log cur E st) (haflag : st.aflag = false) :
    Rep static { st with localvars := (lv :: F) :: frames } (deepen cur log) := by
  have hcongr := @Inv.congr static none _ log cur E st h { st with localvars := (lv :: F) :: frames }
    rfl rfl rfl
  exact hcongr.rep rfl haflag

/-- What `local` sets a variable to. -/
theorem wp_setLocal (m : Malloc) {hole : Option ℕ} (h : Inv static hole frames log cur E st)
    (haflag : st.aflag = false) {text : Bytes} (hgood : GoodName (nameOf text))
    (hhole : HoleOf E text hole) {vexport : Bool} (hvexport : vexport = true → 61 ∈ text)
    {pinned : Bool} (hpinned : pinned = true ↔ Pinned static log (nameOf text)) :
    SetBy static hole frames log cur E st (nameOf text)
      ((cur (nameOf text)).set pinned (if 61 ∈ text then some (varEnd text) else none) vexport false)
      (setLocal m text { vexport := vexport }) := by
  rw [setLocal]
  split_ifs with heq
  · exact wp_setCopy m h haflag hgood hhole rfl (fun _ => heq) hpinned
  · obtain rfl : vexport = false := by
      rw [← Bool.not_eq_true]
      exact fun hv => heq (hvexport hv)
    exact wp_setvar m h haflag (badName_of_good hgood) hhole none {} rfl rfl hpinned

/-- **A variable that is there is made local**: its text is kept, and it gets another one. -/
theorem simulatesAt_mklocalOld (m : Malloc) {F : List Localvar} {notes : List (Bytes × Cell)}
    (h : Inv static none (F :: frames) (notes :: log) cur E st) (hframes : st.localvars = F :: frames)
    (haflag : st.aflag = false) {text : Bytes} {vexport : Bool} (hvexport : vexport = true → 61 ∈ text)
    {vp : ℕ} {e : Ent} (he : E vp = some e) (hname : nameOf e.text = nameOf text)
    (hnew : nameOf text ∉ notes.map Prod.fst) :
    Program.SimulatesAt (Rep static)
      (do
        let lv ← mklocalOld m text { vexport := vexport } vp
        Program.modify fun st => { st with localvars := (lv :: F) :: frames })
      (Deep.bindLocal text vexport) st (deepen cur (notes :: log)) := by
  have hgood : GoodName (nameOf text) := hname ▸ (h.live vp e he).2
  have hbad := badName_of_good hgood
  have hread : (cur (nameOf text)).readonly = e.flags.vreadonly := (h.cell_of_name he hname).2
  rw [Program.SimulatesAt, bindLocal_run (Or.inr hbad), Program.wp_bind, mklocalOld, Program.wp_bind,
    wp_varAt (h.var vp e he), Program.wp_bind, Program.wp_modify, Program.wp_bind]
  dsimp only
  by_cases hro : e.flags.vreadonly = true
  · -- it is marked, but must not be set
    rw [if_pos (hread.trans hro)]
    apply Program.wp_mono (wp_setLocal m (h.mark he hro) haflag hgood holeOf_none
      hvexport (@pinned_iff static (notes :: log) cur (nameOf text)))
    · rintro _ st' ⟨hwritable, -⟩
      rw [hread, hro] at hwritable
      cases hwritable
    · rintro stop st' ⟨-, rfl, hsame, hinv⟩
      refine ⟨_, rfl, hinv.rep ?_ (hsame.aflag.trans haflag)⟩
      exact hsame.localvars.trans hframes
  · rw [Bool.not_eq_true] at hro
    rw [if_neg (by rw [hread, hro]; exact Bool.false_ne_true)]
    have hlocal := h.localize he hro (hname.symm ▸ hnew)
    rw [hname] at hlocal
    have hhole : HoleOf (Function.update E vp
        (some ⟨{ e.flags with vstrfixed := true, vtextfixed := true }, e.addr, e.text⟩)) text
        (some vp) := by
      intro vp' hvp'
      obtain rfl := Option.some.inj hvp'
      exact ⟨_, Function.update_self _ _ _, hname, hro, rfl⟩
    have hpinned : true = true ↔ Pinned static
        (((nameOf text, cur (nameOf text)) :: notes) :: log) (nameOf text) :=
      ⟨fun _ => Or.inr (bound_note.mpr (Or.inl rfl)), fun _ => rfl⟩
    apply Program.wp_mono (wp_setLocal m hlocal haflag hgood hhole hvexport hpinned)
    · rintro _ st' ⟨-, hsame, E', hinv⟩
      have hcell : (cur (nameOf text)).set true (if 61 ∈ text then some (varEnd text) else none) vexport
          false = Deep.localCell text vexport (cur (nameOf text)) := by
        rw [Cell.set, Bool.not_true, Bool.and_false, if_neg Bool.false_ne_true, Deep.localCell,
          Bool.false_or, hread, hro]
      rw [hcell] at hinv
      exact ⟨_, rfl, hinv.rep_cons (hsame.aflag.trans haflag)⟩
    · rintro _ _ ⟨hreadonly, -⟩
      rw [hread, hro] at hreadonly
      cases hreadonly

/-- **A variable that is not there is made local.** -/
theorem simulatesAt_mklocalNew (m : Malloc) {F : List Localvar} {notes : List (Bytes × Cell)}
    (h : Inv static none (F :: frames) (notes :: log) cur E st) (hframes : st.localvars = F :: frames)
    (haflag : st.aflag = false) {text : Bytes} (hgood : 61 ∈ text → GoodName (nameOf text))
    (vexport : Bool) (hnone : ∀ vp e, E vp = some e → nameOf e.text ≠ nameOf text) :
    Program.SimulatesAt (Rep static)
      (do
        let lv ← mklocalNew m text { vexport := vexport }
        Program.modify fun st => { st with localvars := (lv :: F) :: frames })
      (Deep.bindLocal text vexport) st (deepen cur (notes :: log)) := by
  have hempty := h.noCell _ hnone
  have hwritable : ¬ (cur (nameOf text)).readonly = true := by
    rw [hempty]
    exact Bool.false_ne_true
  rw [Program.SimulatesAt, Program.wp_bind, mklocalNew, Program.wp_bind]
  split_ifs with heq
  · rw [bindLocal_run (Or.inl heq), if_neg hwritable]
    apply Program.wp_mono (wp_setNewLocal m h haflag (hgood heq) hnone rfl (fun _ => heq))
    · rintro _ st' ⟨hsame, vp, E', rfl, hinv⟩
      have hcell : cellOf { vexport := vexport, vstrfixed := true } text =
          Deep.localCell text vexport (cur (nameOf text)) := by
        rw [Deep.localCell, if_pos heq, hempty, Bool.or_false]
        rfl
      rw [hcell, ← hempty] at hinv
      exact ⟨_, rfl, hinv.rep_cons (hsame.aflag.trans haflag)⟩
    · exact fun _ _ hfails => hfails
  · by_cases hbad : badName text = true
    · rw [setvar_of_badName hbad]
      have hrun : Deep.bindLocal text vexport (deepen cur (notes :: log)) =
          raiseError (.badName (text.take (namelen text))) (deepen cur (notes :: log)) := by
        rw [Deep.bindLocal, Program.read_bind, if_pos ⟨heq, hbad⟩]
      rw [hrun]
      exact ⟨_, rfl, h.rep hframes haflag⟩
    · have hfalse : ¬ badName text = true := hbad
      rw [Bool.not_eq_true] at hbad
      rw [bindLocal_run (Or.inr hbad), if_neg hwritable, setvar, if_neg hfalse]
      have hname := nameOf_nameeq hbad none
      apply Program.wp_mono (wp_setNewLocal m h haflag (hname.symm ▸ good_of_not_badName hbad)
        (fun vp e he => hname.symm ▸ hnone vp e he) rfl
        (fun hset => absurd hset Bool.noConfusion))
      · rintro _ st' ⟨hsame, vp, E', rfl, hinv⟩
        have hcell : cellOf { vexport := vexport, vstrfixed := true, vunset := true, vnosave := true }
            (text.take (namelen text) ++ (none : Option Bytes).elim [] (61 :: ·)) =
            Deep.localCell text vexport (cur (nameOf text)) := by
          rw [Deep.localCell, if_neg heq, hempty, Bool.or_false]
          rfl
        dsimp only at hinv
        rw [Option.isNone_none, Bool.or_true, hcell, hname, ← hempty] at hinv
        exact ⟨_, rfl, hinv.rep_cons (hsame.aflag.trans haflag)⟩
      · exact fun _ _ hfails => hfails

/-- **`local`**, or an assignment before a command. -/
theorem simulates_mklocal (m : Malloc) {text : Bytes} {vexport : Bool}
    (hgood : 61 ∈ text → GoodName (nameOf text)) (hvexport : vexport = true → 61 ∈ text) :
    Program.Simulates (Rep static) (mklocal m text { vexport := vexport })
      (Deep.mklocal static text vexport) := by
  rintro st _ ⟨haflag, log, cur, E, h, rfl⟩
  rw [Program.SimulatesAt, mklocal, Program.wp_bind, Program.wp_read]
  have hnoted := h.noted
  have hrun : ∀ s : Bindings, Deep.mklocal static text vexport s =
      if s.frames.isEmpty then (.error .undefined, s)
      else if s.binds (nameOf text) then
        (if 61 ∈ text then setBinding static (nameOf text) (some (varEnd text)) false false
          else pure ()) s
      else Deep.bindLocal text vexport s := by
    intro s
    rw [Deep.mklocal, Program.read_bind]
    split_ifs
    · rfl
    · rfl
    · rfl
    · rfl
  rw [hrun]
  cases hlocalvars : st.localvars with
  | nil =>
    rw [hlocalvars] at hnoted
    cases hnoted with
    | nil => exact ⟨_, rfl, h.rep rfl haflag⟩
  | cons F frames =>
    rw [hlocalvars] at hnoted h
    obtain ⟨notes, log, rfl⟩ : ∃ notes log', log = notes :: log' := by
      cases hnoted with
      | push _ => exact ⟨_, _, rfl⟩
      | note _ _ _ _ => exact ⟨_, _, rfl⟩
    dsimp only
    have hnonempty : ¬ (deepen cur (notes :: log)).frames.isEmpty = true := Bool.false_ne_true
    rw [if_neg hnonempty, Program.wp_bind]
    apply Program.wp_mono (wp_isLocal h text hnoted)
    · rintro duplicate st' ⟨rfl, hduplicate⟩
      rw [← binds_deepen cur notes log, ← Bool.eq_iff_iff] at hduplicate
      rw [← hduplicate]
      by_cases hdup : duplicate = true
      · rw [if_pos hdup, if_pos hdup]
        split_ifs with heq
        · have hset := @wp_setCopy static none (F :: frames) (notes :: log) cur E _ m h haflag text
            (hgood heq) holeOf_none {} rfl (fun _ => heq)
            (static (nameOf text) || (deepen cur (notes :: log)).bound (nameOf text)) (pinned_iff _)
          rw [← hlocalvars] at hset
          exact hset.simulatesAt haflag
        · exact ⟨_, rfl, h.rep hlocalvars haflag⟩
      · rw [if_neg hdup, if_neg hdup, Program.wp_bind]
        have hnew : nameOf text ∉ notes.map Prod.fst := by
          rw [← binds_deepen cur notes log, ← hduplicate]
          exact hdup
        apply wp_findvar h
        · intro hnone
          exact simulatesAt_mklocalNew m h hlocalvars haflag hgood vexport hnone
        · intro vp e he hname
          exact simulatesAt_mklocalOld m h hlocalvars haflag hvexport he hname hnew
    · exact fun _ _ hfails => hfails

/-! ### Frames -/

theorem simulates_pushlocalvars :
    Program.Simulates (Rep static) pushlocalvars (deep static).pushlocalvars := by
  rintro st _ ⟨haflag, log, cur, E, h, rfl⟩
  refine ⟨(deepen cur log).push, rfl, ?_⟩
  rw [← deepen_push]
  have hpush := @Inv.congr static none _ _ cur E st h.push { st with localvars := [] :: st.localvars }
    rfl rfl rfl
  exact hpush.rep rfl haflag

/-- There are as many frames as there are lists of notes. -/
theorem Noted.length_eq {hole : Option ℕ} {T : ℕ → Option Bytes}
    (h : Noted static hole E T frames log) : frames.length = log.length := by
  induction h with
  | nil => rfl
  | push _ ih => rw [List.length_cons, List.length_cons, ih]
  | note _ _ _ _ ih =>
    rw [List.length_cons] at ih ⊢
    rw [ih, List.length_cons, List.length_cons]

theorem Rep.length_eq {s : Bindings} (h : Rep static st s) :
    st.localvars.length = s.frames.length := by
  obtain ⟨-, log, cur, E, hinv, rfl⟩ := h
  rw [hinv.noted.length_eq, length_frames_deepen]

theorem simulates_localvarStack (m : Malloc) :
    Program.Simulates (Rep static) (vartab m).localvarStack Deep.localvarStack := by
  intro st s h
  refine ⟨s, ?_, h⟩
  rw [h.length_eq]
  rfl

/-- **A frame is left.** -/
theorem simulatesAt_poplocalvars (m : Malloc) {s : Bindings} (h : Rep static st s)
    (hframes : s.frames ≠ []) :
    Program.SimulatesAt (Rep static) (poplocalvars m) (Program.modify Scopes.pop) st s := by
  have hlen := h.length_eq
  obtain ⟨haflag, log, cur, E, hinv, rfl⟩ := h
  have hnoted := hinv.noted
  rw [Program.SimulatesAt, poplocalvars, Program.wp_bind, Program.wp_read]
  cases hlocalvars : st.localvars with
  | nil =>
    rw [hlocalvars, List.length_nil] at hlen
    exact absurd (List.eq_nil_of_length_eq_zero hlen.symm) hframes
  | cons F frames =>
    rw [hlocalvars] at hnoted hinv
    obtain ⟨notes, log, rfl⟩ : ∃ notes log', log = notes :: log' := by
      cases hnoted with
      | push _ => exact ⟨_, _, rfl⟩
      | note _ _ _ _ => exact ⟨_, _, rfl⟩
    dsimp only
    rw [Program.wp_bind, Program.wp_modify]
    have hpopped := @Inv.congr static none _ _ cur E st hinv { st with localvars := frames } rfl rfl rfl
    apply Program.wp_mono (wp_poplocalvarsLoop m hpopped haflag)
    · rintro _ st' ⟨hsame, E', hinv'⟩
      refine ⟨_, rfl, ?_⟩
      rw [← deepen_pop]
      exact hinv'.rep hsame.localvars (hsame.aflag.trans haflag)
    · exact fun _ _ hfails => hfails

/-- Some frames are left, one after the other. -/
theorem simulatesAt_popN (m : Malloc) (n : ℕ) {s : Bindings} (h : Rep static st s)
    (hn : n ≤ s.frames.length) :
    Program.SimulatesAt (Rep static) (popN m n)
      (Program.modify fun s => ⟨s.base, s.frames.drop n⟩) st s := by
  induction n generalizing st s with
  | zero => exact ⟨_, rfl, h⟩
  | succ n ih =>
    have hne : s.frames ≠ [] := by
      rintro hnil
      rw [hnil, List.length_nil] at hn
      omega
    rw [Program.SimulatesAt, popN, Program.wp_bind]
    apply Program.wp_mono (simulatesAt_poplocalvars m h hne)
    · rintro _ st' ⟨s', hs', hrep⟩
      obtain rfl : s.pop = s' := congrArg Prod.snd hs'
      have hlen : n ≤ s.pop.frames.length := by
        rw [Scopes.pop, List.length_tail]
        omega
      have hdrop : s.pop.frames.drop n = s.frames.drop (n + 1) := by
        rw [Scopes.pop, List.drop_tail]
      apply Program.wp_mono (ih hrep hlen)
      · rintro _ st'' ⟨s'', hs'', hrep'⟩
        refine ⟨s'', ?_, hrep'⟩
        rw [← hs'', Program.modify, Program.modify, hdrop]
        rfl
      · rintro e st'' ⟨s'', hs'', -⟩
        cases hs''
    · rintro e st' ⟨s', hs', -⟩
      cases hs'

theorem simulates_unwindlocalvars (m : Malloc) (stop : ℕ) :
    Program.Simulates (Rep static) (unwindlocalvars m stop) (Deep.unwindlocalvars stop) := by
  intro st s h
  rw [Program.SimulatesAt, unwindlocalvars, Program.wp_bind, Program.wp_read, h.length_eq]
  have hrun : Deep.unwindlocalvars stop s = if s.frames.length < stop then (.error .undefined, s)
      else (.ok (), s.outer stop) := by
    rw [Deep.unwindlocalvars, Program.read_bind]
    split_ifs
    · rfl
    · rfl
  rw [hrun]
  split_ifs
  · exact ⟨_, rfl, h⟩
  · exact simulatesAt_popN m _ h (Nat.sub_le _ _)

theorem simulates_environ (m : Malloc) (lp : List Bytes) :
    Program.Simulates (Rep static) ((vartab m).environ lp) (Deep.environ lp) := by
  rintro st _ ⟨haflag, log, cur, E, h, rfl⟩
  dsimp only [vartab]
  rw [Program.SimulatesAt, Program.wp_bind]
  apply Program.wp_mono (wp_listvars h lp)
  · rintro env st' ⟨rfl, henv⟩
    refine ⟨deepen cur log, ?_, h.rep rfl haflag⟩
    rw [Deep.environ, Program.read_bind, lookup_deepen, henv]
    rfl
  · exact fun _ _ hfails => hfails

end

end OsMoap.Shell.Vars
