import OsMoap.Shell.Scopes

/-!
# A Shell Does as the Frames Say

Whatever is run does the same on the table and on the frames: the same values are found, the same
environments are handed on and the same errors raised, and no block is used after it has been freed.
What a command makes local does not last.
-/

namespace OsMoap.Shell.Vars

open OsMoap.Lib OsMoap.Pack

/-! ## Whatever is run -/

/-- One store does what the other does. -/
structure Store.Simulates {σ τ : Type} (R : σ → τ → Prop) (S : Store σ) (S' : Store τ) : Prop where
  lookupvar : ∀ name, Program.Simulates R (S.lookupvar name) (S'.lookupvar name)
  setvar : ∀ name val, Program.Simulates R (S.setvar name val) (S'.setvar name val)
  setvareq : ∀ text vexport, GoodName (nameOf text) → 61 ∈ text →
    Program.Simulates R (S.setvareq text vexport) (S'.setvareq text vexport)
  exportcmd : ∀ readonly optN name,
    Program.Simulates R (S.exportcmd readonly optN name) (S'.exportcmd readonly optN name)
  mklocal : ∀ text vexport, (61 ∈ text → GoodName (nameOf text)) → (vexport = true → 61 ∈ text) →
    Program.Simulates R (S.mklocal text vexport) (S'.mklocal text vexport)
  pushlocalvars : Program.Simulates R S.pushlocalvars S'.pushlocalvars
  localvarStack : Program.Simulates R S.localvarStack S'.localvarStack
  unwindlocalvars : ∀ stop, Program.Simulates R (S.unwindlocalvars stop) (S'.unwindlocalvars stop)
  environ : ∀ lp, Program.Simulates R (S.environ lp) (S'.environ lp)

theorem vartab_simulates (static : Bytes → Bool) (m : Malloc) :
    Store.Simulates (Rep static) (vartab m) (deep static) where
  lookupvar := simulates_lookupvar
  setvar := simulates_setvar m
  setvareq _ vexport hgood heq := simulates_setvareq m hgood heq vexport
  exportcmd := simulates_exportcmd m
  mklocal _ _ hgood hvexport := simulates_mklocal m hgood hvexport
  pushlocalvars := simulates_pushlocalvars
  localvarStack := simulates_localvarStack m
  unwindlocalvars := simulates_unwindlocalvars m
  environ := simulates_environ m

section

variable {σ τ : Type} {R : σ → τ → Prop} {S : Store σ} {S' : Store τ}

theorem simulates_attempt {α : Type} {m : Program σ Stop α} {m' : Program τ Stop α}
    (h : Program.Simulates R m m') : Program.Simulates R (attempt m) (attempt m') := by
  intro s t hst
  obtain ⟨hres, hrel⟩ := (h s t hst).run
  rw [Program.SimulatesAt, Program.wp, attempt, attempt]
  rcases hm : m s with ⟨(e | _) | a, s'⟩
  · rcases hm' : m' t with ⟨r, t'⟩
    rw [hm, hm'] at hres hrel
    obtain rfl : _ = r := hres
    exact ⟨t', rfl, hrel⟩
  · rcases hm' : m' t with ⟨r, t'⟩
    rw [hm, hm'] at hres hrel
    obtain rfl : _ = r := hres
    exact ⟨t', rfl, hrel⟩
  · rcases hm' : m' t with ⟨r, t'⟩
    rw [hm, hm'] at hres hrel
    obtain rfl : _ = r := hres
    exact ⟨t', rfl, hrel⟩

theorem Store.Simulates.pushIf (h : Store.Simulates R S S') (vlocal : Bool) :
    Program.Simulates R (S.pushIf vlocal) (S'.pushIf vlocal) := by
  apply h.localvarStack.bind
  intro localvarStop
  apply Program.Simulates.ite
  · exact h.pushlocalvars.bind fun _ => Program.simulates_pure localvarStop
  · exact Program.simulates_pure localvarStop

/-- A text that an assignment sets a variable by. -/
theorem nameOf_assign (name : AssignName) (v : Bytes) :
    GoodName (nameOf (name.1 ++ 61 :: v)) ∧ 61 ∈ name.1 ++ 61 :: v := by
  refine ⟨?_, List.mem_append_right _ List.mem_cons_self⟩
  rw [nameOf_append name.2.notMem]
  exact name.2

mutual

theorem Acts.simulates (h : Store.Simulates R S S') : ∀ acts : Acts,
    Program.Simulates R (acts.run S) (acts.run S')
  | .done result => Program.simulates_pure result
  | .raise e => Program.simulates_stop (Stop.raised e)
  | .lookupvar name next => (h.lookupvar name).bind fun val => (next val).simulates h
  | .setvar name val next => (h.setvar name val).bind fun _ => next.simulates h
  | .exportcmd readonly optN name next => (h.exportcmd readonly optN name).bind fun _ => next.simulates h
  | .localcmd arg next => by
    apply h.localvarStack.bind
    intro localvarStack
    apply Program.Simulates.ite
    · exact Program.simulates_stop _
    · exact (h.mklocal arg.1 false arg.2 fun hfalse => absurd hfalse Bool.false_ne_true).bind
        fun _ => next.simulates h
  | .evalcommand redirFails vexport assigns command next => by
    apply (h.pushIf _).bind
    intro localvarStop
    have hcommand : Program.Simulates R
        (if redirFails then
          if command.spclbltin then Program.stop (.raised (.exerror none)) else pure none
        else do
          let varlist ← assigns.run S (!command.spclbltin) vexport
          command.run S varlist)
        (if redirFails then
          if command.spclbltin then Program.stop (.raised (.exerror none)) else pure none
        else do
          let varlist ← assigns.run S' (!command.spclbltin) vexport
          command.run S' varlist) := by
      apply Program.Simulates.ite
      · apply Program.Simulates.ite
        · exact Program.simulates_stop _
        · exact Program.simulates_pure _
      · exact (assigns.simulates h _ _).bind fun varlist => command.simulates h varlist
    apply hcommand.bind
    intro result
    exact (h.unwindlocalvars _).bind fun _ => (next result).simulates h
  | .backquote body next =>
    (simulates_attempt (body.simulates h)).bind fun result => (next result).simulates h

theorem Assigns.simulates (h : Store.Simulates R S S') (vlocal vexport : Bool) : ∀ assigns : Assigns,
    Program.Simulates R (assigns.run S vlocal vexport) (assigns.run S' vlocal vexport)
  | .nil => Program.simulates_pure []
  | .cons name value rest => by
    apply (value.simulates h).bind
    intro v
    obtain ⟨hgood, heq⟩ := nameOf_assign name v
    have hset : Program.Simulates R
        (if vlocal then S.mklocal (name.1 ++ 61 :: v) true else S.setvareq (name.1 ++ 61 :: v) vexport)
        (if vlocal then S'.mklocal (name.1 ++ 61 :: v) true
          else S'.setvareq (name.1 ++ 61 :: v) vexport) :=
      Program.Simulates.ite (h.mklocal _ _ (fun _ => hgood) fun _ => heq) (h.setvareq _ _ hgood heq)
    apply hset.bind
    intro _
    exact (rest.simulates h vlocal vexport).bind fun varlist => Program.simulates_pure _

theorem Command.simulates (h : Store.Simulates R S S') (varlist : List Bytes) : ∀ command : Command,
    Program.Simulates R (command.run S varlist) (command.run S' varlist)
  | .unknown => Program.simulates_pure none
  | .external status => (h.environ varlist).bind fun env => Program.simulates_pure _
  | .builtin special body => by
    apply (simulates_attempt (body.simulates h)).bind
    intro result
    cases result with
    | ok status => exact Program.simulates_pure _
    | error e =>
      cases e with
      | exerror message =>
        apply Program.Simulates.ite
        · exact Program.simulates_stop _
        · exact Program.simulates_pure _
      | exexit => exact Program.simulates_stop _
  | .function body => (body.simulates h).bind fun status => Program.simulates_pure _

end

theorem simulates_session (h : Store.Simulates R S S') (commands : List Acts) :
    Program.Simulates R (session S commands) (session S' commands) := by
  induction commands with
  | nil => exact Program.simulates_pure []
  | cons command commands ih =>
    apply (simulates_attempt (command.simulates h)).bind
    intro result
    rcases result with (message | _) | status
    · exact (h.unwindlocalvars 0).bind fun _ => ih.bind fun results => Program.simulates_pure _
    · exact (h.unwindlocalvars 0).bind fun _ => Program.simulates_pure _
    · exact ih.bind fun results => Program.simulates_pure _

end

theorem raised_ne_undefined (e : Exn) : Stop.raised e ≠ .undefined := Stop.noConfusion

/-! ## What is kept in the frames -/

/-- A property of the bindings that lasts as long as `d` frames are not left. -/
structure Kept (d : ℕ) (Q : Bindings → Prop) : Prop where
  assign : ∀ s n c, Q s → Q (s.assign n c)
  bind : ∀ s n c, Q s → Q (s.bind n c)
  push : ∀ s, Q s → Q s.push
  outer : ∀ s stop, d ≤ stop → stop ≤ s.frames.length → Q s → Q (s.outer stop)

/-- From a state with `d` frames the program ends in one with no fewer frames than there were. -/
def Grows {α : Type} (d : ℕ) (Q : Bindings → Prop) (m : Bd α) : Prop :=
  ∀ s, Q s → d ≤ s.frames.length →
    m.wp (fun _ s' => Q s' ∧ s.frames.length ≤ s'.frames.length)
      (fun e s' => e ≠ .undefined ∧ Q s' ∧ s.frames.length ≤ s'.frames.length) s

section

variable {d : ℕ} {Q : Bindings → Prop} {α β : Type}

theorem grows_pure (a : α) : Grows d Q (pure a : Bd α) := fun _ hQ _ => ⟨hQ, le_refl _⟩

theorem grows_raise (e : Exn) : Grows d Q (Program.stop (.raised e) : Bd α) :=
  fun _ hQ _ => ⟨raised_ne_undefined _, hQ, le_refl _⟩

theorem Grows.bind {m : Bd α} {f : α → Bd β} (hm : Grows d Q m) (hf : ∀ a, Grows d Q (f a)) :
    Grows d Q (m >>= f) := by
  intro s hQ hd
  rw [Program.wp_bind]
  apply Program.wp_mono (hm s hQ hd)
  · rintro a s' ⟨hQ', hlen⟩
    apply Program.wp_mono (hf a s' hQ' (hd.trans hlen))
    · exact fun _ s'' ⟨hQ'', hlen'⟩ => ⟨hQ'', hlen.trans hlen'⟩
    · exact fun _ s'' ⟨he, hQ'', hlen'⟩ => ⟨he, hQ'', hlen.trans hlen'⟩
  · exact fun _ _ hfails => hfails

theorem grows_attempt {m : Bd α} (hm : Grows d Q m) : Grows d Q (attempt m) := by
  intro s hQ hd
  have hwp := hm s hQ hd
  rw [Program.wp] at hwp
  rw [Program.wp, attempt]
  rcases hrun : m s with ⟨(e | _) | a, s'⟩
  · rw [hrun] at hwp
    exact hwp.2
  · rw [hrun] at hwp
    exact absurd rfl hwp.1
  · rw [hrun] at hwp
    exact hwp

theorem grows_read {f : Bindings → Bd α} (h : ∀ s, Q s → Grows d Q (f s)) :
    Grows d Q (Program.read >>= f) := by
  intro s hQ hd
  rw [Program.wp_bind, Program.wp_read]
  exact h s hQ s hQ hd

theorem Grows.ite {m n : Bd α} {c : Prop} [Decidable c] (hm : Grows d Q m) (hn : Grows d Q n) :
    Grows d Q (if c then m else n) := by
  split_ifs
  · exact hm
  · exact hn

variable {static : Bytes → Bool}

theorem Kept.setBinding (h : Kept d Q) (n : Bytes) (value : Option Bytes) (exported readonly : Bool) :
    Grows d Q (setBinding static n value exported readonly) := by
  apply grows_read
  intro s _
  apply (grows_raise _).ite
  intro s' hQ _
  exact ⟨h.assign _ _ _ hQ, (Scopes.length_assign _ _ _).ge⟩

theorem Kept.setvar (h : Kept d Q) (name : Bytes) (val : Option Bytes) :
    Grows d Q (Deep.setvar static name val) :=
  (grows_raise _).ite (h.setBinding _ _ _ _)

theorem Kept.exportcmd (h : Kept d Q) (readonly optN : Bool) (name : Bytes) :
    Grows d Q (Deep.exportcmd static readonly optN name) := by
  apply (grows_raise _).ite
  apply (h.setBinding _ _ _ _).ite
  intro s hQ _
  exact ⟨h.assign _ _ _ hQ, (Scopes.length_assign _ _ _).ge⟩

theorem Kept.bindLocal (h : Kept d Q) (text : Bytes) (vexport : Bool) :
    Grows d Q (Deep.bindLocal text vexport) := by
  apply grows_read
  intro s _
  apply (grows_raise _).ite
  apply (grows_raise _).ite
  intro s' hQ _
  exact ⟨h.bind _ _ _ hQ, (Scopes.length_bind _ _ _).ge⟩

/-- There must be a frame to put a local variable in. -/
theorem Kept.mklocal (h : Kept d Q) (text : Bytes) (vexport : Bool) {s : Bindings} (hQ : Q s)
    (hd : d ≤ s.frames.length) (hpos : 0 < s.frames.length) :
    (Deep.mklocal static text vexport).wp (fun _ s' => Q s' ∧ s.frames.length ≤ s'.frames.length)
      (fun e s' => e ≠ .undefined ∧ Q s' ∧ s.frames.length ≤ s'.frames.length) s := by
  rw [Deep.mklocal, Program.wp_bind, Program.wp_read]
  have hne : ¬ s.frames.isEmpty = true := by
    rw [List.isEmpty_iff_length_eq_zero]
    omega
  rw [if_neg hne]
  split_ifs
  · exact h.setBinding _ _ _ _ s hQ hd
  · exact grows_pure () s hQ hd
  · exact h.bindLocal text vexport s hQ hd

/-- Frames that have come on top are left. -/
theorem Kept.unwindlocalvars (h : Kept d Q) {stop : ℕ} (hd : d ≤ stop) {s : Bindings} (hQ : Q s)
    (hstop : stop ≤ s.frames.length) {Er : Stop → Bindings → Prop} :
    (Deep.unwindlocalvars stop).wp (fun _ s' => Q s' ∧ s'.frames.length = stop ∧ s' = s.outer stop)
      Er s := by
  rw [Deep.unwindlocalvars, Program.wp_bind, Program.wp_read, if_neg (by omega), Program.wp_modify]
  exact ⟨h.outer s stop hd hstop hQ, Scopes.length_outer hstop, rfl⟩

/-- Where a frame is pushed, there is one more. -/
theorem Kept.pushIf (h : Kept d Q) (vlocal : Bool) {s : Bindings} (hQ : Q s)
    {Er : Stop → Bindings → Prop} :
    ((deep static).pushIf vlocal).wp (fun stop s' => stop = s.frames.length ∧ Q s' ∧
      s'.frames.length = s.frames.length + (if vlocal then 1 else 0)) Er s := by
  have hread : (deep static).localvarStack = Deep.localvarStack := rfl
  rw [Store.pushIf, Program.wp_bind, hread, Deep.localvarStack, Program.wp_bind, Program.wp_read,
    Program.wp_pure]
  split_ifs with hlocal
  · exact ⟨rfl, h.push s hQ, rfl⟩
  · exact ⟨rfl, hQ, rfl⟩

mutual

theorem Acts.grows : ∀ (acts : Acts) {d : ℕ} (_ : Kept d Q), Grows d Q (acts.run (deep static))
  | .done result, _, _ => grows_pure result
  | .raise e, _, _ => grows_raise e
  | .lookupvar name next, _, h =>
    (grows_read fun _ _ => grows_pure _).bind fun val => (next val).grows h
  | .setvar name val next, _, h => (h.setvar name val).bind fun _ => next.grows h
  | .exportcmd readonly optN name next, _, h =>
    (h.exportcmd readonly optN name).bind fun _ => next.grows h
  | .localcmd arg next, d, h => by
    intro s hQ hd
    have hstack : (deep static).localvarStack = Deep.localvarStack := rfl
    rw [Acts.run, Program.wp_bind, hstack, Deep.localvarStack, Program.wp_bind, Program.wp_read,
      Program.wp_pure]
    split_ifs with hempty
    · exact ⟨raised_ne_undefined _, hQ, le_refl _⟩
    · rw [Program.wp_bind]
      apply Program.wp_mono (h.mklocal arg.1 false hQ hd (Nat.pos_of_ne_zero hempty))
      · rintro _ s' ⟨hQ', hlen⟩
        apply Program.wp_mono (next.grows h s' hQ' (hd.trans hlen))
        · exact fun _ s'' ⟨hQ'', hlen'⟩ => ⟨hQ'', hlen.trans hlen'⟩
        · exact fun _ s'' ⟨he, hQ'', hlen'⟩ => ⟨he, hQ'', hlen.trans hlen'⟩
      · exact fun _ _ hfails => hfails
  | .evalcommand redirFails vexport assigns command next, d, h => by
    intro s hQ hd
    rw [Acts.run, Program.wp_bind]
    apply Program.wp_mono (h.pushIf (!command.spclbltin) hQ)
    · rintro _ s₁ ⟨rfl, hQ₁, hlen₁⟩
      have hmono : Kept s₁.frames.length Q :=
        ⟨h.assign, h.bind, h.push, fun s' stop hstop => h.outer s' stop (by omega)⟩
      have hcommand : Grows s₁.frames.length Q
          (if redirFails then
            if command.spclbltin then Program.stop (.raised (.exerror none)) else pure none
          else do
            let varlist ← assigns.run (deep static) (!command.spclbltin) vexport
            command.run (deep static) varlist) := by
        apply ((grows_raise _).ite (grows_pure _)).ite
        apply Grows.bind
        · apply assigns.grows vexport hmono
          intro hlocal
          rw [if_pos hlocal] at hlen₁
          omega
        · exact fun varlist => command.grows varlist hmono
      rw [Program.wp_bind]
      apply Program.wp_mono (hcommand s₁ hQ₁ (le_refl _))
      · rintro result s₂ ⟨hQ₂, hlen₂⟩
        rw [Program.wp_bind]
        apply Program.wp_mono (h.unwindlocalvars hd hQ₂ (by omega))
        · rintro _ s₃ ⟨hQ₃, hlen₃, -⟩
          apply Program.wp_mono ((next result).grows h s₃ hQ₃ (by omega))
          · exact fun _ s₄ ⟨hQ₄, hlen₄⟩ => ⟨hQ₄, by omega⟩
          · exact fun _ s₄ ⟨he, hQ₄, hlen₄⟩ => ⟨he, hQ₄, by omega⟩
        · exact fun _ _ hfails => hfails
      · exact fun _ s₂ ⟨he, hQ₂, hlen₂⟩ => ⟨he, hQ₂, by omega⟩
    · exact fun _ _ hfails => hfails
  | .backquote body next, _, h =>
    (grows_attempt (body.grows h)).bind fun result => (next result).grows h

theorem Assigns.grows : ∀ (assigns : Assigns) {vlocal : Bool} (vexport : Bool) {d : ℕ} (_ : Kept d Q)
    (_ : vlocal = true → 0 < d), Grows d Q (assigns.run (deep static) vlocal vexport)
  | .nil, _, _, _, _, _ => grows_pure []
  | .cons name value rest, vlocal, vexport, d, h, hlocal => by
    apply (value.grows h).bind
    intro v
    have hset : Grows d Q
        (if vlocal then (deep static).mklocal (name.1 ++ 61 :: v) true
          else (deep static).setvareq (name.1 ++ 61 :: v) vexport) := by
      split_ifs with hvlocal
      · exact fun s hQ hd => h.mklocal _ _ hQ hd (by have hpos := hlocal hvlocal; omega)
      · exact h.setBinding _ _ _ _
    apply hset.bind
    intro _
    exact (rest.grows vexport h hlocal).bind fun varlist => grows_pure _

theorem Command.grows : ∀ (command : Command) (varlist : List Bytes) {d : ℕ} (_ : Kept d Q),
    Grows d Q (command.run (deep static) varlist)
  | .unknown, _, _, _ => grows_pure none
  | .external status, _, _, _ => (grows_read fun _ _ => grows_pure _).bind fun env => grows_pure _
  | .builtin special body, _, _, h => by
    apply (grows_attempt (body.grows h)).bind
    intro result
    rcases result with (message | _) | status
    · exact (grows_raise _).ite (grows_pure _)
    · exact grows_raise _
    · exact grows_pure _
  | .function body, _, _, h => (body.grows h).bind fun status => grows_pure _

end

end

/-! ## A shell from beginning to end -/

theorem kept_true : Kept 0 fun _ => True :=
  ⟨fun _ _ _ h => h, fun _ _ _ h => h, fun _ h => h, fun _ _ _ _ h => h⟩

/-- `reset` leaves all frames. -/
theorem wp_reset {s : Bindings} {Q : Unit → Bindings → Prop} {Er : Stop → Bindings → Prop}
    (hQ : Q () (s.outer 0)) : (Deep.unwindlocalvars 0).wp Q Er s := by
  rw [Deep.unwindlocalvars, Program.wp_bind, Program.wp_read, if_neg (Nat.not_lt_zero _)]
  exact hQ

/-- A session ends when there are no more commands, or with `exit`. -/
theorem session_returns (static : Bytes → Bool) (commands : List Acts) (s : Bindings) :
    (session (deep static) commands).wp (fun _ _ => True) (fun _ _ => False) s := by
  induction commands generalizing s with
  | nil => exact trivial
  | cons command commands ih =>
    have hmore : ∀ (result : Except Exn Bytes) (s' : Bindings),
        (do
          let results ← session (deep static) commands
          pure (result :: results) : Bd (List (Except Exn Bytes))).wp (fun _ _ => True)
          (fun _ _ => False) s' := by
      intro result s'
      rw [Program.wp_bind]
      exact ih s'
    rw [session, Program.wp_bind]
    have hattempt : (attempt (command.run (deep static))).wp (fun _ _ => True) (fun _ _ => False) s := by
      rw [Program.wp, attempt]
      have hwp := @Acts.grows (fun _ => True) static command 0 kept_true s trivial (Nat.zero_le _)
      rw [Program.wp] at hwp
      rcases hrun : command.run (deep static) s with ⟨(e | _) | a, s'⟩
      · exact trivial
      · rw [hrun] at hwp
        exact hwp.1 rfl
      · exact trivial
    apply Program.wp_mono hattempt
    · rintro result s' -
      rcases result with (message | _) | status
      · rw [Program.wp_bind]
        exact wp_reset (hmore _ _)
      · rw [Program.wp_bind]
        exact wp_reset trivial
      · exact hmore _ _
    · exact fun _ _ hfalse => hfalse

namespace Deep

/-- The names that the shell always has. -/
def known : Bytes → Bool := initStatic varinit fun _ => false

def base : Bindings := ⟨initCells varinit fun _ => {}, []⟩

def importEnviron : List Bytes → Bd Unit
  | [] => pure ()
  | text :: rest => do
    (if 61 ∈ text then setvareq known text true else pure ())
    importEnviron rest

def init (environ : List Bytes) (ppid pwd : Bytes) : Bd Unit := do
  importEnviron environ
  setvareq known defifsvar false
  setvareq known defoptindvar false
  setvar known (ascii "PPID") (some ppid)
  setBinding known (nameOf (ascii "PWD")) (some pwd) true false

def ash (environ : List Bytes) (ppid pwd : Bytes) (commands : List Acts) :
    Bd (List (Except Exn Bytes)) := do
  init environ ppid pwd
  session (deep known) commands

end Deep

section

variable {static : Bytes → Bool}

theorem simulates_setFixed (m : Malloc) {text : Bytes} (hgood : GoodName (nameOf text))
    (heq : 61 ∈ text) (vexport : Bool) :
    Program.Simulates (Rep static) (setFixed m text { vexport := vexport })
      (Deep.setvareq static text vexport) := by
  rintro st _ ⟨haflag, log, cur, E, h, rfl⟩
  have hset := @wp_setCopy static none st.localvars log cur E st m h haflag text hgood
    holeOf_none { vexport := vexport, vtextfixed := true } rfl (fun _ => heq)
    (static (nameOf text) || (deepen cur log).bound (nameOf text)) (pinned_iff _)
  exact hset.simulatesAt haflag

theorem simulates_importEnviron (m : Malloc) {environ : List Bytes}
    (hgood : ∀ text ∈ environ, 61 ∈ text → GoodName (nameOf text)) :
    Program.Simulates (Rep Deep.known) (importEnviron m environ) (Deep.importEnviron environ) := by
  induction environ with
  | nil => exact Program.simulates_pure ()
  | cons text rest ih =>
    have hset : Program.Simulates (Rep Deep.known)
        (if 61 ∈ text then setFixed m text { vexport := true } else pure ())
        (if 61 ∈ text then Deep.setvareq Deep.known text true else pure ()) := by
      split_ifs with heq
      · exact simulates_setFixed m (hgood text List.mem_cons_self heq) heq true
      · exact Program.simulates_pure ()
    exact hset.bind fun _ => ih fun text' htext' => hgood text' (List.mem_cons_of_mem _ htext')

theorem inv_noVariables :
    Inv (fun _ => false) none [] [] (fun _ => {}) (fun _ => none) noVariables where
  mem b vp := by
    constructor
    · exact fun hmem => absurd hmem List.not_mem_nil
    · rintro ⟨e, he, -⟩
      cases he
  nodup _ := List.nodup_nil
  var _ e he := absurd he.symm (Option.some_ne_none e)
  live _ e he := absurd he.symm (Option.some_ne_none e)
  unique _ e _ _ he := absurd he.symm (Option.some_ne_none e)
  apart _ e _ _ he := absurd he.symm (Option.some_ne_none e)
  cell _ e he := absurd he.symm (Option.some_ne_none e)
  noCell _ _ := rfl
  noted := .nil
  saved := List.nodup_nil
  fixed _ e he := absurd he.symm (Option.some_ne_none e)
  loose _ e he := absurd he.symm (Option.some_ne_none e)
  static _ hn := absurd hn Bool.false_ne_true
  eq _ e he := absurd he.symm (Option.some_ne_none e)

/-- The variables that the shell has of its own have names, and no two the same. -/
theorem initVar_varinit : (∀ v ∈ varinit, InitVar v) ∧ (varinit.map fun v => nameOf v.2).Nodup := by
  have hinit : ∀ v ∈ varinit, InitVar v := by
    unfold InitVar
    decide
  exact ⟨hinit, by decide⟩

/-- **What the shell begins with.** -/
theorem simulatesAt_init (m : Malloc) {environ : List Bytes} (ppid pwd : Bytes)
    (hgood : ∀ text ∈ environ, 61 ∈ text → GoodName (nameOf text)) :
    Program.SimulatesAt (Rep Deep.known) (init m environ ppid pwd) (Deep.init environ ppid pwd)
      noVariables Deep.base := by
  obtain ⟨hinit, hnodup⟩ := initVar_varinit
  rw [Program.SimulatesAt, init, Program.wp_bind]
  apply Program.wp_mono (wp_initvar m inv_noVariables hinit hnodup fun _ _ _ e he => absurd he.symm (Option.some_ne_none e))
  · rintro _ st ⟨hsame, E, hinv⟩
    have hrep : Rep Deep.known st Deep.base := hinv.rep hsame.localvars hsame.aflag
    apply Program.Simulates.bind (simulates_importEnviron m hgood) _ st Deep.base hrep
    intro _
    apply (simulates_setFixed m (by decide) (by decide) false).bind
    intro _
    apply (simulates_setFixed m (by decide) (by decide) false).bind
    intro _
    apply (simulates_setvar m (ascii "PPID") (some ppid)).bind
    intro _
    exact simulates_setvar0 m (by decide) (some pwd) rfl rfl
  · exact fun _ _ hfails => hfails

end

/-! ### The shell does as the frames say -/

/-- Nothing is local and nothing read-only. -/
def Fresh (s : Bindings) : Prop := s.frames = [] ∧ ∀ n, (s.lookup n).readonly = false

theorem fresh_base : Fresh Deep.base := by
  have hcells : ∀ (init : List (Flags × Bytes)) (cur : Bytes → Cell),
      (∀ v ∈ init, v.1.vreadonly = false) → (∀ n, (cur n).readonly = false) →
      ∀ n, (initCells init cur n).readonly = false := by
    intro init
    induction init with
    | nil => exact fun _ _ hcur => hcur
    | cons v init ih =>
      intro cur hinit hcur
      apply ih _ fun v' hv' => hinit v' (List.mem_cons_of_mem _ hv')
      intro n
      by_cases heq : n = nameOf v.2
      · rw [heq, Function.update_self]
        exact hinit v List.mem_cons_self
      · rw [Function.update_of_ne heq]
        exact hcur n
  exact ⟨rfl, hcells varinit _ (by decide) fun _ => rfl⟩

theorem Fresh.setBinding {s : Bindings} (h : Fresh s) (static : Bytes → Bool) (n : Bytes)
    (value : Option Bytes) (exported : Bool) :
    (setBinding static n value exported false).wp (fun _ => Fresh) (fun _ _ => False) s := by
  obtain ⟨hframes, hro⟩ := h
  have hwritable : ¬ (s.lookup n).readonly = true := by
    rw [hro]
    exact Bool.false_ne_true
  rw [Vars.setBinding, Program.wp_bind, Program.wp_read, if_neg hwritable, Program.wp_modify]
  constructor
  · apply List.eq_nil_of_length_eq_zero
    rw [Scopes.length_assign, hframes, List.length_nil]
  · intro n'
    rw [Scopes.lookup_assign]
    by_cases heq : n' = n
    · rw [heq, Function.update_self, Cell.set]
      split_ifs
      · rfl
      · exact hro n
    · rw [Function.update_of_ne heq]
      exact hro n'

theorem fresh_importEnviron (environ : List Bytes) {s : Bindings} (h : Fresh s) :
    (Deep.importEnviron environ).wp (fun _ => Fresh) (fun _ _ => False) s := by
  induction environ generalizing s with
  | nil => exact h
  | cons text environ ih =>
    rw [Deep.importEnviron, Program.wp_bind]
    split_ifs
    · exact Program.wp_mono (h.setBinding _ _ _ _) (fun _ _ hs => ih hs) fun _ _ hfalse => hfalse
    · exact ih h

/-- No error is raised before the first command. -/
theorem init_returns (environ : List Bytes) (ppid pwd : Bytes) :
    (Deep.init environ ppid pwd).wp (fun _ => Fresh) (fun _ _ => False) Deep.base := by
  have hppid : Deep.setvar Deep.known (ascii "PPID") (some ppid) =
      setBinding Deep.known (nameOf (ascii "PPID")) (some ppid) false false := by
    rw [Deep.setvar, if_neg (by decide)]
  rw [Deep.init, Program.wp_bind]
  apply Program.wp_mono (fresh_importEnviron environ fresh_base)
  · intro _ s₁ h₁
    rw [Program.wp_bind]
    apply Program.wp_mono (h₁.setBinding _ _ _ _)
    · intro _ s₂ h₂
      rw [Program.wp_bind]
      apply Program.wp_mono (h₂.setBinding _ _ _ _)
      · intro _ s₃ h₃
        rw [Program.wp_bind, hppid]
        apply Program.wp_mono (h₃.setBinding _ _ _ _)
        · exact fun _ s₄ h₄ => h₄.setBinding _ _ _ _
        · exact fun _ _ hfalse => hfalse
      · exact fun _ _ hfalse => hfalse
    · exact fun _ _ hfalse => hfalse
  · exact fun _ _ hfalse => hfalse

/-- **Whatever is run**, from the start of the shell on, a variable has the value that the innermost
function has given to it, errors are raised where the frames say so, and no block is used after it
has been freed. -/
theorem ash_scopes (m : Malloc) {environ : List Bytes} (ppid pwd : Bytes)
    (hgood : ∀ text ∈ environ, 61 ∈ text → GoodName (nameOf text)) (commands : List Acts) :
    ∃ results, (ash m environ ppid pwd commands noVariables).1 = .ok results ∧
      (Deep.ash environ ppid pwd commands Deep.base).1 = .ok results ∧
      Rep Deep.known (ash m environ ppid pwd commands noVariables).2
        (Deep.ash environ ppid pwd commands Deep.base).2 := by
  have hsim : Program.SimulatesAt (Rep Deep.known) (ash m environ ppid pwd commands)
      (Deep.ash environ ppid pwd commands) noVariables Deep.base :=
    (simulatesAt_init m ppid pwd hgood).bind fun _ =>
      simulates_session (vartab_simulates Deep.known m) commands
  obtain ⟨hresults, hrep⟩ := hsim.run
  have hreturns : (Deep.ash environ ppid pwd commands).wp (fun _ _ => True) (fun _ _ => False)
      Deep.base := by
    rw [Deep.ash, Program.wp_bind]
    apply Program.wp_mono (init_returns environ ppid pwd)
    · exact fun _ s _ => session_returns Deep.known commands s
    · exact fun _ _ hfalse => hfalse
  obtain ⟨results, s', hrun, -⟩ := Program.wp_returns.mpr hreturns
  rw [hrun] at hresults
  exact ⟨results, hresults, by rw [hrun], hrep⟩

/-- The first block that is free. -/
def firstFree : Malloc where
  var t := t.lowest 0
  text t := t.lowest 0
  var_free t := t.get_lowest 0
  text_free t := t.get_lowest 0

/-- `x=3`, `f() { local x=2; echo $x; }; f` and `exit`, with `x=1` in the environment. -/
theorem ash_scopes_function :
    ∃ results, (ash firstFree [ascii "x=1"] (ascii "1") (ascii "/")
      [.setvar (ascii "x") (some (ascii "3")) (.done []),
        .evalcommand false false .nil
          (.function (.localcmd ⟨ascii "x=2", by decide⟩ (.lookupvar (ascii "x") fun _ => .done [])))
          fun _ => .raise .exexit] noVariables).1 = .ok results := by
  obtain ⟨results, hrun, -⟩ := ash_scopes firstFree (ascii "1") (ascii "/")
    (by decide : ∀ text ∈ [ascii "x=1"], 61 ∈ text → GoodName (nameOf text))
    [.setvar (ascii "x") (some (ascii "3")) (.done []),
      .evalcommand false false .nil
        (.function (.localcmd ⟨ascii "x=2", by decide⟩ (.lookupvar (ascii "x") fun _ => .done [])))
        fun _ => .raise .exexit]
  exact ⟨results, hrun⟩

/-! ## What is local does not last -/

/-- The first thing that a command does is to make a variable local. -/
inductive MakesLocal : Assigns → Command → Bytes → Prop where
  | assign (name : AssignName) (value : Bytes) (rest : Assigns) (command : Command) :
    command.spclbltin = false → MakesLocal (.cons name (.done value) rest) command name.1
  | localcmd (arg : LocalArg) (body : Acts) :
    MakesLocal .nil (.function (.localcmd arg body)) (nameOf arg.1)

section

variable {static : Bytes → Bool} {α : Type}

/-- The frame in which a name is bound may be left, but what is outside stays. -/
theorem kept_shields (k : ℕ) (n : Bytes) (c : Cell) : Kept (k + 1) (Scopes.Shields k n c) :=
  ⟨fun _ n' c' h => h.assign n' c', fun _ n' c' h => h.bind n' c', fun _ h => h.push,
    fun _ _ hstop _ h => h.outer hstop⟩

/-- A name as it is outside of all but `k` frames. -/
def Outside (k : ℕ) (n : Bytes) (c : Cell) (s : Bindings) : Prop :=
  k ≤ s.frames.length ∧ (s.outer k).lookup n = c

theorem Outside.of_shields {k : ℕ} {n : Bytes} {c : Cell} {s : Bindings} (h : Scopes.Shields k n c s) :
    Outside k n c s := by
  refine ⟨?_, h.lookup_outer⟩
  obtain ⟨inner, f, outer, hframes, hlen, -⟩ := h
  rw [hframes, List.length_append, List.length_cons]
  omega

/-- Making a variable local in a new frame leaves what is outside alone, and shields it. -/
theorem wp_mklocal_push (s : Bindings) (text : Bytes) (vexport : Bool) :
    (Deep.mklocal static text vexport).wp
      (fun _ s' => Scopes.Shields s.frames.length (nameOf text) (s.lookup (nameOf text)) s' ∧
        s'.frames.length = s.frames.length + 1)
      (fun e s' => e ≠ .undefined ∧
        Outside s.frames.length (nameOf text) (s.lookup (nameOf text)) s') s.push := by
  have houtside : Outside s.frames.length (nameOf text) (s.lookup (nameOf text)) s.push := by
    refine ⟨Nat.le_succ _, ?_⟩
    have houter : s.push.outer s.frames.length = s := by
      rw [Scopes.outer, Scopes.push, List.length_cons, Nat.add_sub_cancel_left]
      rfl
    rw [houter]
  have hbinds : ¬ s.push.binds (nameOf text) = true := Bool.false_ne_true
  have hempty : ¬ s.push.frames.isEmpty = true := Bool.false_ne_true
  rw [Deep.mklocal, Program.wp_bind, Program.wp_read, if_neg hempty, if_neg hbinds, Deep.bindLocal,
    Program.wp_bind, Program.wp_read]
  split_ifs
  · exact ⟨raised_ne_undefined _, houtside⟩
  · exact ⟨raised_ne_undefined _, houtside⟩
  · refine ⟨⟨[], _, s.frames, rfl, rfl, ?_, rfl⟩, rfl⟩
    rw [Function.update_self]
    rfl

/-- A program that does not leave the frame leaves what is outside alone. -/
theorem Grows.shields {k : ℕ} {n : Bytes} {c : Cell} {m : Bd α}
    (hm : Grows (k + 1) (Scopes.Shields k n c) m) {s : Bindings} (h : Scopes.Shields k n c s)
    (hlen : k + 1 ≤ s.frames.length) :
    m.wp (fun _ s' => Scopes.Shields k n c s' ∧ k + 1 ≤ s'.frames.length)
      (fun e s' => e ≠ .undefined ∧ Outside k n c s') s := by
  apply Program.wp_mono (hm s h hlen)
  · exact fun _ s' ⟨hs, hlen'⟩ => ⟨hs, hlen.trans hlen'⟩
  · exact fun _ s' ⟨he, hs, _⟩ => ⟨he, Outside.of_shields hs⟩

/-- The command itself, in its frame. -/
theorem MakesLocal.wp_run {assigns : Assigns} {command : Command} {n : Bytes}
    (h : MakesLocal assigns command n) (vexport : Bool) (s : Bindings) :
    (do
      let varlist ← assigns.run (deep static) (!command.spclbltin) vexport
      command.run (deep static) varlist : Bd (Option Bytes)).wp
      (fun _ s' => Scopes.Shields s.frames.length n (s.lookup n) s' ∧
        s.frames.length + 1 ≤ s'.frames.length)
      (fun e s' => e ≠ .undefined ∧ Outside s.frames.length n (s.lookup n) s') s.push := by
  have hkept := fun n => kept_shields s.frames.length n (s.lookup n)
  rw [Program.wp_bind]
  cases h with
  | assign name value rest command hlocal =>
    have hname : nameOf (name.1 ++ 61 :: value) = name.1 := nameOf_append name.2.notMem value
    have hset : (deep static).mklocal = Deep.mklocal static := rfl
    rw [Assigns.run, Program.wp_bind, Acts.run, Program.wp_pure, Program.wp_bind, hlocal, Bool.not_false,
      if_pos rfl, hset]
    apply Program.wp_mono (wp_mklocal_push s (name.1 ++ 61 :: value) true)
    · rintro _ s₁ ⟨h₁, hlen₁⟩
      rw [hname] at h₁
      have hrest : Grows (s.frames.length + 1) (Scopes.Shields s.frames.length name.1 (s.lookup name.1))
          (rest.run (deep static) true vexport) :=
        rest.grows vexport (hkept name.1) fun _ => Nat.succ_pos _
      rw [Program.wp_bind]
      apply Program.wp_mono (hrest.shields h₁ hlen₁.ge)
      · rintro varlist s₂ ⟨h₂, hlen₂⟩
        exact (command.grows _ (hkept name.1)).shields h₂ hlen₂
      · exact fun _ _ hfails => hfails
    · rw [hname]
      exact fun _ _ hfails => hfails
  | localcmd arg body =>
    have hset : (deep static).mklocal = Deep.mklocal static := rfl
    have hstack : (deep static).localvarStack = Deep.localvarStack := rfl
    have hsome : ¬ s.push.frames.length = 0 := Nat.succ_ne_zero _
    rw [Assigns.run, Program.wp_pure, Command.run, Program.wp_bind, Acts.run, Program.wp_bind, hstack,
      Deep.localvarStack, Program.wp_bind, Program.wp_read, Program.wp_pure, if_neg hsome, hset,
      Program.wp_bind]
    apply Program.wp_mono (wp_mklocal_push s arg.1 false)
    · rintro _ s₁ ⟨h₁, hlen₁⟩
      apply Program.wp_mono ((body.grows (hkept _)).shields h₁ hlen₁.ge)
      · exact fun _ _ hs => hs
      · exact fun _ _ hfails => hfails
    · exact fun _ _ hfails => hfails

/-- The call of a command, and what comes of it. -/
def call (vexport : Bool) (assigns : Assigns) (command : Command) : Acts :=
  .evalcommand false vexport assigns command fun result => .done (result.getD [])

theorem MakesLocal.wp_call {assigns : Assigns} {command : Command} {n : Bytes}
    (h : MakesLocal assigns command n) (vexport : Bool) (s : Bindings) :
    ((call vexport assigns command).run (deep static)).wp
      (fun _ s' => s'.frames.length = s.frames.length ∧ s'.lookup n = s.lookup n)
      (fun e s' => e ≠ .undefined ∧ Outside s.frames.length n (s.lookup n) s') s := by
  have hlocal : (!command.spclbltin) = true := by
    cases h with
    | assign _ _ _ _ hspecial => rw [hspecial, Bool.not_false]
    | localcmd _ _ => rfl
  have hread : (deep static).localvarStack = Deep.localvarStack := rfl
  have hpush : (deep static).pushlocalvars = Program.modify Scopes.push := rfl
  have hunwind : (deep static).unwindlocalvars = Deep.unwindlocalvars := rfl
  have hrun := @MakesLocal.wp_run static assigns command n h vexport s
  rw [hlocal] at hrun
  rw [call, Acts.run, Program.wp_bind, hlocal, Store.pushIf, Program.wp_bind, hread,
    Deep.localvarStack, Program.wp_bind, Program.wp_read, Program.wp_pure, if_pos rfl, hpush,
    Program.wp_bind, Program.wp_modify, Program.wp_pure, Program.wp_bind, if_neg Bool.false_ne_true]
  apply Program.wp_mono hrun
  · rintro result s₁ ⟨h₁, hlen₁⟩
    rw [Program.wp_bind, hunwind, Deep.unwindlocalvars, Program.wp_bind, Program.wp_read,
      if_neg (by omega), Program.wp_modify, Acts.run, Program.wp_pure]
    exact ⟨Scopes.length_outer (by omega), h₁.lookup_outer⟩
  · exact fun _ _ hfails => hfails

end

end OsMoap.Shell.Vars
