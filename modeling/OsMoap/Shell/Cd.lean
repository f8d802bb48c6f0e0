import OsMoap.Shell.PathWalk
import Mathlib.Logic.Function.Basic
import Mathlib.Data.List.Induction
import Mathlib.Tactic.FinCases

/-!
# The Current Directory

`cd` of `guest/busybox/upstream/shell/ash.c` moves the process with `chdir` and keeps the name of its
directory in `curdir`, `PWD` and `OLDPWD`.  `updatepwd` makes that name from the old one and the
operand, on the text itself, with a pointer that goes back over a component at `..`.

A name that the shell makes is that of a `DirName`: its components, none of them empty, `.` or `..`.
`updatepwd` is `DirName.resolve` (`updatepwd_text`), and along any session the process is in the
directory that `curdir` names (`cd_follows`).  What `chdir` does is a parameter.
-/

namespace OsMoap.Shell.Cd

open OsMoap.Lib OsMoap.Pack

/-! ## `updatepwd` -/

def dot : Text := ['.']

def dotdot : Text := ['.', '.']

/-- `while (new > lim) { STUNPUTC(new); if (new[-1] == '/') break; }`. -/
def goBack (lim : ℕ) : ℕ → Text → Text
  | 0, new => new
  | fuel + 1, new =>
    if lim < new.length then
      if new.dropLast.getLast? = some '/' then new.dropLast else goBack lim fuel new.dropLast
    else new

/-- The body of the loop over the components of the operand. -/
def component (lim : ℕ) (new p : Text) : Text :=
  if p = dotdot then goBack lim new.length new
  else if p = dot then new
  else new ++ p ++ ['/']

/-- The loop, and what follows it. -/
def components (lim : ℕ) (new cdcomppath : Text) : Text :=
  let new := (tokens '/' cdcomppath).foldl (component lim) new
  if lim < new.length then new.dropLast else new

/-- `updatepwd`; a `curdir` of `none` is `nullstr`. -/
def updatepwd (curdir : Option Text) (dir : Text) : Option Text :=
  match dir with
  | '/' :: rest =>
    -- two slashes, not three, are kept
    if rest.head? = some '/' ∧ (rest.drop 1).head? ≠ some '/' then
      some (components 2 ['/', '/'] (rest.drop 1))
    else some (components 1 ['/'] rest)
  | _ =>
    curdir.map fun cur =>
      let new := if cur.getLast? = some '/' then cur else cur ++ ['/']
      let lim := if 1 < new.length ∧ new[1]? = some '/' then 2 else 1
      -- what is in front of `lim` is never taken off
      components lim new dir

/-! ## `cd` and `pwd` -/

/-- What `chdir` and `stat` do from a directory: where `chdir` leads, and what is a directory. -/
structure Host where
  chdir : Text → Text → Option Text
  isDir : Text → Text → Bool

/-- The shell as far as directories go; `cwd` is what `getcwd` returns, and `none` is `nullstr`. -/
structure Wd where
  curdir : Option Text
  physdir : Option Text
  cwd : Text
  vars : Text → Option Text

def setvar (w : Wd) (name val : Text) : Wd :=
  { w with vars := Function.update w.vars name (some val) }

def PWD : Text := "PWD".toList

def OLDPWD : Text := "OLDPWD".toList

/-- `setpwd`; a `val` of `none` is `NULL`. -/
def setpwd (w : Wd) (val : Option Text) (setold : Bool) : Wd :=
  let w := if setold then setvar w OLDPWD (w.curdir.getD []) else w
  let w := { w with physdir := if val.isNone then some w.cwd else none }
  let dir := val.getD w.cwd
  setvar { w with curdir := some dir } PWD dir

/-- `setpwd(curdir, 0)`: only `physdir` is found anew. -/
def setphysdir (w : Wd) : Wd :=
  setvar { w with physdir := some w.cwd } PWD (w.curdir.getD [])

/-- `docd`, and whether it succeeded. -/
def docd (host : Host) (w : Wd) (dest : Text) (physical : Bool) : Bool × Wd :=
  let dir := if physical then none else updatepwd w.curdir dest
  match host.chdir w.cwd (dir.getD dest) with
  | some cwd => (true, setpwd { w with cwd := cwd } dir true)
  -- `PWD`, `OLDPWD` and `curdir` are set after `chdir` only
  | none => (false, w)

/-- `cdopt` on the option letters. -/
def cdopt (letters : List Char) : Bool :=
  (letters.foldl (fun (physical, j) i => if i ≠ j then (!physical, i) else (physical, j))
    (false, 'L')).1

/-- The operands that `CDPATH` is not for. -/
def isStep6 : Text → Bool
  | '/' :: _ => true
  | '.' :: rest =>
    match rest with
    | [] => true
    | '/' :: _ => true
    | '.' :: rest => rest = [] ∨ rest.head? = some '/'
    | _ => false
  | _ => false

/-- The loop over `CDPATH`: the first directory, and whether its name is printed. -/
def cdpathWalk (isDir : Text → Bool) : Text → List Advance → Option (Text × Bool)
  | _, [] => none
  | path, a :: rest =>
    if isDir a.cmdname then some (a.cmdname, path ≠ [] ∧ path.head? ≠ some ':')
    else cdpathWalk isDir (a.path.getD []) rest

/-- What `cdcmd` calls `docd` with, and whether it prints where it has gone. -/
def cdDest (host : Host) (w : Wd) (operand : Option Text) : Text × Bool :=
  let (dest, print) :=
    match operand with
    | none => ((w.vars "HOME".toList).getD [], false)
    | some ['-'] => ((w.vars OLDPWD).getD [], true)
    | some dest => (dest, false)
  if isStep6 dest then (dest, print)
  else
    let dest := if dest = [] then dot else dest
    -- no directory along `CDPATH`: the label `step6` again
    match w.vars "CDPATH".toList with
    | none => (dest, print)
    | some path =>
      match cdpathWalk (host.isDir w.cwd) path (pathWalk path dest) with
      | some (p, shown) => (p, print || shown)
      | none => (dest, print)

/-- `cdcmd`: `none` is the error, and what is printed comes with success. -/
def cdcmd (host : Host) (w : Wd) (letters : List Char) (operand : Option Text) :
    Option (Option Text) × Wd :=
  let (dest, print) := cdDest host w operand
  let (ok, w) := docd host w dest (cdopt letters)
  (if ok then some (if print then w.curdir else none) else none, w)

/-- `pwdcmd`: what it prints. -/
def pwdcmd (w : Wd) (letters : List Char) : Text × Wd :=
  if cdopt letters then
    let w := if w.physdir = none then setphysdir w else w
    (w.physdir.getD [], w)
  else (w.curdir.getD [], w)

inductive Event where
  | cd (letters : List Char) (operand : Option Text)
  | pwd (letters : List Char)
  /-- An assignment, also to `PWD` and `OLDPWD` themselves. -/
  | assign (name : Text) (val : Option Text)

def step (host : Host) (w : Wd) : Event → Wd
  | .cd letters operand => (cdcmd host w letters operand).2
  | .pwd letters => (pwdcmd w letters).2
  | .assign name val => { w with vars := Function.update w.vars name val }

def run (host : Host) (w : Wd) : List Event → Wd
  | [] => w
  | e :: es => run host (step host w e) es

/-- The directory that an instance starts in. -/
def rootDir : Text := ['/']

/-- `osd_cwd_init` of `guest/busybox/wasi-compat/wasi-compat.c`, with the `PWD` of the environment:
where a program begins that the shell has started. -/
def osdCwdInit (host : Host) (pwd : Option Text) : Text :=
  match pwd with
  | some p => if p.head? = some '/' then (host.chdir rootDir p).getD rootDir else rootDir
  | none => rootDir

/-! ## Names of directories -/

/-- A component that is a name. -/
structure Proper (c : Text) : Prop where
  ne_nil : c ≠ []
  slash : '/' ∉ c
  ne_dot : c ≠ dot
  ne_dotdot : c ≠ dotdot

/-- The name of a directory from the root, which may have two slashes. -/
structure DirName where
  double : Bool
  comps : List Text
  proper : ∀ c ∈ comps, Proper c

namespace DirName

def root (d : DirName) : Text := if d.double then ['/', '/'] else ['/']

/-- The name with a slash behind each component. -/
def open_ (d : DirName) : Text := d.root ++ unlines '/' d.comps

def text (d : DirName) : Text := if d.comps = [] then d.root else d.open_.dropLast

end DirName

/-- Go to a component of an operand. -/
def enter (comps : List Text) (p : Text) : List Text :=
  if p = dotdot then comps.dropLast else if p = dot then comps else comps ++ [p]

theorem mem_tokens {path p : Text} (h : p ∈ tokens '/' path) : p ≠ [] ∧ '/' ∉ p := by
  rw [tokens, List.mem_filter] at h
  exact ⟨by simpa using h.2, not_mem_of_mem_lines '/' h.1⟩

theorem proper_enter {comps : List Text} (h : ∀ c ∈ comps, Proper c) {p : Text}
    (hp : p ≠ [] ∧ '/' ∉ p) : ∀ c ∈ enter comps p, Proper c := by
  intro c hc
  rw [enter] at hc
  split_ifs at hc with hdotdot hdot
  · exact h c (List.mem_of_mem_dropLast hc)
  · exact h c hc
  · rcases List.mem_append.1 hc with hc | hc
    · exact h c hc
    · rw [List.mem_singleton.1 hc]
      exact ⟨hp.1, hp.2, hdot, hdotdot⟩

theorem proper_foldl {ps comps : List Text} (hps : ∀ p ∈ ps, p ≠ [] ∧ '/' ∉ p)
    (h : ∀ c ∈ comps, Proper c) : ∀ c ∈ ps.foldl enter comps, Proper c := by
  induction ps generalizing comps with
  | nil => exact h
  | cons p ps ih =>
    exact ih (fun q hq => hps q (List.mem_cons_of_mem _ hq))
      (proper_enter h (hps p List.mem_cons_self))

namespace DirName

/-- Where an operand leads: from the root, or from the directory. -/
def resolve (d : DirName) (dir : Text) : DirName :=
  match dir with
  | '/' :: rest =>
    { double := rest.head? = some '/' ∧ (rest.drop 1).head? ≠ some '/'
      comps := (tokens '/' rest).foldl enter []
      proper := proper_foldl (fun _ => mem_tokens) (fun _ hc => by cases hc) }
  | _ =>
    { double := d.double
      comps := (tokens '/' dir).foldl enter d.comps
      proper := proper_foldl (fun _ => mem_tokens) d.proper }

/-! ## The loop on the text -/

theorem getLast?_unlines {base : Text} (hbase : base.getLast? = some '/') (comps : List Text) :
    (base ++ unlines '/' comps).getLast? = some '/' := by
  induction comps using List.reverseRecOn with
  | nil => simpa using hbase
  | append_singleton comps c ih =>
    simp [unlines_append]

theorem getLast?_root (d : DirName) : d.root.getLast? = some '/' := by
  rw [root]
  split_ifs
  · rfl
  · rfl

end DirName

/-- The pointer goes back behind the slash before the last component. -/
theorem goBack_component {base : Text} (hbase : base.getLast? = some '/') {lim fuel : ℕ}
    (hlim : lim ≤ base.length) {c : Text} (hc : '/' ∉ c) (x : Char) (hfuel : c.length < fuel) :
    goBack lim fuel (base ++ c ++ [x]) = base := by
  induction c using List.reverseRecOn generalizing x fuel with
  | nil =>
    cases fuel with
    | zero => exact absurd hfuel (Nat.not_lt_zero _)
    | succ fuel =>
      have hlen : lim < (base ++ [x]).length := by
        rw [List.length_append, List.length_singleton]
        omega
      rw [List.append_nil, goBack, if_pos hlen, List.dropLast_concat, if_pos hbase]
  | append_singleton c y ih =>
    rw [List.mem_append, not_or, List.mem_singleton] at hc
    rw [List.length_append, List.length_singleton] at hfuel
    cases fuel with
    | zero => exact absurd hfuel (Nat.not_lt_zero _)
    | succ fuel =>
      have hlen : lim < (base ++ (c ++ [y]) ++ [x]).length := by
        simp only [List.length_append, List.length_singleton]
        omega
      have hlast : (base ++ (c ++ [y])).getLast? ≠ some '/' := by
        rw [← List.append_assoc, List.getLast?_concat]
        exact fun h => hc.2 (Option.some.inj h).symm
      rw [goBack, if_pos hlen, List.dropLast_concat, if_neg hlast, ← List.append_assoc]
      exact ih hc.1 y (by omega)

/-- The body of the loop on the text is `enter` on the components. -/
theorem component_unlines {base : Text} (hbase : base.getLast? = some '/') {comps : List Text}
    (hcomps : ∀ c ∈ comps, Proper c) (p : Text) :
    component base.length (base ++ unlines '/' comps) p = base ++ unlines '/' (enter comps p) := by
  rw [component, enter]
  by_cases hdotdot : p = dotdot
  · rw [if_pos hdotdot, if_pos hdotdot]
    induction comps using List.reverseRecOn with
    | nil =>
      -- at the root there is nothing to go back over
      simp only [unlines_nil, List.append_nil, List.dropLast_nil]
      cases hlen : base.length with
      | zero => rfl
      | succ n => rw [goBack, hlen, if_neg (lt_irrefl _)]
    | append_singleton comps c _ =>
      have hc := hcomps c (List.mem_append_right _ (List.mem_singleton_self c))
      have hsplit : base ++ unlines '/' (comps ++ [c]) = base ++ unlines '/' comps ++ c ++ ['/'] := by
        simp [unlines_append]
      -- the pointer stops behind the component before
      rw [hsplit, List.dropLast_concat]
      apply goBack_component (DirName.getLast?_unlines hbase comps) _ hc.slash
      · simp only [List.length_append, List.length_singleton]
        omega
      · simp
  · rw [if_neg hdotdot, if_neg hdotdot]
    by_cases hdot : p = dot
    · rw [if_pos hdot, if_pos hdot]
    · rw [if_neg hdot, if_neg hdot]
      simp [unlines_append]

theorem foldl_component {base : Text} (hbase : base.getLast? = some '/') {ps : List Text}
    (hps : ∀ p ∈ ps, p ≠ [] ∧ '/' ∉ p) {comps : List Text} (hcomps : ∀ c ∈ comps, Proper c) :
    ps.foldl (component base.length) (base ++ unlines '/' comps) =
      base ++ unlines '/' (ps.foldl enter comps) := by
  induction ps generalizing comps with
  | nil => rfl
  | cons p ps ih =>
    rw [List.foldl_cons, List.foldl_cons, component_unlines hbase hcomps]
    exact ih (fun q hq => hps q (List.mem_cons_of_mem _ hq))
      (proper_enter hcomps (hps p List.mem_cons_self))

/-- The whole loop, from the components of a directory. -/
theorem components_eq (d : DirName) (path : Text) {e : DirName} (hdouble : e.double = d.double)
    (hcomps : e.comps = (tokens '/' path).foldl enter d.comps) :
    components d.root.length d.open_ path = e.text := by
  have hroot : e.root = d.root := by rw [DirName.root, DirName.root, hdouble]
  rw [components, DirName.open_, foldl_component d.getLast?_root (fun _ => mem_tokens) d.proper,
    ← hcomps, DirName.text, DirName.open_, hroot]
  cases e.comps with
  | nil => simp
  | cons c cs => simp

/-- The old name with a slash behind it. -/
theorem open_text (d : DirName) :
    (if d.text.getLast? = some '/' then d.text else d.text ++ ['/']) = d.open_ := by
  rw [DirName.text]
  cases hcomps : d.comps using List.reverseRecOn with
  | nil =>
    rw [if_pos rfl, if_pos d.getLast?_root, DirName.open_, hcomps, unlines_nil, List.append_nil]
  | append_singleton comps c _ =>
    have hc := d.proper c (hcomps ▸ List.mem_append_right _ (List.mem_singleton_self c))
    have hopen : d.open_ = d.root ++ unlines '/' comps ++ c ++ ['/'] := by
      rw [DirName.open_, hcomps]
      simp [unlines_append]
    have hne : comps ++ [c] ≠ [] := by simp
    have hlast : (d.root ++ unlines '/' comps ++ c).getLast? ≠ some '/' := by
      rw [List.getLast?_append_of_ne_nil _ hc.ne_nil]
      intro h
      exact hc.slash (List.mem_of_getLast? h)
    rw [if_neg hne, hopen, List.dropLast_concat, if_neg hlast]

theorem lim_open (d : DirName) :
    (if 1 < d.open_.length ∧ d.open_[1]? = some '/' then 2 else 1) = d.root.length := by
  rw [DirName.open_, DirName.root]
  cases d.double with
  | true => simp
  | false =>
    have hproper := d.proper
    cases hcomps : d.comps with
    | nil => simp
    | cons c cs =>
      rw [hcomps] at hproper
      have hc := hproper c List.mem_cons_self
      cases c with
      | nil => exact absurd rfl hc.ne_nil
      | cons x xs =>
        -- the second character is that of a name
        have hx : x ≠ '/' := fun h => hc.slash (h ▸ List.mem_cons_self)
        simp [hx]

theorem tokens_slash (path : Text) : tokens '/' ('/' :: path) = tokens '/' path := by
  rw [tokens, tokens, lines_nl_cons]
  rfl

/-- **`updatepwd` follows the components of its operand.** -/
theorem updatepwd_text (d : DirName) (dir : Text) :
    updatepwd (some d.text) dir = some (d.resolve dir).text := by
  have hrelative : (∀ rest, dir ≠ '/' :: rest) →
      updatepwd (some d.text) dir = some (d.resolve dir).text := by
    intro hdir
    have hup : updatepwd (some d.text) dir = some (components d.root.length d.open_ dir) := by
      rw [← open_text, ← lim_open, open_text]
      unfold updatepwd
      split
      · exact absurd rfl (hdir _)
      · rw [Option.map_some, open_text]
    have hres : (d.resolve dir).double = d.double ∧
        (d.resolve dir).comps = (tokens '/' dir).foldl enter d.comps := by
      unfold DirName.resolve
      split
      · exact absurd rfl (hdir _)
      · exact ⟨rfl, rfl⟩
    rw [hup, components_eq d dir hres.1 hres.2]
  cases dir with
  | nil => exact hrelative fun rest h => by cases h
  | cons c rest =>
    by_cases hc : c = '/'
    · subst hc
      by_cases hdouble : rest.head? = some '/' ∧ (rest.drop 1).head? ≠ some '/'
      · let top : DirName := ⟨true, [], fun _ hc => by cases hc⟩
        have htokens : tokens '/' rest = tokens '/' (rest.drop 1) := by
          cases rest with
          | nil => cases hdouble.1
          | cons x xs =>
            rw [Option.some.inj hdouble.1, tokens_slash]
            rfl
        have hres : (d.resolve ('/' :: rest)).double = true := decide_eq_true hdouble
        have hcomps : (d.resolve ('/' :: rest)).comps = (tokens '/' (rest.drop 1)).foldl enter [] := by
          rw [← htokens]
          rfl
        have heq := components_eq top (rest.drop 1) hres hcomps
        rw [updatepwd, if_pos hdouble]
        exact congrArg some heq
      · let top : DirName := ⟨false, [], fun _ hc => by cases hc⟩
        have hres : (d.resolve ('/' :: rest)).double = false := decide_eq_false hdouble
        have heq := components_eq top rest (e := d.resolve ('/' :: rest)) hres rfl
        rw [updatepwd, if_neg hdouble]
        exact congrArg some heq
    · exact hrelative fun rest' h => hc (List.cons.inj h).1

example : updatepwd (some "/home/user".toList) "../x//./y/..".toList = some "/home/x".toList := by
  decide +kernel

/-! ## A name leads where it says -/

namespace DirName

theorem text_eq (d : DirName) : d.text = d.root ++ (unlines '/' d.comps).dropLast := by
  rw [text, open_]
  cases hcomps : d.comps with
  | nil => simp
  | cons c cs =>
    have hne : unlines '/' (c :: cs) ≠ [] := by simp
    rw [if_neg (List.cons_ne_nil c cs), List.dropLast_append_of_ne_nil hne]

theorem head?_dropLast (d : DirName) : ((unlines '/' d.comps).dropLast).head? ≠ some '/' := by
  have hproper := d.proper
  cases hcomps : d.comps with
  | nil => simp
  | cons c cs =>
    rw [hcomps] at hproper
    have hc := hproper c List.mem_cons_self
    cases c with
    | nil => exact absurd rfl hc.ne_nil
    | cons x xs =>
      have hx : x ≠ '/' := fun h => hc.slash (h ▸ List.mem_cons_self)
      have hne : xs ++ '/' :: unlines '/' cs ≠ [] := by simp
      rw [unlines_cons, List.cons_append, List.dropLast_cons_of_ne_nil hne, List.head?_cons]
      exact fun h => hx (Option.some.inj h)

theorem tokens_text (d : DirName) : tokens '/' d.text = d.comps := by
  have hroot : ∀ path, tokens '/' (d.root ++ path) = tokens '/' path := by
    intro path
    rw [root]
    split_ifs
    · exact (tokens_slash _).trans (tokens_slash path)
    · exact tokens_slash path
  rw [text_eq, hroot]
  cases hcomps : d.comps using List.reverseRecOn with
  | nil => rfl
  | append_singleton comps c _ =>
    -- the slash behind the last component does not count
    have hlast : ∀ path, tokens '/' (path ++ ['/']) = tokens '/' path := by
      intro path
      have hlines := lines_append_cons '/' path []
      rw [tokens, tokens, hlines, List.filter_append]
      simp [lines]
    have hopen : unlines '/' (comps ++ [c]) = (unlines '/' comps ++ c) ++ ['/'] := by
      simp [unlines_append]
    rw [hopen, List.dropLast_concat, ← hlast, ← hopen]
    apply tokens_unlines
    intro l hl
    have hproper := d.proper l (hcomps ▸ hl)
    exact ⟨hproper.slash, hproper.ne_nil⟩

theorem foldl_enter {ps : List Text} (hps : ∀ p ∈ ps, Proper p) (comps : List Text) :
    ps.foldl enter comps = comps ++ ps := by
  induction ps generalizing comps with
  | nil => simp
  | cons p ps ih =>
    have hp := hps p List.mem_cons_self
    rw [List.foldl_cons, enter, if_neg hp.ne_dotdot, if_neg hp.ne_dot,
      ih fun q hq => hps q (List.mem_cons_of_mem _ hq)]
    simp

/-- From anywhere, the name of a directory leads to it. -/
theorem resolve_text (d e : DirName) : e.resolve d.text = d := by
  have htokens := d.tokens_text
  have htext := d.text_eq
  have hhead := d.head?_dropLast
  have hfold := foldl_enter d.proper []
  obtain ⟨double, comps, proper⟩ := d
  generalize (unlines '/' comps).dropLast = joined at htext hhead
  cases double with
  | true =>
    have htext : text ⟨true, comps, proper⟩ = '/' :: '/' :: joined := htext
    rw [htext] at htokens ⊢
    rw [tokens_slash] at htokens
    have hdouble : ('/' :: joined).head? = some '/' ∧ (('/' :: joined).drop 1).head? ≠ some '/' :=
      ⟨rfl, hhead⟩
    simp only [resolve, htokens, hfold, decide_eq_true hdouble, List.nil_append]
  | false =>
    have htext : text ⟨false, comps, proper⟩ = '/' :: joined := htext
    rw [htext] at htokens ⊢
    rw [tokens_slash] at htokens
    have hdouble : ¬ (joined.head? = some '/' ∧ (joined.drop 1).head? ≠ some '/') :=
      fun h => hhead h.1
    simp only [resolve, htokens, hfold, decide_eq_false hdouble, List.nil_append]

end DirName

/-! ## Sessions -/

/-- A file system without symbolic links: `chdir` leads to a directory with a name, and a name leads
to the directory that it names.  Two slashes in front are the root as well. -/
structure Host.Plain (host : Host) : Prop where
  named : ∀ {cwd path cwd'}, host.chdir cwd path = some cwd' → ∃ d : DirName, cwd' = d.text
  direct : ∀ {cwd cwd'} (d : DirName), host.chdir cwd d.text = some cwd' →
    ∃ e : DirName, cwd' = e.text ∧ e.comps = d.comps

/-- The process is in the directory that `curdir` names, and `physdir` is not out of date. -/
structure Located (w : Wd) (d : DirName) : Prop where
  curdir : w.curdir = some d.text
  cwd : ∃ e : DirName, w.cwd = e.text ∧ e.comps = d.comps
  physdir : w.physdir = none ∨ w.physdir = some w.cwd

section Session

variable {host : Host} {w : Wd} {d : DirName}

theorem PWD_ne_OLDPWD : PWD ≠ OLDPWD := by decide

/-- What a `cd` that has succeeded leaves; `chdir` led there, by the new name or to it. -/
structure Moved (host : Host) (w w' : Wd) (d : DirName) : Prop where
  located : Located w' d
  pwd : w'.vars PWD = w'.curdir
  oldpwd : w'.vars OLDPWD = w.curdir
  led : ∃ path cwd, host.chdir w.cwd path = some cwd ∧ (d.text = path ∨ d.text = cwd)

theorem moved_setpwd (hd : w.curdir.isSome) {path cwd : Text} {val : Option Text}
    (hval : val.getD cwd = d.text) (hcwd : ∃ e : DirName, cwd = e.text ∧ e.comps = d.comps)
    (hled : host.chdir w.cwd path = some cwd ∧ (d.text = path ∨ d.text = cwd)) :
    Moved host w (setpwd { w with cwd := cwd } val true) d := by
  obtain ⟨cur, hcur⟩ := Option.isSome_iff_exists.1 hd
  refine ⟨⟨?_, hcwd, ?_⟩, ?_, ?_, path, cwd, hled⟩
  · exact congrArg some hval
  · cases val with
    | none => exact .inr rfl
    | some val => exact .inl rfl
  · simp [setpwd, setvar]
  · simp [setpwd, setvar, PWD_ne_OLDPWD.symm, hcur]

/-- **`docd`** goes where the operand leads, or nowhere. -/
theorem docd_moved (hhost : host.Plain) (hw : Located w d) (dest : Text) (physical : Bool) :
    (docd host w dest physical).1 = false ∧ (docd host w dest physical).2 = w ∨
      (docd host w dest physical).1 = true ∧ ∃ d', Moved host w (docd host w dest physical).2 d' ∧
        (physical = false → d' = d.resolve dest) := by
  have hsome : w.curdir.isSome := hw.curdir ▸ rfl
  rw [docd]
  cases physical with
  | true =>
    -- `-P`: the new name is what `getcwd` returns
    simp only [if_true, Option.getD_none]
    cases hchdir : host.chdir w.cwd dest with
    | none => exact .inl ⟨rfl, rfl⟩
    | some cwd =>
      obtain ⟨d', hd'⟩ := hhost.named hchdir
      exact .inr ⟨rfl, d', moved_setpwd hsome hd' ⟨d', hd', rfl⟩ ⟨hchdir, .inr hd'.symm⟩, fun h => Bool.noConfusion h⟩
  | false =>
    have hup : updatepwd w.curdir dest = some (d.resolve dest).text := by
      rw [hw.curdir, updatepwd_text]
    simp only [Bool.false_eq_true, if_false, hup, Option.getD_some]
    cases hchdir : host.chdir w.cwd (d.resolve dest).text with
    | none => exact .inl ⟨rfl, rfl⟩
    | some cwd =>
      have hval : (some (d.resolve dest).text).getD cwd = (d.resolve dest).text := rfl
      have hmoved := moved_setpwd hsome hval (hhost.direct _ hchdir) ⟨hchdir, .inl rfl⟩
      exact .inr ⟨rfl, d.resolve dest, hmoved, fun _ => rfl⟩

theorem cdcmd_moved (hhost : host.Plain) (hw : Located w d) (letters : List Char)
    (operand : Option Text) :
    (cdcmd host w letters operand).1 = none ∧ (cdcmd host w letters operand).2 = w ∨
      (cdcmd host w letters operand).1.isSome ∧
        ∃ d', Moved host w (cdcmd host w letters operand).2 d' ∧
          (cdopt letters = false → d' = d.resolve (cdDest host w operand).1) := by
  rcases docd_moved hhost hw (cdDest host w operand).1 (cdopt letters) with ⟨hok, hw'⟩ | ⟨hok, hmoved⟩
  · left
    simp only [cdcmd, hok, hw', Bool.false_eq_true, if_false, and_self]
  · right
    simp only [cdcmd, hok, if_true, Option.isSome_some, true_and]
    exact hmoved

theorem pwdcmd_located (hw : Located w d) (letters : List Char) :
    Located (pwdcmd w letters).2 d ∧
      (pwdcmd w letters).1 = if cdopt letters then w.cwd else d.text := by
  rw [pwdcmd]
  by_cases hphysical : cdopt letters = true
  · rw [if_pos hphysical, if_pos hphysical]
    by_cases hnone : w.physdir = none
    · simp only [hnone, if_true]
      exact ⟨⟨hw.curdir, hw.cwd, .inr rfl⟩, rfl⟩
    · simp only [hnone, if_false]
      refine ⟨hw, ?_⟩
      rcases hw.physdir with h | h
      · exact absurd h hnone
      · rw [h]
        rfl
  · rw [if_neg hphysical, if_neg hphysical, hw.curdir]
    exact ⟨hw, rfl⟩

theorem Located.step (hhost : host.Plain) (hw : Located w d) (e : Event) :
    ∃ d', Located (step host w e) d' := by
  cases e with
  | cd letters operand =>
    rcases cdcmd_moved hhost hw letters operand with ⟨-, hw'⟩ | ⟨-, d', hmoved, -⟩
    · exact ⟨d, by rwa [Cd.step, hw']⟩
    · exact ⟨d', hmoved.located⟩
  | pwd letters => exact ⟨d, (pwdcmd_located hw letters).1⟩
  | assign name val => exact ⟨d, hw.curdir, hw.cwd, hw.physdir⟩

theorem Located.run (hhost : host.Plain) (hw : Located w d) (es : List Event) :
    ∃ d', Located (run host w es) d' := by
  induction es generalizing w d with
  | nil => exact ⟨d, hw⟩
  | cons e es ih =>
    obtain ⟨d', hw'⟩ := hw.step hhost e
    exact ih hw'

/-- `cd -` goes back. -/
theorem cdDest_back {w' : Wd} {d' : DirName} (hmoved : Moved host w w' d') (hw : Located w d) :
    (cdDest host w' (some ['-'])).1 = d.text := by
  have hstep : isStep6 d.text = true := by
    rw [DirName.text_eq, DirName.root]
    split_ifs
    · rfl
    · rfl
  -- the old name begins with a slash, so `CDPATH` is not searched
  simp only [cdDest, hmoved.oldpwd, hw.curdir, Option.getD_some, hstep, if_true]

end Session

/-- A file system with `/`, `/tmp` and `/tmp/a`, reached by these names only. -/
def threeDirs : Host where
  chdir _ path :=
    if path = "/".toList ∨ path = "/tmp".toList ∨ path = "/tmp/a".toList then some path else none
  isDir _ path := path = "/".toList ∨ path = "/tmp".toList ∨ path = "/tmp/a".toList

def topDir : DirName := ⟨false, [], fun _ h => by cases h⟩

theorem proper_tmp_a : ∀ c ∈ ["tmp".toList, "a".toList], Proper c := by
  intro c hc
  fin_cases hc
  · exact ⟨by decide, by decide, by decide, by decide⟩
  · exact ⟨by decide, by decide, by decide, by decide⟩

def tmpDir : DirName :=
  ⟨false, ["tmp".toList], fun c hc => proper_tmp_a c (List.mem_cons.2 (.inl (List.mem_singleton.1 hc)))⟩

def aDir : DirName := ⟨false, ["tmp".toList, "a".toList], proper_tmp_a⟩

theorem threeDirs_plain : threeDirs.Plain where
  named := by
    intro cwd path cwd' h
    rw [threeDirs] at h
    simp only at h
    split_ifs at h with hmem
    cases h
    rcases hmem with rfl | rfl | rfl
    · exact ⟨topDir, by decide⟩
    · exact ⟨tmpDir, by decide⟩
    · exact ⟨aDir, by decide⟩
  direct := by
    intro cwd cwd' d h
    rw [threeDirs] at h
    simp only at h
    split_ifs at h
    exact ⟨d, (Option.some.inj h).symm, rfl⟩

/-- A shell at `/`, with `PWD` to say so. -/
def atTop : Wd where
  curdir := some "/".toList
  physdir := none
  cwd := "/".toList
  vars name := if name = PWD then some "/".toList else none

theorem atTop_located : Located atTop topDir := ⟨by decide, ⟨topDir, by decide, rfl⟩, .inl rfl⟩

/-- A directory that has been reached can be reached again, by the name that `chdir` was given or by
the one that `getcwd` gives. -/
def Host.Lasting (host : Host) : Prop :=
  ∀ {cwd path cwd'}, host.chdir cwd path = some cwd' →
    (path.head? = some '/' → (host.chdir rootDir path).isSome) ∧
      (host.chdir rootDir cwd').isSome

/-- `PWD` is what the shell has set it to, and leads there. -/
structure Exported (host : Host) (w : Wd) (d : DirName) : Prop where
  pwd : w.vars PWD = some d.text
  accepted : (host.chdir rootDir d.text).isSome

/-- Not an assignment to `PWD`. -/
def Event.sparesPwd : Event → Bool
  | .assign name _ => name ≠ PWD
  | _ => true

section Started

variable {host : Host} {w : Wd} {d : DirName}

theorem DirName.head?_text (d : DirName) : d.text.head? = some '/' := by
  rw [text_eq, root]
  split_ifs
  · rfl
  · rfl

theorem Moved.exported (hlast : host.Lasting) {w' : Wd} (h : Moved host w w' d) :
    Exported host w' d := by
  refine ⟨h.pwd.trans h.located.curdir, ?_⟩
  obtain ⟨path, cwd, hchdir, hpath | hcwd⟩ := h.led
  · rw [hpath]
    exact (hlast hchdir).1 (hpath ▸ d.head?_text)
  · rw [hcwd]
    exact (hlast hchdir).2

theorem Exported.step (hhost : host.Plain) (hlast : host.Lasting) (hw : Located w d)
    (he : Exported host w d) {e : Event} (hspares : e.sparesPwd = true) :
    ∃ d', Located (step host w e) d' ∧ Exported host (step host w e) d' := by
  cases e with
  | cd letters operand =>
    rcases cdcmd_moved hhost hw letters operand with ⟨-, hw'⟩ | ⟨-, d', hmoved, -⟩
    · exact ⟨d, by rw [Cd.step, hw']; exact ⟨hw, he⟩⟩
    · exact ⟨d', hmoved.located, hmoved.exported hlast⟩
  | pwd letters =>
    refine ⟨d, (pwdcmd_located hw letters).1, ?_, he.accepted⟩
    simp only [Cd.step, pwdcmd]
    split_ifs
    -- `pwd -P` sets `PWD` to `curdir` again
    · simp [setphysdir, setvar, hw.curdir]
    · exact he.pwd
    · exact he.pwd
  | assign name val =>
    have hne : PWD ≠ name := fun h => by simp [Event.sparesPwd, h] at hspares
    refine ⟨d, ⟨hw.curdir, hw.cwd, hw.physdir⟩, ?_, he.accepted⟩
    exact (Function.update_of_ne hne _ _).trans he.pwd

end Started

/-- **A program begins where the shell is.**  After any session that does not assign to `PWD`, an
instance that the host starts with the shell's `PWD` goes to the directory the shell is in. -/
theorem started_follows (host : Host) (hhost : host.Plain) (hlast : host.Lasting) (w₀ : Wd)
    (d₀ : DirName) (h₀ : Located w₀ d₀) (he₀ : Exported host w₀ d₀) (es : List Event)
    (hes : ∀ e ∈ es, e.sparesPwd = true) :
    let w := run host w₀ es
    ∃ here there : DirName, w.cwd = here.text ∧ osdCwdInit host (w.vars PWD) = there.text ∧
      there.comps = here.comps := by
  -- along the run, the process is where `curdir` says and `PWD` says so too
  have hrun : ∃ d, Located (run host w₀ es) d ∧ Exported host (run host w₀ es) d := by
    induction es generalizing w₀ d₀ with
    | nil => exact ⟨d₀, h₀, he₀⟩
    | cons e es ih =>
      obtain ⟨d', hw', he'⟩ := he₀.step hhost hlast h₀ (hes e List.mem_cons_self)
      exact ih _ d' hw' he' fun e he => hes e (List.mem_cons_of_mem _ he)
  intro w
  obtain ⟨d, hw, he⟩ := hrun
  obtain ⟨here, hcwd, hcomps⟩ := hw.cwd
  obtain ⟨cwd', hchdir⟩ := Option.isSome_iff_exists.1 he.accepted
  obtain ⟨there, hthere, hcomps'⟩ := hhost.direct d hchdir
  refine ⟨here, there, hcwd, ?_, hcomps'.trans hcomps.symm⟩
  have hpwd : w.vars PWD = some d.text := he.pwd
  unfold osdCwdInit
  rw [hpwd]
  simp only [d.head?_text, hchdir, if_true, Option.getD_some]
  exact hthere

theorem threeDirs_lasting : threeDirs.Lasting := by
  intro cwd path cwd' h
  rw [threeDirs] at h ⊢
  simp only at h ⊢
  split_ifs at h with hmem
  cases h
  simp only [if_pos hmem, Option.isSome_some, implies_true, and_self]

/-- `cd tmp/a; cd ..`, and a program. -/
theorem started_follows_threeDirs :
    let w := run threeDirs atTop [.cd [] (some "tmp/a".toList), .cd [] (some "..".toList)]
    ∃ here there : DirName, w.cwd = here.text ∧ osdCwdInit threeDirs (w.vars PWD) = there.text ∧
      there.comps = here.comps :=
  started_follows threeDirs threeDirs_plain threeDirs_lasting atTop topDir atTop_located
    ⟨by decide, by decide⟩ _ (by decide)

end OsMoap.Shell.Cd
