import OsMoap.Lib.Machine
import Mathlib.Data.BitVec

/-!
# The Terminal Mode

`tcgetattr` and `tcsetattr` of `guest/busybox/wasi-compat/wasi-compat.c`.  The page is the tty
driver: its line discipline is cooked or raw, and all programs share it.  Each instance keeps
the local flags it last set in `osd_tty_lflag`, a static that starts as `ICANON | ECHO`, and
answers `tcgetattr` from there.

A program runs while those that spawned it are suspended, so a state is the mode of the page,
the flags of the running instance and those of the suspended ones.  The flags tell the mode in
every state of a run exactly when instances are started and ended in cooked mode
(`coherent_iff`).
-/

namespace OsMoap.Guest

open OsMoap.Lib

/-! ## `termios.h` -/

abbrev TcFlag := BitVec 32

def ISIG : TcFlag := 0o1
def ICANON : TcFlag := 0o2
def ECHO : TcFlag := 0o10
def ECHONL : TcFlag := 0o100
def IEXTEN : TcFlag := 0o100000

def IGNBRK : TcFlag := 0o1
def BRKINT : TcFlag := 0o2
def PARMRK : TcFlag := 0o10
def ISTRIP : TcFlag := 0o40
def INLCR : TcFlag := 0o100
def IGNCR : TcFlag := 0o200
def ICRNL : TcFlag := 0o400
def IXON : TcFlag := 0o2000

def OPOST : TcFlag := 0o1

def CSIZE : TcFlag := 0o60
def CS8 : TcFlag := 0o60
def PARENB : TcFlag := 0o400

def VTIME : ℕ := 5
def VMIN : ℕ := 6
def NCCS : ℕ := 32

structure Termios where
  c_iflag : TcFlag
  c_oflag : TcFlag
  c_cflag : TcFlag
  c_lflag : TcFlag
  c_cc : List UInt8
  deriving DecidableEq

/-- `cfmakeraw`. -/
def cfmakeraw (t : Termios) : Termios where
  c_iflag := t.c_iflag &&& ~~~(IGNBRK ||| BRKINT ||| PARMRK ||| ISTRIP ||| INLCR ||| IGNCR |||
    ICRNL ||| IXON)
  c_oflag := t.c_oflag &&& ~~~OPOST
  c_lflag := t.c_lflag &&& ~~~(ECHO ||| ECHONL ||| ICANON ||| ISIG ||| IEXTEN)
  c_cflag := (t.c_cflag &&& ~~~(CSIZE ||| PARENB)) ||| CS8
  c_cc := (t.c_cc.set VMIN 1).set VTIME 0

/-! ## Instances over one page -/

/-- The page's line discipline. -/
inductive Mode where
  | cooked
  | raw
  deriving DecidableEq

/-- The page, the running instance and the instances suspended below it. -/
structure TtyState where
  page : Mode
  lflag : TcFlag
  suspended : List TcFlag
  deriving DecidableEq

/-- A fresh `osd_tty_lflag`. -/
def freshLflag : TcFlag := ICANON ||| ECHO

/-- One program, over a cooked page. -/
def ttyInit : TtyState := ⟨.cooked, freshLflag, []⟩

/-- `tcgetattr`; the descriptor is not looked at. -/
def tcgetattr (s : TtyState) : Termios where
  c_iflag := 0
  c_oflag := 0
  c_cflag := 0
  c_lflag := s.lflag
  c_cc := (List.replicate NCCS 0).set VMIN 1

/-- `tcsetattr`: a std descriptor drives the page. -/
def tcsetattr (fd : ℤ) (t : Option Termios) (s : TtyState) : TtyState :=
  match t with
  | some t =>
    if 0 ≤ fd ∧ fd ≤ 2 then
      { s with
        page := if t.c_lflag &&& ICANON = 0 then .raw else .cooked
        lflag := t.c_lflag }
    else s
  | none => s

inductive TtyStep where
  | tcgetattr
  | tcsetattr (fd : ℤ) (t : Option Termios)
  | spawn
  | exit
  deriving DecidableEq

/-- What the running instance can do.  A child that ends lets its parent go on; when the first
program ends, the run is over. -/
def ttyStep (s : TtyState) : TtyStep → Option TtyState
  | .tcgetattr => some s
  | .tcsetattr fd t => some (tcsetattr fd t s)
  | .spawn => some ⟨s.page, freshLflag, s.lflag :: s.suspended⟩
  | .exit =>
    match s.suspended with
    | [] => none
    | l :: rest => some ⟨s.page, l, rest⟩

/-! ## Coherence -/

/-- What `tcgetattr` reports is the mode of the page. -/
def Reports (s : TtyState) : Prop := (tcgetattr s).c_lflag &&& ICANON ≠ 0 ↔ s.page = .cooked

/-- Setting flags that differ from the reported ones outside `ICANON` keeps the mode. -/
def KeepsMode (s : TtyState) : Prop :=
  ∀ fd t, t.c_lflag &&& ICANON = (tcgetattr s).c_lflag &&& ICANON →
    (tcsetattr fd (some t) s).page = s.page

instance (s : TtyState) : Decidable (Reports s) := inferInstanceAs (Decidable (_ ↔ _))

theorem keepsMode_of_reports {s : TtyState} (h : Reports s) : KeepsMode s := by
  intro fd t ht
  simp only [tcsetattr]
  split_ifs with hfd hraw
  · rw [hraw] at ht
    cases hpage : s.page with
    | cooked => exact absurd ht.symm (h.mpr hpage)
    | raw => rfl
  · rw [ht] at hraw
    exact (h.mp hraw).symm
  · rfl

/-- A coherent state in which every suspended instance holds the mode for cooked: it was
suspended in that mode. -/
def TtyInv (s : TtyState) : Prop := Reports s ∧ ∀ l ∈ s.suspended, l &&& ICANON ≠ 0

theorem reports_tcsetattr (fd : ℤ) (t : Option Termios) {s : TtyState} (h : Reports s) :
    Reports (tcsetattr fd t s) := by
  cases t with
  | none => exact h
  | some t =>
    simp only [tcsetattr]
    split_ifs with hfd hraw
    · exact ⟨fun hset => absurd hraw hset, fun hcooked => by simp at hcooked⟩
    · exact ⟨fun _ => rfl, fun _ => hraw⟩
    · exact h

/-- Flags that say cooked are right in cooked mode only. -/
theorem reports_iff_cooked {s : TtyState} (h : s.lflag &&& ICANON ≠ 0) :
    Reports s ↔ s.page = .cooked :=
  ⟨fun hr => hr.mp h, fun hcooked => ⟨fun _ => hcooked, fun _ => h⟩⟩

theorem suspended_tcsetattr (fd : ℤ) (t : Option Termios) (s : TtyState) :
    (tcsetattr fd t s).suspended = s.suspended := by
  cases t with
  | none => rfl
  | some t =>
    simp only [tcsetattr]
    split_ifs <;> rfl

/-- Starting or ending an instance. -/
def Switches (a : TtyStep) : Prop := a = .spawn ∨ a = .exit

/-- **One step** from a good state: it leads to a coherent state exactly when it is not a switch
in raw mode, and the state is a good one then. -/
theorem ttyStep_inv {s s' : TtyState} {a : TtyStep} (h : TtyInv s) (hstep : ttyStep s a = some s') :
    (Reports s' ↔ (Switches a → s.page = .cooked)) ∧ (Reports s' → TtyInv s') := by
  obtain ⟨hreports, hsusp⟩ := h
  cases a with
  | tcgetattr =>
    obtain rfl : s = s' := Option.some.inj hstep
    exact ⟨by simp [Switches, hreports], fun _ => ⟨hreports, hsusp⟩⟩
  | tcsetattr fd t =>
    obtain rfl : tcsetattr fd t s = s' := Option.some.inj hstep
    have hset := reports_tcsetattr fd t hreports
    exact ⟨by simp [Switches, hset], fun _ => ⟨hset, by rw [suspended_tcsetattr]; exact hsusp⟩⟩
  | spawn =>
    obtain rfl : _ = s' := Option.some.inj hstep
    have hiff : Reports ⟨s.page, freshLflag, s.lflag :: s.suspended⟩ ↔ s.page = .cooked :=
      reports_iff_cooked (show freshLflag &&& ICANON ≠ 0 by decide)
    refine ⟨by simp [hiff, Switches], fun hr => ⟨hr, fun l hl => ?_⟩⟩
    -- the spawning instance is suspended in cooked mode
    rcases List.mem_cons.mp hl with rfl | hl
    · exact hreports.mpr (hiff.mp hr)
    · exact hsusp l hl
  | exit =>
    cases hrest : s.suspended with
    | nil => simp [ttyStep, hrest] at hstep
    | cons l rest =>
      rw [hrest] at hsusp
      simp only [ttyStep, hrest, Option.some.injEq] at hstep
      have hl : l &&& ICANON ≠ 0 := hsusp l List.mem_cons_self
      have hiff : Reports s' ↔ s.page = .cooked := by
        rw [← hstep]
        exact reports_iff_cooked hl
      refine ⟨by simp [hiff, Switches], fun hr => ⟨hr, fun l' hl' => ?_⟩⟩
      rw [← hstep] at hl'
      exact hsusp l' (List.mem_cons_of_mem _ hl')

/-- The report is right in all states of a run that starts in a good one, exactly when no
instance is started or ended in raw mode. -/
theorem reports_iff {s : TtyState} (h : TtyInv s) (run : List TtyStep) :
    (∀ t, Visits ttyStep s run t → Reports t) ↔
      ∀ t a, Takes ttyStep s run t a → Switches a → t.page = .cooked := by
  induction run generalizing s with
  | nil =>
    constructor
    · intro _ t a htakes
      exact absurd htakes takes_nil
    · intro _ t ht
      rw [visits_nil.mp ht]
      exact h.1
  | cons a run ih =>
    cases hstep : ttyStep s a with
    | none =>
      constructor
      · intro _ t b htakes
        rcases takes_cons.mp htakes with ⟨-, -, hsome⟩ | ⟨s', hs', -⟩
        · simp [hstep] at hsome
        · simp [hstep] at hs'
      · intro _ t ht
        rcases visits_cons.mp ht with rfl | ⟨s', hs', -⟩
        · exact h.1
        · simp [hstep] at hs'
    | some s' =>
      -- the invariant is kept only where the step reports, so both directions go step by step
      obtain ⟨hone, hinv⟩ := ttyStep_inv h hstep
      constructor
      · intro hall t b htakes hb
        have hs' : Reports s' := hall s' (visits_cons.mpr (Or.inr ⟨s', hstep, visits_self _ _⟩))
        rcases takes_cons.mp htakes with ⟨rfl, rfl, -⟩ | ⟨s'', hs'', htakes⟩
        · exact hone.mp hs' hb
        · obtain rfl : s' = s'' := Option.some.inj (hstep.symm.trans hs'')
          refine (ih (hinv hs')).mp (fun t' ht' => ?_) t b htakes hb
          exact hall t' (visits_cons.mpr (Or.inr ⟨s', hstep, ht'⟩))
      · intro hall t ht
        have hs' : Reports s' := hone.mpr fun ha =>
          hall s a (takes_cons.mpr (Or.inl ⟨rfl, rfl, by rw [hstep]; rfl⟩)) ha
        rcases visits_cons.mp ht with rfl | ⟨s'', hs'', ht⟩
        · exact h.1
        · obtain rfl : s' = s'' := Option.some.inj (hstep.symm.trans hs'')
          refine (ih (hinv hs')).mpr (fun t' b htakes => ?_) t ht
          exact hall t' b (takes_cons.mpr (Or.inr ⟨s', hstep, htakes⟩))

/-- **Coherence over runs**: in every state that a run visits the reported mode is the mode of
the page, and setting unrelated flags keeps it, exactly when every instance is started and ended
while the page is cooked. -/
theorem coherent_iff (run : List TtyStep) :
    (∀ t, Visits ttyStep ttyInit run t → Reports t ∧ KeepsMode t) ↔
      ∀ t a, Takes ttyStep ttyInit run t a → Switches a → t.page = .cooked := by
  have hinit : TtyInv ttyInit := ⟨by decide, by simp [ttyInit]⟩
  rw [← reports_iff hinit run]
  constructor
  · intro h t ht
    exact (h t ht).1
  · intro h t ht
    exact ⟨h t ht, keepsMode_of_reports (h t ht)⟩

/-- `DG_Init` of `guest/pkgs/doom/doomgeneric_osmoap.c`: raw mode, which `screen_restore` does
not undo. -/
def dgInit (s : TtyState) : TtyStep :=
  let t := cfmakeraw (tcgetattr s)
  .tcsetattr 0 (some { t with c_lflag := t.c_lflag &&& ~~~(ICANON ||| ECHO ||| ISIG) })

/-- The shell runs Doom, and goes on with flags that say the page is cooked. -/
theorem not_coherent_doom :
    let child : TtyState := ⟨.cooked, freshLflag, [freshLflag]⟩
    ttyStep ttyInit .spawn = some child ∧
      ¬ ∀ t, Visits ttyStep ttyInit [.spawn, .tcgetattr, dgInit child, .exit] t →
        Reports t ∧ KeepsMode t := by
  refine ⟨rfl, fun h => ?_⟩
  have hlast := (h ⟨.raw, freshLflag, []⟩ ⟨_, List.prefix_rfl, by decide⟩).1
  exact absurd hlast (by decide)

end OsMoap.Guest
