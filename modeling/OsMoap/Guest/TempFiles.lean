import OsMoap.Lib.Machine
import Mathlib.Data.BitVec
import Mathlib.Logic.Function.Basic

/-!
# Temporary Files

`mkstemp` of `guest/busybox/wasi-compat/wasi-compat.c`.  The name comes from a counter that each
instance keeps in a static, starting at 0, and the file is opened once with `O_EXCL`.  All
instances share the file system.

A program runs while those that spawned it are suspended, as in the terminal's machine.  A call
finds a free name exactly when the one its instance's counter gives is free (`findsFree_iff`): a
child counts from the start again and meets the files of its parent.
-/

namespace OsMoap.Guest

open OsMoap.Lib

abbrev FileName := List UInt8

/-- A file: made by the call of some number, or by something else. -/
inductive Node where
  | minted (call : ℕ)
  | foreign
  deriving DecidableEq

/-- The shared file system, how many calls there have been, the counter of the running instance
and those of the suspended ones. -/
structure TmpState where
  fs : FileName → Option Node
  calls : ℕ
  seq : BitVec 32
  suspended : List (BitVec 32)

/-- The loop over the last six characters, from round `i` on. -/
def putDigits : ℕ → ℕ → BitVec 32 → FileName → FileName
  | 0, _, _, tmpl => tmpl
  | k + 1, i, v, tmpl =>
    putDigits k (i + 1) (v / 10)
      (tmpl.set (tmpl.length - 1 - i) (48 + UInt8.ofNat (v % 10).toNat))

/-- The name a call goes for with this counter. -/
def mkstempName (tmpl : FileName) (v : BitVec 32) : FileName :=
  if 6 ≤ tmpl.length then putDigits 6 0 v tmpl else tmpl

/-- `open(tmpl, O_RDWR | O_CREAT | O_EXCL, 0600)` for the call of this number; `none` is
`EEXIST`. -/
def openExcl (name : FileName) (s : TmpState) : Option Node × TmpState :=
  match s.fs name with
  | some _ => (none, { s with calls := s.calls + 1 })
  | none => (some (.minted s.calls),
      { s with fs := Function.update s.fs name (some (.minted s.calls)), calls := s.calls + 1 })

/-- `mkstemp`: the file behind the descriptor, or an error. -/
def mkstemp (tmpl : FileName) (s : TmpState) : Option Node × TmpState :=
  let s := if 6 ≤ tmpl.length then { s with seq := s.seq + 1 } else s
  openExcl (mkstempName tmpl s.seq) s

inductive TmpStep where
  | mkstemp (tmpl : FileName)
  | create (name : FileName)
  | unlink (name : FileName)
  | spawn
  | exit

/-- What the running instance can do.  `tmpfile` is a call of `mkstemp` and an `unlink`. -/
def tmpStep (s : TmpState) : TmpStep → Option TmpState
  | .mkstemp tmpl => some (mkstemp tmpl s).2
  | .create name =>
    some { s with fs := Function.update s.fs name (some ((s.fs name).getD .foreign)) }
  | .unlink name => some { s with fs := Function.update s.fs name none }
  | .spawn => some { s with seq := 0, suspended := s.seq :: s.suspended }
  | .exit =>
    match s.suspended with
    | [] => none
    | v :: rest => some { s with seq := v, suspended := rest }

/-- One program over a file system that holds anything. -/
def tmpInit (present : FileName → Bool) : TmpState where
  fs name := if present name then some .foreign else none
  calls := 0
  seq := 0
  suspended := []

/-! ## The names of a template -/

/-- A number below a million in six digits. -/
def sixDigits (v : ℕ) : FileName :=
  [v / 100000, v / 10000, v / 1000, v / 100, v / 10, v].map fun d => 48 + UInt8.ofNat (d % 10)

/-- The template with some number for its last six characters. -/
def IsCandidate (tmpl name : FileName) : Prop :=
  ∃ v < 10 ^ 6, name = tmpl.take (tmpl.length - 6) ++ sixDigits v

/-- The loop stays within the last characters. -/
theorem putDigits_append (stem : FileName) {k i : ℕ} (v : BitVec 32) {t : FileName}
    (h : i + k ≤ t.length) : putDigits k i v (stem ++ t) = stem ++ putDigits k i v t := by
  induction k generalizing i v t with
  | zero => rfl
  | succ k ih =>
    have hpos : (stem ++ t).length - 1 - i = stem.length + (t.length - 1 - i) := by
      rw [List.length_append]
      omega
    rw [putDigits, putDigits, hpos, List.set_append_right _ _ (Nat.le_add_right _ _),
      Nat.add_sub_cancel_left]
    apply ih
    rw [List.length_set]
    omega

/-- Six rounds write the counter modulo a million. -/
theorem putDigits_six (v : BitVec 32) {t : FileName} (h : t.length = 6) :
    putDigits 6 0 v t = sixDigits (v.toNat % 10 ^ 6) := by
  obtain ⟨a, b, c, d, e, f, rfl⟩ : ∃ a b c d e f, t = [a, b, c, d, e, f] := by
    match t, h with
    | [a, b, c, d, e, f], _ => exact ⟨a, b, c, d, e, f, rfl⟩
  have hmod : ∀ w : BitVec 32, (w % 10).toNat = w.toNat % 10 := fun w => by simp
  have hdiv : ∀ w : BitVec 32, (w / 10).toNat = w.toNat / 10 := fun w => by simp
  simp only [putDigits, hmod, hdiv, sixDigits]
  simp
  refine ⟨?_, ?_, ?_, ?_, ?_⟩ <;> congr 1 <;> omega

/-- A call goes for the candidate of its instance's counter. -/
theorem mkstempName_eq {tmpl : FileName} (h : 6 ≤ tmpl.length) (v : BitVec 32) :
    mkstempName tmpl v
      = tmpl.take (tmpl.length - 6) ++ sixDigits (v.toNat % 10 ^ 6) := by
  have hlast : (tmpl.drop (tmpl.length - 6)).length = 6 := by
    rw [List.length_drop]
    omega
  have hsplit := putDigits_append (tmpl.take (tmpl.length - 6)) v (k := 6) (i := 0) hlast.ge
  rw [List.take_append_drop, putDigits_six v hlast] at hsplit
  rw [mkstempName, if_pos h, hsplit]

/-! ## Finding a free name -/

/-- Some candidate of the template is unused. -/
def HasFree (tmpl : FileName) (s : TmpState) : Prop :=
  ∃ name, IsCandidate tmpl name ∧ s.fs name = none

/-- The name a call in this state goes for. -/
def nextName (tmpl : FileName) (s : TmpState) : FileName := mkstempName tmpl (s.seq + 1)

/-- A call opens a new file under a candidate name, and no other call made it. -/
def MakesFile (tmpl : FileName) (s : TmpState) : Prop :=
  ∃ name node, IsCandidate tmpl name ∧ s.fs name = none ∧
    (mkstemp tmpl s).1 = some node ∧ (mkstemp tmpl s).2.fs name = some node ∧
    node = .minted s.calls ∧ ∀ other, s.fs other ≠ some node

/-- The files there are were made by calls of the past. -/
def TmpInv (s : TmpState) : Prop := ∀ name call, s.fs name = some (.minted call) → call < s.calls

theorem isCandidate_nextName {tmpl : FileName} (h : 6 ≤ tmpl.length) (s : TmpState) :
    IsCandidate tmpl (nextName tmpl s) :=
  ⟨_, Nat.mod_lt _ (by decide), mkstempName_eq h _⟩

theorem mkstemp_eq {tmpl : FileName} (h : 6 ≤ tmpl.length) (s : TmpState) :
    mkstemp tmpl s = openExcl (nextName tmpl s) { s with seq := s.seq + 1 } := by
  rw [mkstemp, if_pos h, nextName]

/-- **One call** makes a file exactly when its own name is free. -/
theorem makesFile_iff {tmpl : FileName} (h : 6 ≤ tmpl.length) {s : TmpState} (hs : TmpInv s) :
    MakesFile tmpl s ↔ s.fs (nextName tmpl s) = none := by
  unfold MakesFile
  rw [mkstemp_eq h, openExcl]
  cases hname : s.fs (nextName tmpl s) with
  | some node => simp
  | none =>
    refine ⟨fun _ => rfl, fun _ => ⟨nextName tmpl s, .minted s.calls,
      isCandidate_nextName h s, hname, rfl, Function.update_self _ _ _, rfl, fun other hother => ?_⟩⟩
    exact absurd (hs other s.calls hother) (Nat.lt_irrefl _)

theorem tmpInv_init (present : FileName → Bool) : TmpInv (tmpInit present) := by
  intro name call h
  simp only [tmpInit] at h
  split_ifs at h
  cases h

theorem tmpInv_openExcl (name : FileName) {s : TmpState} (hs : TmpInv s) :
    TmpInv (openExcl name s).2 := by
  unfold openExcl
  cases s.fs name with
  | some node =>
    intro other call h
    exact Nat.lt_succ_of_lt (hs other call h)
  | none =>
    intro other call h
    simp only [Function.update_apply] at h
    split_ifs at h with hother
    · obtain rfl := Node.minted.inj (Option.some.inj h)
      exact Nat.lt_succ_self _
    · exact Nat.lt_succ_of_lt (hs other call h)

/-- Every step keeps the files accounted for. -/
theorem tmpInv_step {s s' : TmpState} {a : TmpStep} (hs : TmpInv s) (h : tmpStep s a = some s') :
    TmpInv s' := by
  cases a with
  | mkstemp tmpl =>
    obtain rfl := Option.some.inj h
    unfold mkstemp
    split_ifs
    · exact tmpInv_openExcl _ hs
    · exact tmpInv_openExcl _ hs
  | create name =>
    obtain rfl := Option.some.inj h
    intro other call hother
    simp only [Function.update_apply] at hother
    split_ifs at hother with heq
    · cases hold : s.fs name with
      | none => simp [hold] at hother
      -- a file that is opened again keeps the call that made it
      | some node =>
        rw [hold] at hother
        obtain rfl := Option.some.inj hother
        exact hs name call hold
    · exact hs other call hother
  | unlink name =>
    obtain rfl := Option.some.inj h
    intro other call hother
    simp only [Function.update_apply] at hother
    split_ifs at hother
    exact hs other call hother
  | spawn =>
    obtain rfl := Option.some.inj h
    exact hs
  | exit =>
    cases hrest : s.suspended with
    | nil => simp [tmpStep, hrest] at h
    | cons v rest =>
      simp only [tmpStep, hrest, Option.some.injEq] at h
      subst h
      exact hs

/-- What is asked of a step: a call on a template of six characters and more makes a file if some
candidate is unused. -/
def FindsFree (s : TmpState) (a : TmpStep) : Prop :=
  ∀ tmpl, a = .mkstemp tmpl → 6 ≤ tmpl.length → HasFree tmpl s → MakesFile tmpl s

/-- The name of the caller's own counter is unused if any candidate is. -/
def OwnNameFree (s : TmpState) (a : TmpStep) : Prop :=
  ∀ tmpl, a = .mkstemp tmpl → 6 ≤ tmpl.length → HasFree tmpl s → s.fs (nextName tmpl s) = none

theorem findsFree_iff_ownNameFree {s : TmpState} (hs : TmpInv s) (a : TmpStep) :
    FindsFree s a ↔ OwnNameFree s a := by
  constructor
  · intro hmakes tmpl ha hlen hfree
    exact (makesFile_iff hlen hs).mp (hmakes tmpl ha hlen hfree)
  · intro hnext tmpl ha hlen hfree
    exact (makesFile_iff hlen hs).mpr (hnext tmpl ha hlen hfree)

/-- **Runs**: over any file system and any interleaving of calls, other changes, spawns and exits,
every call with a free candidate makes a new file exactly when at every such call the name of the
caller's own counter is free. -/
theorem findsFree_iff (present : FileName → Bool) (run : List TmpStep) :
    (∀ t a, Takes tmpStep (tmpInit present) run t a → FindsFree t a) ↔
      ∀ t a, Takes tmpStep (tmpInit present) run t a → OwnNameFree t a := by
  apply takes_iff_of_inv _ _ (tmpInv_init present)
  · intro t a ht _
    exact findsFree_iff_ownNameFree ht a
  · intro t a t' ht _ hstep
    exact tmpInv_step ht hstep

/-- `XXXXXX`. -/
def sixXs : FileName := List.replicate 6 88

/-- A program keeps its temporary file, and its child asks for one. -/
theorem not_findsFree_child :
    ¬ ∀ t a, Takes tmpStep (tmpInit fun _ => false) [.mkstemp sixXs, .spawn, .mkstemp sixXs] t a →
      FindsFree t a := by
  intro h
  obtain ⟨t, hrun⟩ : ∃ t, runSteps tmpStep (tmpInit fun _ => false) [.mkstemp sixXs, .spawn] = some t :=
    ⟨_, rfl⟩
  have hfs : t.fs = Function.update (fun _ => none) (sixDigits 1) (some (.minted 0)) := by
    have hname : mkstempName sixXs 1 = sixDigits 1 := by decide
    obtain rfl := Option.some.inj hrun
    rw [← hname]
    rfl
  have hseq : t.seq = 0 := by
    obtain rfl := Option.some.inj hrun
    rfl
  have hfree : HasFree sixXs t := by
    refine ⟨sixDigits 2, ⟨2, by decide, by decide⟩, ?_⟩
    rw [hfs]
    decide
  obtain ⟨name, node, hcand, hnone, hopen, -⟩ :=
    h t (.mkstemp sixXs) ⟨_, List.prefix_rfl, hrun, rfl⟩ sixXs rfl (by decide) hfree
  -- the child's counter gives the name the parent's file has
  have hown : nextName sixXs t = sixDigits 1 := by
    rw [nextName, hseq]
    decide
  rw [mkstemp_eq (by decide), openExcl, hown, hfs, Function.update_self] at hopen
  cases hopen

end OsMoap.Guest
