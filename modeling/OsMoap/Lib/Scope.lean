import Mathlib.Data.Nat.Notation
import Mathlib.Logic.Function.Basic
import Mathlib.Tactic.SplitIfs

/-!
# Dynamic Scope, Deep and Shallow

Under dynamic scope a name means what the innermost frame that binds it says.  With deep binding the
frames are kept and searched (`Scopes`); with shallow binding there is one value for each name, the
current one, and a frame is a list of notes of what its names had before.  `deepen` reads the frames
off the notes, and every operation on the notes is the operation on the frames it stands for.
-/

namespace OsMoap.Lib

variable {κ ν : Type*}

/-- Deep binding: the frames, innermost first, over what holds outside of them. -/
structure Scopes (κ ν : Type*) where
  base : κ → ν
  frames : List (κ → Option ν)

namespace Scopes

/-- The value in the innermost frame that binds the name. -/
def lookupIn (base : κ → ν) : List (κ → Option ν) → κ → ν
  | [], k => base k
  | f :: fs, k => (f k).getD (lookupIn base fs k)

def lookup (s : Scopes κ ν) : κ → ν := lookupIn s.base s.frames

variable [DecidableEq κ]

/-- The innermost binding gets another value. -/
def assign : Scopes κ ν → κ → ν → Scopes κ ν
  | ⟨base, []⟩, k, v => ⟨Function.update base k v, []⟩
  | ⟨base, f :: fs⟩, k, v =>
    if (f k).isSome then ⟨base, Function.update f k (some v) :: fs⟩
    else
      let s := assign ⟨base, fs⟩ k v
      ⟨s.base, f :: s.frames⟩
termination_by s => s.frames.length

/-- A name is bound in the innermost frame. -/
def bind (s : Scopes κ ν) (k : κ) (v : ν) : Scopes κ ν :=
  match s.frames with
  | [] => s
  | f :: fs => ⟨s.base, Function.update f k (some v) :: fs⟩

def push (s : Scopes κ ν) : Scopes κ ν := ⟨s.base, (fun _ => none) :: s.frames⟩

def pop (s : Scopes κ ν) : Scopes κ ν := ⟨s.base, s.frames.tail⟩

/-- The innermost frame binds the name. -/
def binds (s : Scopes κ ν) (k : κ) : Bool :=
  match s.frames with
  | [] => false
  | f :: _ => (f k).isSome

/-- Some frame does. -/
def bound (s : Scopes κ ν) (k : κ) : Bool := s.frames.any fun f => (f k).isSome

/-- The scopes outside of all but some frames. -/
def outer (s : Scopes κ ν) (n : ℕ) : Scopes κ ν := ⟨s.base, s.frames.drop (s.frames.length - n)⟩

omit [DecidableEq κ] in
@[simp]
theorem outer_length (s : Scopes κ ν) : s.outer s.frames.length = s := by
  rw [outer, Nat.sub_self, List.drop_zero]

omit [DecidableEq κ] in
theorem length_outer {s : Scopes κ ν} {n : ℕ} (h : n ≤ s.frames.length) :
    (s.outer n).frames.length = n := by
  rw [outer, List.length_drop]
  omega

theorem assign_cons (base : κ → ν) (f : κ → Option ν) (fs : List (κ → Option ν)) (k : κ) (v : ν) :
    assign ⟨base, f :: fs⟩ k v =
      if (f k).isSome then ⟨base, Function.update f k (some v) :: fs⟩
      else ⟨(assign ⟨base, fs⟩ k v).base, f :: (assign ⟨base, fs⟩ k v).frames⟩ := by
  rw [assign]

theorem length_assign (s : Scopes κ ν) (k : κ) (v : ν) :
    (s.assign k v).frames.length = s.frames.length := by
  obtain ⟨base, frames⟩ := s
  induction frames with
  | nil => rw [assign]
  | cons f fs ih =>
    rw [assign_cons]
    split_ifs
    · rfl
    · exact congrArg (· + 1) ih

/-- **What is assigned** is found, and nothing else is touched. -/
theorem lookup_assign (s : Scopes κ ν) (k : κ) (v : ν) :
    (s.assign k v).lookup = Function.update s.lookup k v := by
  obtain ⟨base, frames⟩ := s
  induction frames with
  | nil =>
    rw [assign]
    rfl
  | cons f fs ih =>
    funext k'
    have hrest := congrFun ih k'
    rw [assign_cons]
    by_cases heq : k' = k
    · subst heq
      rw [Function.update_self] at hrest ⊢
      split_ifs with hf
      · rw [lookup, lookupIn, Function.update_self, Option.getD_some]
      · rw [Option.not_isSome_iff_eq_none] at hf
        rw [lookup, lookupIn, hf, Option.getD_none]
        exact hrest
    · rw [Function.update_of_ne heq] at hrest ⊢
      split_ifs with hf
      · rw [lookup, lookup, lookupIn, lookupIn, Function.update_of_ne heq]
      · rw [lookup, lookup, lookupIn, lookupIn]
        exact congrArg (f k').getD hrest

theorem length_bind (s : Scopes κ ν) (k : κ) (v : ν) :
    (s.bind k v).frames.length = s.frames.length := by
  obtain ⟨base, frames⟩ := s
  cases frames with
  | nil => rfl
  | cons f fs => rfl

/-- Outside of `n` frames a name has a value that is out of reach: the next frame binds it. -/
def Shields (n : ℕ) (k : κ) (v : ν) (s : Scopes κ ν) : Prop :=
  ∃ inner f outer, s.frames = inner ++ f :: outer ∧ outer.length = n ∧ (f k).isSome = true ∧
    lookupIn s.base outer k = v

omit [DecidableEq κ] in
theorem Shields.lookup_outer {n : ℕ} {k : κ} {v : ν} {s : Scopes κ ν} (h : Shields n k v s) :
    (s.outer n).lookup k = v := by
  obtain ⟨inner, f, outer, hframes, hlen, -, hv⟩ := h
  have hdrop : s.frames.drop (s.frames.length - n) = outer := by
    have hn : s.frames.length - n = (inner ++ [f]).length := by
      rw [hframes, List.length_append, List.length_append, List.length_cons, List.length_singleton, hlen]
      omega
    have hassoc : inner ++ f :: outer = (inner ++ [f]) ++ outer := by
      rw [List.append_assoc, List.singleton_append]
    rw [hn, hframes, hassoc, List.drop_left]
  rw [Scopes.outer, hdrop, lookup]
  exact hv

/-- **Nothing gets past** the frame that binds a name. -/
theorem Shields.assign {n : ℕ} {k : κ} {v : ν} {s : Scopes κ ν} (h : Shields n k v s) (k' : κ) (w : ν) :
    Shields n k v (s.assign k' w) := by
  obtain ⟨base, frames⟩ := s
  obtain ⟨inner, f, outer, hframes, hlen, hf, hv⟩ := h
  dsimp only at hframes hv
  subst hframes
  induction inner with
  | nil =>
    rw [List.nil_append, assign_cons]
    split_ifs with hf'
    · refine ⟨[], _, outer, rfl, hlen, ?_, hv⟩
      by_cases heq : k = k'
      · rw [heq, Function.update_self]
        rfl
      · rw [Function.update_of_ne heq, hf]
    · -- another name, so the value is not the one that is set
      have hne : k ≠ k' := by
        rintro rfl
        exact hf' hf
      have hlookup := congrFun (lookup_assign ⟨base, outer⟩ k' w) k
      rw [Function.update_of_ne hne] at hlookup
      refine ⟨[], f, _, rfl, ?_, hf, hlookup.trans hv⟩
      exact (length_assign ⟨base, outer⟩ k' w).trans hlen
  | cons g inner ih =>
    rw [List.cons_append, assign_cons]
    split_ifs
    · exact ⟨_ :: inner, f, outer, rfl, hlen, hf, hv⟩
    · obtain ⟨inner', f', outer', hframes', hrest⟩ := ih
      exact ⟨g :: inner', f', outer', congrArg (g :: ·) hframes', hrest⟩

theorem Shields.bind {n : ℕ} {k : κ} {v : ν} {s : Scopes κ ν} (h : Shields n k v s) (k' : κ) (w : ν) :
    Shields n k v (s.bind k' w) := by
  obtain ⟨base, frames⟩ := s
  obtain ⟨inner, f, outer, hframes, hlen, hf, hv⟩ := h
  dsimp only at hframes hv
  subst hframes
  cases inner with
  | nil =>
    refine ⟨[], _, outer, rfl, hlen, ?_, hv⟩
    by_cases heq : k = k'
    · rw [heq, Function.update_self]
      rfl
    · rw [Function.update_of_ne heq, hf]
  | cons g inner => exact ⟨_ :: inner, f, outer, rfl, hlen, hf, hv⟩

omit [DecidableEq κ] in
theorem Shields.push {n : ℕ} {k : κ} {v : ν} {s : Scopes κ ν} (h : Shields n k v s) :
    Shields n k v s.push := by
  obtain ⟨inner, f, outer, hframes, hrest⟩ := h
  exact ⟨_ :: inner, f, outer, congrArg ((fun _ => none) :: ·) hframes, hrest⟩

omit [DecidableEq κ] in
/-- As long as the frame itself is not left. -/
theorem Shields.outer {n : ℕ} {k : κ} {v : ν} {s : Scopes κ ν} (h : Shields n k v s) {stop : ℕ}
    (hstop : n < stop) : Shields n k v (s.outer stop) := by
  obtain ⟨inner, f, outer, hframes, hlen, hf, hv⟩ := h
  have hle : s.frames.length - stop ≤ inner.length := by
    rw [hframes, List.length_append, List.length_cons]
    omega
  refine ⟨inner.drop (s.frames.length - stop), f, outer, ?_, hlen, hf, hv⟩
  rw [Scopes.outer, hframes, List.drop_append_of_le_length]
  rw [← hframes]
  exact hle

end Scopes

/-! ## Notes of what was there before -/

variable [DecidableEq κ]

/-- The values outside of a frame with these notes. -/
def undo (cur : κ → ν) (notes : List (κ × ν)) : κ → ν :=
  notes.foldl (fun f note => Function.update f note.1 note.2) cur

/-- The frames that notes stand for. -/
def deepen (cur : κ → ν) : List (List (κ × ν)) → Scopes κ ν
  | [] => ⟨cur, []⟩
  | notes :: log =>
    let s := deepen (undo cur notes) log
    ⟨s.base, (fun k => if k ∈ notes.map Prod.fst then some (cur k) else none) :: s.frames⟩

@[simp]
theorem undo_nil (cur : κ → ν) : undo cur [] = cur := rfl

@[simp]
theorem undo_cons (cur : κ → ν) (note : κ × ν) (notes : List (κ × ν)) :
    undo cur (note :: notes) = undo (Function.update cur note.1 note.2) notes := rfl

theorem undo_of_notMem {cur : κ → ν} {notes : List (κ × ν)} {k : κ}
    (h : k ∉ notes.map Prod.fst) : undo cur notes k = cur k := by
  induction notes generalizing cur with
  | nil => rfl
  | cons note notes ih =>
    rw [List.map_cons, List.mem_cons, not_or] at h
    rw [undo_cons, ih h.2, Function.update_of_ne h.1]

/-- What a noted name has now is of no account outside. -/
theorem undo_update_of_mem {cur : κ → ν} {notes : List (κ × ν)} {k : κ}
    (h : k ∈ notes.map Prod.fst) (v : ν) :
    undo (Function.update cur k v) notes = undo cur notes := by
  induction notes generalizing cur with
  | nil => cases h
  | cons note notes ih =>
    rw [undo_cons, undo_cons]
    by_cases heq : note.1 = k
    · rw [heq, Function.update_idem]
    · rw [Function.update_comm (Ne.symm heq)]
      apply ih
      rcases List.mem_cons.mp h with hk | hk
      · exact absurd hk.symm heq
      · exact hk

theorem undo_update_of_notMem {cur : κ → ν} {notes : List (κ × ν)} {k : κ}
    (h : k ∉ notes.map Prod.fst) (v : ν) :
    undo (Function.update cur k v) notes = Function.update (undo cur notes) k v := by
  induction notes generalizing cur with
  | nil => rfl
  | cons note notes ih =>
    rw [List.map_cons, List.mem_cons, not_or] at h
    rw [undo_cons, undo_cons, ← ih h.2, Function.update_comm (Ne.symm h.1)]

/-! ## The operations -/

variable {cur : κ → ν} {notes : List (κ × ν)} {log : List (List (κ × ν))} {k : κ}

/-- **The current values** are those that the search finds. -/
theorem lookup_deepen (cur : κ → ν) (log : List (List (κ × ν))) : (deepen cur log).lookup = cur := by
  induction log generalizing cur with
  | nil => rfl
  | cons notes log ih =>
    funext k
    have hrest := congrFun (ih (undo cur notes)) k
    have hstep : (deepen cur (notes :: log)).lookup k =
        (if k ∈ notes.map Prod.fst then some (cur k) else none).getD
          ((deepen (undo cur notes) log).lookup k) := rfl
    rw [hstep]
    split_ifs with hmem
    · rfl
    · rw [Option.getD_none, hrest, undo_of_notMem hmem]

/-- **Assigning**: the innermost binding is the current value. -/
theorem deepen_update (cur : κ → ν) (log : List (List (κ × ν))) (k : κ) (v : ν) :
    deepen (Function.update cur k v) log = (deepen cur log).assign k v := by
  induction log generalizing cur with
  | nil =>
    rw [deepen, deepen, Scopes.assign]
  | cons notes log ih =>
    rw [deepen, deepen, Scopes.assign]
    dsimp only
    by_cases hmem : k ∈ notes.map Prod.fst
    · rw [if_pos hmem, Option.isSome_some, if_pos rfl, undo_update_of_mem hmem]
      congr 2
      funext k'
      by_cases heq : k' = k
      · rw [heq, Function.update_self, Function.update_self, if_pos hmem]
      · rw [Function.update_of_ne heq, Function.update_of_ne heq]
    · rw [if_neg hmem, undo_update_of_notMem hmem, ih]
      have hfalse : ¬ (none : Option ν).isSome = true := Bool.false_ne_true
      rw [if_neg hfalse]
      congr 2
      funext k'
      by_cases heq : k' = k
      · rw [heq, if_neg hmem, if_neg hmem]
      · rw [Function.update_of_ne heq]

theorem deepen_push (cur : κ → ν) (log : List (List (κ × ν))) :
    deepen cur ([] :: log) = (deepen cur log).push := by
  rw [deepen, undo_nil, Scopes.push]
  rfl

/-- **Leaving a frame**: what was noted is put back. -/
theorem deepen_pop (cur : κ → ν) (notes : List (κ × ν)) (log : List (List (κ × ν))) :
    deepen (undo cur notes) log = (deepen cur (notes :: log)).pop := rfl

/-- **Binding a name**: the old value is noted. -/
theorem deepen_bind (cur : κ → ν) (notes : List (κ × ν)) (log : List (List (κ × ν))) (k : κ) (v : ν) :
    deepen (Function.update cur k v) (((k, cur k) :: notes) :: log) =
      (deepen cur (notes :: log)).bind k v := by
  rw [deepen, undo_cons, Function.update_idem, Function.update_eq_self, deepen, Scopes.bind]
  congr 2
  funext k'
  rw [List.map_cons]
  by_cases heq : k' = k
  · rw [heq, if_pos List.mem_cons_self, Function.update_self, Function.update_self]
  · rw [Function.update_of_ne heq, Function.update_of_ne heq]
    simp only [List.mem_cons, heq, false_or]

theorem binds_deepen (cur : κ → ν) (notes : List (κ × ν)) (log : List (List (κ × ν))) (k : κ) :
    (deepen cur (notes :: log)).binds k = true ↔ k ∈ notes.map Prod.fst := by
  rw [deepen, Scopes.binds]
  dsimp only
  split_ifs with hmem
  · exact ⟨fun _ => hmem, fun _ => rfl⟩
  · exact ⟨fun h => absurd h Bool.false_ne_true, fun h => absurd h hmem⟩

theorem bound_deepen (cur : κ → ν) (log : List (List (κ × ν))) (k : κ) :
    (deepen cur log).bound k = true ↔ ∃ notes ∈ log, k ∈ notes.map Prod.fst := by
  induction log generalizing cur with
  | nil =>
    constructor
    · exact fun h => absurd h Bool.false_ne_true
    · rintro ⟨notes, hmem, -⟩
      cases hmem
  | cons notes log ih =>
    have hstep : (deepen cur (notes :: log)).bound k =
        ((deepen cur (notes :: log)).binds k || (deepen (undo cur notes) log).bound k) := rfl
    rw [hstep, Bool.or_eq_true, binds_deepen, ih]
    constructor
    · rintro (hmem | ⟨notes', hnotes, hmem⟩)
      · exact ⟨notes, List.mem_cons_self, hmem⟩
      · exact ⟨notes', List.mem_cons_of_mem notes hnotes, hmem⟩
    · rintro ⟨notes', hnotes, hmem⟩
      rcases List.mem_cons.mp hnotes with rfl | hnotes
      · exact Or.inl hmem
      · exact Or.inr ⟨notes', hnotes, hmem⟩

theorem length_frames_deepen (cur : κ → ν) (log : List (List (κ × ν))) :
    (deepen cur log).frames.length = log.length := by
  induction log generalizing cur with
  | nil => rfl
  | cons notes log ih =>
    rw [deepen]
    dsimp only
    rw [List.length_cons, List.length_cons, ih]

end OsMoap.Lib
