import OsMoap.Lib.Machine
import OsMoap.Pack.PyText

/-!
# Capture Files of Nested Shells

The names of the temporary files in `guest/busybox/upstream/shell/ash.c`: a pipeline stage of
`evalpipe` writes to `/tmp/.osdpN`, where `N` counts the stages of the instance, and a command
substitution of `osd_evalbackcmd_inproc` writes to `/tmp/.osdbqN`, where `N` is its depth in the
instance.  A shell that is spawned from a stage or a substitution is a fresh instance: it starts
to count from nothing while its parent's file stays linked, over the same file system.

`clobbers_iff` says when a shell takes a name that a suspended one is using, and `ownFiles` that
otherwise every stage finds its own file under its name.
-/

namespace OsMoap.Shell

open OsMoap.Lib OsMoap.Pack

/-! ## Names -/

inductive Kind where
  | pipe
  | subst
  deriving DecidableEq

def Kind.stem : Kind → Text
  | .pipe => "/tmp/.osdp".toList
  | .subst => "/tmp/.osdbq".toList

/-- `"/tmp/.osdp%u"` and `"/tmp/.osdbq%d"`. -/
def capturePath (kind : Kind) (n : ℕ) : Text := kind.stem ++ decimal n

/-- The two kinds of names differ in their tenth character. -/
theorem capturePath_inj {k k' : Kind} {n n' : ℕ} :
    capturePath k n = capturePath k' n' ↔ k = k' ∧ n = n' := by
  have hlen : ∀ k : Kind, 9 < k.stem.length := by
    intro k
    cases k with
    | pipe => decide
    | subst => decide
  have htenth : ∀ k k' : Kind, k.stem[9]? = k'.stem[9]? → k = k' := by
    intro k k'
    cases k with
    | pipe =>
      cases k' with
      | pipe => exact fun _ => rfl
      | subst => exact fun h => absurd h (by decide)
    | subst =>
      cases k' with
      | pipe => exact fun h => absurd h (by decide)
      | subst => exact fun _ => rfl
  constructor
  · intro h
    have hchar : (k.stem ++ decimal n)[9]? = (k'.stem ++ decimal n')[9]? := by
      rw [← capturePath, h, capturePath]
    rw [List.getElem?_append_left (hlen k), List.getElem?_append_left (hlen k')] at hchar
    obtain rfl := htenth k k' hchar
    exact ⟨rfl, decimal_injective (List.append_cancel_left h)⟩
  · rintro ⟨rfl, rfl⟩
    rfl

/-! ## Instances over one file system -/

/-- A capture file in use: its name and the file that was opened under it. -/
structure Capture where
  kind : Kind
  number : ℕ
  ino : ℕ
  deriving DecidableEq

def Capture.path (c : Capture) : Text := capturePath c.kind c.number

/-- The statics `osd_pipeseq` and `depth` of an instance, and its capture files in use, the
innermost first. -/
structure Instance where
  pipeseq : ℕ
  depth : ℕ
  captures : List Capture
  deriving DecidableEq

/-- A fresh instance. -/
def freshInstance : Instance := ⟨0, 0, []⟩

/-- The running shell, the shells suspended below it, and the names in the file system. -/
structure Shells where
  running : Instance
  suspended : List Instance
  names : Text → Option ℕ
  nextIno : ℕ

/-- One shell, over any file system. -/
def firstShell (names : Text → Option ℕ) (nextIno : ℕ) : Shells :=
  ⟨freshInstance, [], names, nextIno⟩

inductive ShellStep where
  /-- A stage that is not the last one begins. -/
  | openPipe
  /-- It has returned: the file is opened for the next stage and unlinked. -/
  | closePipe
  /-- It is left by a `longjmp`. -/
  | abandonPipe
  | openSubst
  | closeSubst
  | spawn
  | exit
  deriving DecidableEq

/-- The number of the next pipeline file: `++osd_pipeseq` of an `unsigned`. -/
def Instance.nextPipe (i : Instance) : ℕ := (i.pipeseq + 1) % 2 ^ 32

/-- `open` with `O_CREAT | O_TRUNC`: the file of that name, or a new one. -/
def Shells.create (s : Shells) (kind : Kind) (n : ℕ) : Capture × Shells :=
  let ino := (s.names (capturePath kind n)).getD s.nextIno
  (⟨kind, n, ino⟩, { s with
    names := Function.update s.names (capturePath kind n) (some ino)
    nextIno := s.nextIno + 1 })

def Shells.unlink (s : Shells) (path : Text) : Shells :=
  { s with names := Function.update s.names path none }

def shellStep (s : Shells) : ShellStep → Option Shells
  | .openPipe =>
    let (c, s') := s.create .pipe s.running.nextPipe
    some { s' with running := ⟨s.running.nextPipe, s.running.depth, c :: s.running.captures⟩ }
  | .closePipe =>
    match s.running.captures with
    | c :: rest =>
      if c.kind = .pipe then
        some { s.unlink c.path with running := { s.running with captures := rest } }
      else none
    | [] => none
  | .abandonPipe =>
    match s.running.captures with
    | c :: rest =>
      if c.kind = .pipe then some { s with running := { s.running with captures := rest } } else none
    | [] => none
  | .openSubst =>
    let (c, s') := s.create .subst s.running.depth
    some { s' with
      running := ⟨s.running.pipeseq, s.running.depth + 1, c :: s.running.captures⟩ }
  | .closeSubst =>
    match s.running.captures with
    | c :: rest =>
      if c.kind = .subst then
        some { s.unlink c.path with
          running := { s.running with depth := s.running.depth - 1, captures := rest } }
      else none
    | [] => none
  | .spawn => some { s with running := freshInstance, suspended := s.running :: s.suspended }
  | .exit =>
    match s.suspended with
    | [] => none
    | i :: rest => some { s with running := i, suspended := rest }

/-- The name and number a step chooses. -/
def chosen (s : Shells) : ShellStep → Option (Kind × ℕ)
  | .openPipe => some (.pipe, s.running.nextPipe)
  | .openSubst => some (.subst, s.running.depth)
  | _ => none

/-- **Clobbering**: the step takes the path of a capture file that a suspended shell is using. -/
def Clobbers (s : Shells) (a : ShellStep) : Prop :=
  ∃ k n, chosen s a = some (k, n) ∧
    ∃ i ∈ s.suspended, ∃ c ∈ i.captures, c.path = capturePath k n

/-- A shell begins its `k`-th stage while no suspended shell is in its own `k`-th, and begins a
substitution while none is in one. -/
def KeepsApart (s : Shells) (a : ShellStep) : Prop :=
  (a = .openPipe → ∀ i ∈ s.suspended, ∀ c ∈ i.captures, c.kind = .pipe →
    c.number ≠ s.running.nextPipe) ∧
  (a = .openSubst → ∀ i ∈ s.suspended, i.depth = 0)

/-! ## When names are taken -/

/-- The depths of the substitutions an instance is in. -/
def Instance.substs (i : Instance) : List ℕ :=
  (i.captures.filter fun c => c.kind = .subst).map Capture.number

/-- Every instance counts its substitutions, and above one that is in a substitution there is
none that is in one too. -/
structure ShellInv (s : Shells) : Prop where
  counted : ∀ i ∈ s.running :: s.suspended, i.substs = (List.range i.depth).reverse
  nested : (s.running :: s.suspended).Pairwise fun i j => 0 < j.depth → i.depth = 0

theorem mem_substs {i : Instance} {n : ℕ} :
    n ∈ i.substs ↔ ∃ c ∈ i.captures, c.kind = .subst ∧ c.number = n := by
  simp [Instance.substs, and_assoc]

/-- A name is in use by a suspended shell exactly if that shell has a capture of that kind and
number. -/
theorem clobbers_iff_mem {s : Shells} {a : ShellStep} {k : Kind} {n : ℕ}
    (h : chosen s a = some (k, n)) :
    Clobbers s a ↔ ∃ i ∈ s.suspended, ∃ c ∈ i.captures, c.kind = k ∧ c.number = n := by
  simp only [Clobbers, h, Option.some.injEq, Prod.mk.injEq, Capture.path]
  constructor
  · rintro ⟨k', n', ⟨rfl, rfl⟩, i, hi, c, hc, hpath⟩
    exact ⟨i, hi, c, hc, capturePath_inj.mp hpath⟩
  · rintro ⟨i, hi, c, hc, hkn⟩
    exact ⟨k, n, ⟨rfl, rfl⟩, i, hi, c, hc, capturePath_inj.mpr hkn⟩

/-- **One step**: no name is taken exactly when the shells keep apart. -/
theorem not_clobbers_iff {s : Shells} {a : ShellStep} (h : ShellInv s) :
    ¬ Clobbers s a ↔ KeepsApart s a := by
  cases a with
  | openPipe =>
    rw [clobbers_iff_mem rfl, KeepsApart]
    constructor
    · intro hno
      exact ⟨fun _ i hi c hc hk hn => hno ⟨i, hi, c, hc, hk, hn⟩, by simp⟩
    · rintro ⟨hpipe, -⟩ ⟨i, hi, c, hc, hk, hn⟩
      exact hpipe rfl i hi c hc hk hn
  | openSubst =>
    rw [clobbers_iff_mem rfl, KeepsApart]
    have hmem : ∀ i ∈ s.suspended,
        (∃ c ∈ i.captures, c.kind = .subst ∧ c.number = s.running.depth) ↔ 0 < i.depth := by
      intro i hi
      rw [← mem_substs, h.counted i (List.mem_cons_of_mem _ hi), List.mem_reverse, List.mem_range]
      constructor
      · intro hlt
        omega
      · intro hpos
        -- the running shell is in no substitution then
        have hzero := (List.pairwise_cons.mp h.nested).1 i hi hpos
        omega
    constructor
    · intro hno
      refine ⟨by simp, fun _ i hi => ?_⟩
      by_contra hne
      exact hno ⟨i, hi, (hmem i hi).mpr (Nat.pos_of_ne_zero hne)⟩
    · rintro ⟨-, hsubst⟩ ⟨i, hi, hc⟩
      have hpos := (hmem i hi).mp hc
      rw [hsubst rfl i hi] at hpos
      omega
  | closePipe => simp [Clobbers, KeepsApart, chosen]
  | abandonPipe => simp [Clobbers, KeepsApart, chosen]
  | closeSubst => simp [Clobbers, KeepsApart, chosen]
  | spawn => simp [Clobbers, KeepsApart, chosen]
  | exit => simp [Clobbers, KeepsApart, chosen]

/-- Replacing the running instance. -/
theorem ShellInv.run {s s' : Shells} (h : ShellInv s) (hsusp : s'.suspended = s.suspended)
    (hcount : s'.running.substs = (List.range s'.running.depth).reverse)
    (hnest : ∀ j ∈ s.suspended, 0 < j.depth → s'.running.depth = 0) : ShellInv s' where
  counted := by
    rw [hsusp]
    intro i hi
    rcases List.mem_cons.mp hi with rfl | hi
    · exact hcount
    · exact h.counted i (List.mem_cons_of_mem _ hi)
  nested := by
    rw [hsusp]
    exact List.pairwise_cons.mpr ⟨hnest, (List.pairwise_cons.mp h.nested).2⟩

theorem closePipe_eq_some {s s' : Shells} (h : shellStep s .closePipe = some s') :
    ∃ c rest, s.running.captures = c :: rest ∧ c.kind = .pipe ∧
      s' = { s.unlink c.path with running := { s.running with captures := rest } } := by
  rw [shellStep] at h
  split at h
  · rename_i c rest hcap
    split_ifs at h with hk
    exact ⟨c, rest, hcap, hk, (Option.some.inj h).symm⟩
  · simp at h

theorem abandonPipe_eq_some {s s' : Shells} (h : shellStep s .abandonPipe = some s') :
    ∃ c rest, s.running.captures = c :: rest ∧ c.kind = .pipe ∧
      s' = { s with running := { s.running with captures := rest } } := by
  rw [shellStep] at h
  split at h
  · rename_i c rest hcap
    split_ifs at h with hk
    exact ⟨c, rest, hcap, hk, (Option.some.inj h).symm⟩
  · simp at h

theorem closeSubst_eq_some {s s' : Shells} (h : shellStep s .closeSubst = some s') :
    ∃ c rest, s.running.captures = c :: rest ∧ c.kind = .subst ∧
      s' = { s.unlink c.path with
        running := { s.running with depth := s.running.depth - 1, captures := rest } } := by
  rw [shellStep] at h
  split at h
  · rename_i c rest hcap
    split_ifs at h with hk
    exact ⟨c, rest, hcap, hk, (Option.some.inj h).symm⟩
  · simp at h

theorem exit_eq_some {s s' : Shells} (h : shellStep s .exit = some s') :
    ∃ i rest, s.suspended = i :: rest ∧ s' = { s with running := i, suspended := rest } := by
  rw [shellStep] at h
  split at h
  · simp at h
  · rename_i i rest hrest
    exact ⟨i, rest, hrest, (Option.some.inj h).symm⟩

theorem substs_pop_pipe {i : Instance} {c : Capture} {rest : List Capture}
    (hcap : i.captures = c :: rest) (hk : c.kind = .pipe) :
    i.substs = Instance.substs { i with captures := rest } := by
  simp [Instance.substs, hcap, hk]

theorem substs_cons_pipe {c : Capture} (h : c.kind = .pipe) (rest : List Capture) (p d : ℕ) :
    Instance.substs ⟨p, d, c :: rest⟩ = Instance.substs ⟨p, d, rest⟩ := by
  simp [Instance.substs, h]

theorem substs_cons_subst {c : Capture} (h : c.kind = .subst) (rest : List Capture) (p d d' : ℕ) :
    Instance.substs ⟨p, d, c :: rest⟩ = c.number :: Instance.substs ⟨p, d', rest⟩ := by
  simp [Instance.substs, h]

theorem shellInv_step {s s' : Shells} {a : ShellStep} (h : ShellInv s) (ha : KeepsApart s a)
    (hstep : shellStep s a = some s') : ShellInv s' := by
  have hrun := h.counted s.running List.mem_cons_self
  have hnest := (List.pairwise_cons.mp h.nested).1
  cases a with
  | openPipe =>
    obtain rfl := Option.some.inj hstep
    refine h.run rfl ?_ hnest
    rw [substs_cons_pipe rfl]
    exact hrun
  | closePipe =>
    obtain ⟨c, rest, hcap, hk, rfl⟩ := closePipe_eq_some hstep
    refine h.run rfl ?_ hnest
    rw [← substs_pop_pipe hcap hk]
    exact hrun
  | abandonPipe =>
    obtain ⟨c, rest, hcap, hk, rfl⟩ := abandonPipe_eq_some hstep
    refine h.run rfl ?_ hnest
    rw [← substs_pop_pipe hcap hk]
    exact hrun
  | openSubst =>
    -- a substitution takes the number `depth`, one above all open ones
    obtain rfl := Option.some.inj hstep
    refine h.run rfl ?_ fun j hj hpos => ?_
    · rw [substs_cons_subst rfl _ _ _ s.running.depth]
      show s.running.depth :: s.running.substs = _
      rw [hrun, List.range_succ, List.reverse_append, List.reverse_singleton, List.singleton_append]
    · rw [ha.2 rfl j hj] at hpos
      exact absurd hpos (lt_irrefl 0)
  | closeSubst =>
    obtain ⟨c, rest, hcap, hk, rfl⟩ := closeSubst_eq_some hstep
    have hcons : s.running.substs = c.number :: Instance.substs
        { s.running with depth := s.running.depth - 1, captures := rest } := by
      simp [Instance.substs, hcap, hk]
    rw [hcons] at hrun
    refine h.run rfl ?_ fun j hj hpos => ?_
    · obtain ⟨d, hd⟩ : ∃ d, s.running.depth = d + 1 := by
        cases hd : s.running.depth with
        | zero => simp [hd] at hrun
        | succ d => exact ⟨d, rfl⟩
      rw [hd, List.range_succ, List.reverse_append, List.reverse_singleton,
        List.singleton_append] at hrun
      have htail := (List.cons.inj hrun).2
      simp only [hd, Nat.add_sub_cancel] at htail ⊢
      exact htail
    · have hzero := hnest j hj hpos
      simp [hzero]
  -- a new instance counts from zero
  | spawn =>
    obtain rfl := Option.some.inj hstep
    constructor
    · intro i hi
      rcases List.mem_cons.mp hi with rfl | hi
      · rfl
      · exact h.counted i hi
    · exact List.pairwise_cons.mpr ⟨fun _ _ _ => rfl, h.nested⟩
  | exit =>
    obtain ⟨i, rest, hrest, rfl⟩ := exit_eq_some hstep
    constructor
    · intro j hj
      exact h.counted j (by rw [hrest]; exact List.mem_cons_of_mem _ hj)
    · have hn := (List.pairwise_cons.mp h.nested).2
      rwa [hrest] at hn

/-! ## Finding one's own file -/

/-- All capture files in use. -/
def Shells.captures (s : Shells) : List Capture :=
  s.running.captures ++ s.suspended.flatMap Instance.captures

/-- Every name in use leads to the file that was opened under it. -/
def OwnFiles (s : Shells) : Prop := ∀ c ∈ s.captures, s.names c.path = some c.ino

/-- The number of the next stage is not that of a stage the shell is still in: fewer than
`2 ^ 32` stages begin while one runs. -/
def NoWrap (s : Shells) (a : ShellStep) : Prop :=
  a = .openPipe → ∀ c ∈ s.running.captures, c.kind = .pipe → c.number ≠ s.running.nextPipe

/-- The names in use are different ones and lead to their files. -/
structure OwnInv (s : Shells) : Prop extends ShellInv s where
  own : OwnFiles s
  distinct : (s.captures.map Capture.path).Nodup

/-- A new name. -/
theorem path_not_mem {s : Shells} {a : ShellStep} {k : Kind} {n : ℕ} (h : ShellInv s)
    (ha : KeepsApart s a) (hwrap : NoWrap s a) (hchosen : chosen s a = some (k, n)) :
    capturePath k n ∉ s.captures.map Capture.path := by
  intro hmem
  obtain ⟨c, hc, hpath⟩ := List.mem_map.mp hmem
  obtain ⟨hkind, hnum⟩ := capturePath_inj.mp hpath
  rcases List.mem_append.mp hc with hown | hother
  · cases a with
    | openPipe =>
      obtain ⟨rfl, rfl⟩ := Prod.mk.inj (Option.some.inj hchosen)
      exact hwrap rfl c hown hkind hnum
    | openSubst =>
      obtain ⟨rfl, rfl⟩ := Prod.mk.inj (Option.some.inj hchosen)
      have hin : s.running.depth ∈ s.running.substs := mem_substs.mpr ⟨c, hown, hkind, hnum⟩
      rw [h.counted _ List.mem_cons_self, List.mem_reverse, List.mem_range] at hin
      exact absurd hin (lt_irrefl _)
    | closePipe => simp [chosen] at hchosen
    | abandonPipe => simp [chosen] at hchosen
    | closeSubst => simp [chosen] at hchosen
    | spawn => simp [chosen] at hchosen
    | exit => simp [chosen] at hchosen
  · obtain ⟨i, hi, hci⟩ := List.mem_flatMap.mp hother
    apply (not_clobbers_iff h).mpr ha
    exact (clobbers_iff_mem hchosen).mpr ⟨i, hi, c, hci, hkind, hnum⟩

/-- Opening under a new name. -/
theorem own_create {s : Shells} {k : Kind} {n : ℕ} (h : OwnInv s)
    (hnew : capturePath k n ∉ s.captures.map Capture.path) :
    (∀ c ∈ (s.create k n).1 :: s.captures, (s.create k n).2.names c.path = some c.ino) ∧
      (((s.create k n).1 :: s.captures).map Capture.path).Nodup := by
  constructor
  · intro c hc
    rcases List.mem_cons.mp hc with rfl | hc
    · exact Function.update_self ..
    · have hne : c.path ≠ capturePath k n := by
        intro heq
        exact hnew (heq ▸ List.mem_map_of_mem hc)
      exact (Function.update_of_ne hne ..).trans (h.own c hc)
  · rw [List.map_cons]
    exact List.nodup_cons.mpr ⟨hnew, h.distinct⟩

/-- Unlinking the innermost name. -/
theorem own_unlink {s : Shells} {c : Capture} {rest : List Capture} (h : OwnInv s)
    (hcap : s.captures = c :: rest) :
    (∀ c' ∈ rest, (s.unlink c.path).names c'.path = some c'.ino) ∧
      (rest.map Capture.path).Nodup := by
  have hnodup := h.distinct
  rw [hcap, List.map_cons, List.nodup_cons] at hnodup
  refine ⟨fun c' hc' => ?_, hnodup.2⟩
  have hne : c'.path ≠ c.path := by
    intro heq
    exact hnodup.1 (heq ▸ List.mem_map_of_mem hc')
  exact (Function.update_of_ne hne ..).trans (h.own c' (by rw [hcap]; exact List.mem_cons_of_mem _ hc'))

theorem ownInv_step {s s' : Shells} {a : ShellStep} (h : OwnInv s)
    (ha : KeepsApart s a ∧ NoWrap s a) (hstep : shellStep s a = some s') : OwnInv s' := by
  have hinv := shellInv_step h.toShellInv ha.1 hstep
  cases a with
  | openPipe =>
    have hnew := path_not_mem h.toShellInv ha.1 ha.2 rfl
    obtain ⟨hown, hdist⟩ := own_create h hnew
    obtain rfl := Option.some.inj hstep
    exact { toShellInv := hinv, own := hown, distinct := hdist }
  | openSubst =>
    have hnew := path_not_mem h.toShellInv ha.1 ha.2 rfl
    obtain ⟨hown, hdist⟩ := own_create h hnew
    obtain rfl := Option.some.inj hstep
    exact { toShellInv := hinv, own := hown, distinct := hdist }
  | closePipe =>
    obtain ⟨c, rest, hcap, -, rfl⟩ := closePipe_eq_some hstep
    have hall : s.captures = c :: (rest ++ s.suspended.flatMap Instance.captures) := by
      rw [Shells.captures, hcap, List.cons_append]
    obtain ⟨hown, hdist⟩ := own_unlink h hall
    exact { toShellInv := hinv, own := hown, distinct := hdist }
  -- the file of the pipe stays behind, but no one reads it any more
  | abandonPipe =>
    obtain ⟨c, rest, hcap, -, rfl⟩ := abandonPipe_eq_some hstep
    have hall : s.captures = c :: (rest ++ s.suspended.flatMap Instance.captures) := by
      rw [Shells.captures, hcap, List.cons_append]
    have hdist := h.distinct
    rw [hall, List.map_cons, List.nodup_cons] at hdist
    refine { toShellInv := hinv, own := fun c' hc' => ?_, distinct := hdist.2 }
    exact h.own c' (by rw [hall]; exact List.mem_cons_of_mem _ hc')
  | closeSubst =>
    obtain ⟨c, rest, hcap, -, rfl⟩ := closeSubst_eq_some hstep
    have hall : s.captures = c :: (rest ++ s.suspended.flatMap Instance.captures) := by
      rw [Shells.captures, hcap, List.cons_append]
    obtain ⟨hown, hdist⟩ := own_unlink h hall
    exact { toShellInv := hinv, own := hown, distinct := hdist }
  | spawn =>
    obtain rfl := Option.some.inj hstep
    exact { toShellInv := hinv, own := h.own, distinct := h.distinct }
  | exit =>
    obtain ⟨i, rest, hrest, rfl⟩ := exit_eq_some hstep
    have hall : s.captures = s.running.captures ++ (i.captures ++ rest.flatMap Instance.captures) := by
      rw [Shells.captures, hrest, List.flatMap_cons]
    have hdist := h.distinct
    rw [hall, List.map_append] at hdist
    refine { toShellInv := hinv, own := fun c' hc' => ?_, distinct := (List.nodup_append.mp hdist).2.1 }
    exact h.own c' (by rw [hall]; exact List.mem_append_right _ hc')

/-- **Capture files over runs**: no shell takes the name of a capture file in use by a suspended
one exactly when a `k`-th stage never begins inside another shell's `k`-th, nor a substitution
inside another shell's; and then, unless a counter wraps, every name in use leads to the file
opened under it. -/
theorem clobbers_iff (names : Text → Option ℕ) (nextIno : ℕ) (run : List ShellStep) :
    ((∀ t a, Takes shellStep (firstShell names nextIno) run t a → ¬ Clobbers t a) ↔
      ∀ t a, Takes shellStep (firstShell names nextIno) run t a → KeepsApart t a) ∧
    ((∀ t a, Takes shellStep (firstShell names nextIno) run t a → KeepsApart t a ∧ NoWrap t a) →
      ∀ t, Visits shellStep (firstShell names nextIno) run t → OwnFiles t) := by
  have hinv : ShellInv (firstShell names nextIno) := by
    constructor
    · intro i hi
      obtain rfl := List.mem_singleton.mp hi
      rfl
    · exact List.pairwise_singleton _ _
  have hown : OwnInv (firstShell names nextIno) :=
    { toShellInv := hinv, own := fun c hc => absurd hc (List.not_mem_nil), distinct := List.nodup_nil }
  constructor
  · have hiff : ∀ s a, ShellInv s → (shellStep s a).isSome → (¬ Clobbers s a ↔ KeepsApart s a) :=
      fun s a hs _ => not_clobbers_iff hs
    have hkeep : ∀ s a s', ShellInv s → KeepsApart s a → shellStep s a = some s' → ShellInv s' :=
      fun s a s' hs ha hstep => shellInv_step hs ha hstep
    exact takes_iff_of_inv hiff hkeep hinv run
  · intro hrun t ht
    exact (inv_of_visits (fun s a s' hs ha hstep => ownInv_step hs ha hstep) hown hrun ht).own

/-- `./script | cat`, where the script has a pipeline of its own: the second shell takes the
name of the first one's stage, and removes it. -/
theorem clobbers_script :
    let run : List ShellStep := [.openPipe, .spawn, .openPipe, .closePipe, .exit]
    ¬ (∀ t a, Takes shellStep (firstShell (fun _ => none) 0) run t a → ¬ Clobbers t a) ∧
      ∃ t, Visits shellStep (firstShell (fun _ => none) 0) run t ∧ ¬ OwnFiles t := by
  intro run
  refine ⟨fun h => ?_, ?_⟩
  · refine h _ .openPipe ⟨[.openPipe, .spawn], ⟨[.closePipe, .exit], rfl⟩, rfl, rfl⟩ ?_
    refine ⟨.pipe, 1, rfl, _, List.mem_singleton_self _, _, List.mem_singleton_self _, ?_⟩
    rfl
  · have hend : (runSteps shellStep (firstShell (fun _ => none) 0) run).map
        (fun t => (t.captures, t.names (capturePath .pipe 1))) = some ([⟨.pipe, 1, 0⟩], none) := by
      decide +kernel
    obtain ⟨t, hrun, ht⟩ := Option.map_eq_some_iff.mp hend
    obtain ⟨hcap, hname⟩ := Prod.mk.inj ht
    refine ⟨t, ⟨run, List.prefix_rfl, hrun⟩, fun hown => ?_⟩
    have hown' := hown ⟨.pipe, 1, 0⟩ (by rw [hcap]; exact List.mem_singleton_self _)
    exact Option.some_ne_none _ (hown'.symm.trans hname)

end OsMoap.Shell
