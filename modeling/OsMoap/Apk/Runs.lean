import OsMoap.Apk.Effects

/-!
# `apk`: Invariants over Runs

A command is a loop of single operations: `do_add` or `do_del` on each argument, one line of
the world at a time in `upgrade` and `sync-world`.  Conditions on runs are given for the
single operations, in the state each is called in (`StepSafe`), and carried through the loops
(`EachSafe`), the commands (`CommandSafe`) and sequences of commands (`RunSafe`).

A run also leaves a history of what the user asked for and got: the names of the recording
`do_add` calls and of the `do_del` calls that returned 0, in order (`history`).

`runAll_inv` is the rule: a relation between the history so far and the state that safe
operations keep holds after every safe run.
-/

namespace OsMoap.Apk

open OsMoap.Lib
open OsMoap.Pack (Bytes)

/-! ## Loops -/

/-- A condition on each call of a loop, in the state it is made in. -/
def EachSafe {β : Type} (f : Bytes → State → Result β) (safe : Bytes → State → Prop) :
    List Bytes → State → Prop
  | [], _ => True
  | n :: ns, s => safe n s ∧ ((f n s).1.isSome → EachSafe f safe ns (f n s).2)

/-- The calls of a loop that returned, with their values. -/
def outcomes {β : Type} (f : Bytes → State → Result β) : List Bytes → State → List (Bytes × β)
  | [], _ => []
  | n :: ns, s =>
    match f n s with
    | (none, _) => []
    | (some b, s') => (n, b) :: outcomes f ns s'

/-- What one call adds to the outcomes. -/
def outcome {β : Type} (n : Bytes) (r : Option β) : List (Bytes × β) := (r.map fun b => (n, b)).toList

/-- **The rule for loops**: a relation between the outcomes so far and the state. -/
theorem each_inv {β : Type} {f : Bytes → State → Result β} {safe : Bytes → State → Prop}
    {inv : List (Bytes × β) → State → Prop} {ns : List Bytes} {s : State} {h : List (Bytes × β)}
    (hstep : ∀ n ∈ ns, ∀ h s, inv h s → safe n s → inv (h ++ outcome n (f n s).1) (f n s).2)
    (hsafe : EachSafe f safe ns s) (hs : inv h s) :
    inv (h ++ outcomes f ns s) (each f ns s).2 := by
  induction ns generalizing s h with
  | nil => simpa [outcomes, each] using hs
  | cons n ns ih =>
    obtain ⟨hn, hrest⟩ := hsafe
    have hmid := hstep n List.mem_cons_self h s hs hn
    rw [outcomes, each]
    rcases hf : f n s with ⟨_ | b, mid⟩
    · rw [hf] at hmid
      exact hmid
    · rw [hf] at hmid hrest
      have hend := ih (fun n' hn' => hstep n' (List.mem_cons_of_mem _ hn')) (hrest rfl) hmid
      simp only [outcome, Option.map_some, Option.toList_some, List.append_assoc,
        List.singleton_append] at hend
      rw [Result.andThen_some]
      rcases hg : each f ns mid with ⟨_ | bs, last⟩
      · rwa [hg] at hend
      · rwa [hg] at hend

/-! ## Commands -/

/-- Conditions on single operations: `do_add`, `do_del` and a line of `upgrade`, which also
has the index and the database text read before the loop. -/
structure StepSafe where
  add : Bool → Bytes → State → Prop
  del : Bytes → State → Prop
  upgrade : Bytes → Bytes → Bytes → State → Prop

/-- The state in which `sync-world` starts to install. -/
def syncStart (s : State) : State := { s with tree := unlinkPath s.tree dbPath }

theorem file_syncStart_db (s : State) : (syncStart s).tree.file dbRef.key = none := by
  rw [syncStart, ← readPath_eq_file fileRef_db (by decide), unlinkPath_eq fileRef_db, readPath,
    fileRef_db, Option.bind_some, FileTree.read_unlink_self]

/-- Every operation of a command meets its condition. -/
def CommandSafe (host : Host) (safe : StepSafe) (s : State) : Command → Prop
  | .add w names => EachSafe (doAdd host w) (safe.add w) names s
  | .del names => EachSafe (doDel host) safe.del names s
  | .upgrade => ∀ ix, host.index s.calls = .ok ix →
      EachSafe (upgradeLine host (cstr ix) (readFileOrEmpty s dbPath))
        (safe.upgrade (cstr ix) (readFileOrEmpty s dbPath))
        (tokens nl (readFileOrEmpty s worldPath)) { s with calls := s.calls + 1 }
  | .syncWorld => EachSafe (doAdd host false) (safe.add false)
      (tokens nl (readFileOrEmpty (syncStart s) worldPath)) (syncStart s)
  | _ => True

/-- The calls that returned 0, marked as additions or removals. -/
def successes (added : Bool) (calls : List (Bytes × ℕ)) : List (Bytes × Bool) :=
  (calls.filter fun c => c.2 = 0).map fun c => (c.1, added)

theorem successes_append (added : Bool) (as bs : List (Bytes × ℕ)) :
    successes added (as ++ bs) = successes added as ++ successes added bs := by
  simp [successes]

theorem successes_outcome (added : Bool) (n : Bytes) (r : Option ℕ) :
    successes added (outcome n r) = if r = some 0 then [(n, added)] else [] := by
  cases r with
  | none => rfl
  | some rc => by_cases h : rc = 0 <;> simp [successes, outcome, h]

/-- What a command adds to the history. -/
def asked (host : Host) (s : State) : Command → List (Bytes × Bool)
  | .add true names => successes true (outcomes (doAdd host true) names s)
  | .del names => successes false (outcomes (doDel host) names s)
  | _ => []

/-! ## Runs -/

/-- The state after a sequence of commands, each run whatever became of the one before. -/
def runAll (host : Host) (cmds : List Command) (s : State) : State :=
  cmds.foldl (fun s c => (runCommand host s c).2) s

/-- What was asked for along a sequence of commands. -/
def history (host : Host) : List Command → State → List (Bytes × Bool)
  | [], _ => []
  | c :: cs, s => asked host s c ++ history host cs (runCommand host s c).2

/-- Every command of a sequence is safe in the state it is run in. -/
def RunSafe (host : Host) (safe : StepSafe) : List Command → State → Prop
  | [], _ => True
  | c :: cs, s => CommandSafe host safe s c ∧ RunSafe host safe cs (runCommand host s c).2

section Invariant

variable {host : Host} {safe : StepSafe} {inv : List (Bytes × Bool) → State → Prop}

/-- What it takes for safe operations to keep a relation between the history and the file
tree.  A line of `upgrade` was read from the world of an earlier state `s₀` with the same
history. -/
structure Keeps (host : Host) (safe : StepSafe) (inv : List (Bytes × Bool) → State → Prop) :
    Prop where
  frame : ∀ h (s s' : State), s'.tree = s.tree → inv h s → inv h s'
  add : ∀ h n s, inv h s → safe.add true n s →
    inv (h ++ successes true (outcome n (doAdd host true n s).1)) (doAdd host true n s).2
  addOnly : ∀ h n s, inv h s → safe.add false n s → inv h (doAdd host false n s).2
  del : ∀ h n s, inv h s → safe.del n s →
    inv (h ++ successes false (outcome n (doDel host n s).1)) (doDel host n s).2
  upgrade : ∀ h ix db line s₀ s, inv h s₀ → line ∈ tokens nl (readFileOrEmpty s₀ worldPath) →
    inv h s → safe.upgrade ix db line s → inv h (upgradeLine host ix db line s).2
  sync : ∀ h s, inv h s → inv h (syncStart s)

theorem getIndex_ok {s : State} {ix : Bytes} (h : host.index s.calls = .ok ix) :
    getIndex host s = (some (cstr ix), { s with calls := s.calls + 1 }) := by
  rw [getIndex, h]

theorem getIndex_error {s : State} {e : Bytes} (h : host.index s.calls = .error e) :
    getIndex host s
      = die { s with calls := s.calls + 1 } (ascii "index unavailable: " ++ e) := by
  rw [getIndex, h]

/-- The names a loop takes from the world are lines of a C string. -/
theorem not_mem_of_mem_tokens {s : State} {path line : Bytes}
    (h : line ∈ tokens nl (readFileOrEmpty s path)) : nl ∉ line ∧ 0 ∉ line := by
  have hmem := (List.mem_filter.mp h).1
  refine ⟨not_mem_of_mem_lines nl hmem, fun hz => ?_⟩
  exact not_mem_cstr _ (subset_of_mem_lines nl hmem hz)

theorem runCommand_inv (hk : Keeps host safe inv) {h : List (Bytes × Bool)} {s : State}
    {c : Command} (hsafe : CommandSafe host safe s c) (hs : inv h s) :
    inv (h ++ asked host s c) (runCommand host s c).2 := by
  have hindex : inv h (getIndex host s).2 := by
    unfold getIndex
    cases host.index s.calls with
    | error e => exact hk.frame h s _ rfl hs
    | ok ix => exact hk.frame h s _ rfl hs
  have hend : ∀ {α β : Type} {h} {r : Result α} {f : α → State → Result β}, inv h r.2 →
      (∀ a s, (f a s).2.tree = s.tree) → inv h (r.andThen f).2 := fun hr hf =>
    hk.frame _ _ _ (andThen_tree hf) hr
  -- a loop whose calls are recorded, and one whose calls are not
  have hloop : ∀ {added : Bool} {f : Bytes → State → Result ℕ} {p : Bytes → State → Prop} {ns s},
      (∀ h n s, inv h s → p n s →
        inv (h ++ successes added (outcome n (f n s).1)) (f n s).2) →
      EachSafe f p ns s → inv h s → inv (h ++ successes added (outcomes f ns s)) (each f ns s).2 := by
    intro added f p ns s hstep hp hs
    have hnil : inv (h ++ successes added []) s := by simpa [successes] using hs
    have hall : ∀ n ∈ ns, ∀ l s', inv (h ++ successes added l) s' → p n s' →
        inv (h ++ successes added (l ++ outcome n (f n s').1)) (f n s').2 := by
      intro n _ l s' hs' hn
      rw [successes_append, ← List.append_assoc]
      exact hstep _ n s' hs' hn
    exact each_inv hall hp hnil
  have hsilent : ∀ {β : Type} {f : Bytes → State → Result β} {p : Bytes → State → Prop} {ns s},
      (∀ n ∈ ns, ∀ s, inv h s → p n s → inv h (f n s).2) → EachSafe f p ns s → inv h s →
      inv h (each f ns s).2 := by
    intro β f p ns s hstep hp hs
    have hall : ∀ n ∈ ns, ∀ (l : List (Bytes × β)) s', (fun _ => inv h) l s' → p n s' →
        (fun _ => inv h) (l ++ outcome n (f n s').1) (f n s').2 := fun n hn _ s' => hstep n hn s'
    exact each_inv (h := []) hall hp hs
  cases c with
  | add w names =>
    cases w with
    | false =>
      rw [show asked host s (.add false names) = [] from rfl, List.append_nil]
      exact hend (hsilent (fun n _ s => hk.addOnly h n s) hsafe hs) fun _ _ => rfl
    | true => exact hend (hloop hk.add hsafe hs) fun _ _ => rfl
  | del names => exact hend (hloop hk.del hsafe hs) fun _ _ => rfl
  | upgrade =>
    rw [show asked host s .upgrade = [] from rfl, List.append_nil, runCommand, upgrade]
    cases hix : host.index s.calls with
    | error e =>
      rw [getIndex_error hix] at hindex ⊢
      exact hindex
    | ok ix =>
      rw [getIndex_ok hix] at hindex ⊢
      rw [Result.andThen_some]
      exact hend (hsilent (fun n hn s' hs' => hk.upgrade h _ _ n s s' hs hn hs') (hsafe ix hix)
        hindex) fun _ _ => rfl
  | syncWorld =>
    rw [show asked host s .syncWorld = [] from rfl, List.append_nil]
    exact hend (hsilent (fun n _ s => hk.addOnly h n s) hsafe (hk.sync h s hs)) fun _ _ => rfl
  | update =>
    rw [show asked host s .update = [] from rfl, List.append_nil]
    exact hend hindex fun _ _ => rfl
  | list filter =>
    rw [show asked host s (.list filter) = [] from rfl, List.append_nil]
    exact hend hindex fun _ _ => rfl
  | info name =>
    rw [show asked host s (.info name) = [] from rfl, List.append_nil]
    refine hend hindex fun ix s => ?_
    split <;> rfl
  | usage =>
    rw [show asked host s .usage = [] from rfl, List.append_nil]
    exact hs

/-- **The rule for runs**: what safe operations keep holds after every safe run. -/
theorem runAll_inv (hk : Keeps host safe inv) {cmds : List Command} {h : List (Bytes × Bool)}
    {s : State} (hsafe : RunSafe host safe cmds s) (hs : inv h s) :
    inv (h ++ history host cmds s) (runAll host cmds s) := by
  induction cmds generalizing h s with
  | nil => simpa [history, runAll] using hs
  | cons c cs ih =>
    rw [history, ← List.append_assoc]
    exact ih hsafe.2 (runCommand_inv hk hsafe.1 hs)

end Invariant

end OsMoap.Apk
