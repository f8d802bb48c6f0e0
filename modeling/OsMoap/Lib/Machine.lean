import Mathlib.Data.List.Infix

/-!
# Runs of a Machine

A machine is a partial step function.  A run is the list of the steps taken; `Visits` are the
states it goes through and `Takes` are the steps it takes, each with the state it is taken in.

`inv_of_visits` is the rule for invariants: what every allowed step keeps holds in every state
that a run of allowed steps visits.
-/

namespace OsMoap.Lib

variable {σ α : Type*} {step : σ → α → Option σ}

/-- Take the steps in turn; `none` where one of them cannot be taken. -/
def runSteps (step : σ → α → Option σ) : σ → List α → Option σ
  | s, [] => some s
  | s, a :: as => (step s a).bind fun t => runSteps step t as

/-- The state is one of those the run goes through. -/
def Visits (step : σ → α → Option σ) (s : σ) (as : List α) (t : σ) : Prop :=
  ∃ pre, pre <+: as ∧ runSteps step s pre = some t

/-- The run takes the step in this state. -/
def Takes (step : σ → α → Option σ) (s : σ) (as : List α) (t : σ) (a : α) : Prop :=
  ∃ pre, pre ++ [a] <+: as ∧ runSteps step s pre = some t ∧ (step t a).isSome

theorem visits_nil {s t : σ} : Visits step s [] t ↔ t = s := by
  constructor
  · rintro ⟨pre, hpre, hrun⟩
    rw [List.prefix_nil.mp hpre] at hrun
    exact (Option.some.inj hrun).symm
  · rintro rfl
    exact ⟨[], List.nil_prefix, rfl⟩

theorem visits_cons {s t : σ} {a : α} {as : List α} :
    Visits step s (a :: as) t ↔ t = s ∨ ∃ s', step s a = some s' ∧ Visits step s' as t := by
  constructor
  · rintro ⟨pre, hpre, hrun⟩
    cases pre with
    | nil => exact Or.inl (Option.some.inj hrun).symm
    | cons b pre =>
      obtain ⟨rfl, hrest⟩ := List.cons_prefix_cons.mp hpre
      obtain ⟨s', hs', hrun⟩ := Option.bind_eq_some_iff.mp hrun
      exact Or.inr ⟨s', hs', pre, hrest, hrun⟩
  · rintro (rfl | ⟨s', hs', pre, hpre, hrun⟩)
    · exact ⟨[], List.nil_prefix, rfl⟩
    · refine ⟨a :: pre, List.cons_prefix_cons.mpr ⟨rfl, hpre⟩, ?_⟩
      rw [runSteps, hs', Option.bind_some, hrun]

theorem visits_self (s : σ) (as : List α) : Visits step s as s := ⟨[], List.nil_prefix, rfl⟩

theorem takes_nil {s t : σ} {a : α} : ¬ Takes step s [] t a := by
  rintro ⟨pre, hpre, -⟩
  have hlen := hpre.length_le
  simp at hlen

theorem takes_cons {s t : σ} {a b : α} {as : List α} :
    Takes step s (a :: as) t b ↔
      (t = s ∧ b = a ∧ (step s a).isSome) ∨ ∃ s', step s a = some s' ∧ Takes step s' as t b := by
  constructor
  · rintro ⟨pre, hpre, hrun, hstep⟩
    cases pre with
    | nil =>
      obtain ⟨rfl, -⟩ := List.cons_prefix_cons.mp hpre
      obtain rfl : s = t := Option.some.inj hrun
      exact Or.inl ⟨rfl, rfl, hstep⟩
    | cons c pre =>
      obtain ⟨rfl, hrest⟩ := List.cons_prefix_cons.mp hpre
      obtain ⟨s', hs', hrun⟩ := Option.bind_eq_some_iff.mp hrun
      exact Or.inr ⟨s', hs', pre, hrest, hrun, hstep⟩
  · rintro (⟨rfl, rfl, hstep⟩ | ⟨s', hs', pre, hpre, hrun, hstep⟩)
    · exact ⟨[], List.cons_prefix_cons.mpr ⟨rfl, List.nil_prefix⟩, rfl, hstep⟩
    · refine ⟨a :: pre, List.cons_prefix_cons.mpr ⟨rfl, hpre⟩, ?_, hstep⟩
      rw [runSteps, hs', Option.bind_some, hrun]

theorem mem_of_takes {s t : σ} {a : α} {as : List α} (h : Takes step s as t a) : a ∈ as := by
  obtain ⟨pre, hpre, -, -⟩ := h
  exact hpre.subset (List.mem_append_right pre (List.mem_singleton_self a))

/-- The state before a step is visited, and so is the one after it. -/
theorem visits_of_takes {s t t' : σ} {a : α} {as : List α} (h : Takes step s as t a)
    (hstep : step t a = some t') : Visits step s as t ∧ Visits step s as t' := by
  induction as generalizing s with
  | nil => exact absurd h takes_nil
  | cons b as ih =>
    rcases takes_cons.mp h with ⟨rfl, rfl, -⟩ | ⟨s', hs', htakes⟩
    · exact ⟨visits_self _ _, visits_cons.mpr (Or.inr ⟨t', hstep, visits_self _ _⟩)⟩
    · obtain ⟨hbefore, hafter⟩ := ih htakes
      exact ⟨visits_cons.mpr (Or.inr ⟨s', hs', hbefore⟩), visits_cons.mpr (Or.inr ⟨s', hs', hafter⟩)⟩

/-- **The rule for invariants**: what allowed steps keep holds in every state visited by a run
that takes allowed steps only. -/
theorem inv_of_visits {inv : σ → Prop} {allowed : σ → α → Prop}
    (hkeep : ∀ s a s', inv s → allowed s a → step s a = some s' → inv s') {s : σ} {as : List α}
    (hs : inv s) (hrun : ∀ t a, Takes step s as t a → allowed t a) {t : σ}
    (ht : Visits step s as t) : inv t := by
  induction as generalizing s with
  | nil =>
    rw [visits_nil.mp ht]
    exact hs
  | cons a as ih =>
    rcases visits_cons.mp ht with rfl | ⟨s', hs', ht⟩
    · exact hs
    · have hallowed : allowed s a := hrun s a (takes_cons.mpr (Or.inl ⟨rfl, rfl, by rw [hs']; rfl⟩))
      apply ih (hkeep s a s' hs hallowed hs') _ ht
      intro t' b htakes
      exact hrun t' b (takes_cons.mpr (Or.inr ⟨s', hs', htakes⟩))

/-- **Two readings of a step** that agree where an invariant holds, and of which the second keeps
the invariant, agree along all runs. -/
theorem takes_iff_of_inv {inv : σ → Prop} {p q : σ → α → Prop}
    (hiff : ∀ s a, inv s → (step s a).isSome → (p s a ↔ q s a))
    (hkeep : ∀ s a s', inv s → q s a → step s a = some s' → inv s') {s : σ} (hs : inv s)
    (as : List α) :
    (∀ t a, Takes step s as t a → p t a) ↔ ∀ t a, Takes step s as t a → q t a := by
  induction as generalizing s with
  | nil =>
    constructor
    · intro _ t a h
      exact absurd h takes_nil
    · intro _ t a h
      exact absurd h takes_nil
  | cons a as ih =>
    cases hstep : step s a with
    | none =>
      have hno : ∀ t b, ¬ Takes step s (a :: as) t b := by
        intro t b h
        rcases takes_cons.mp h with ⟨-, -, hsome⟩ | ⟨s', hs', -⟩
        · simp [hstep] at hsome
        · simp [hstep] at hs'
      exact ⟨fun _ t b h => absurd h (hno t b), fun _ t b h => absurd h (hno t b)⟩
    | some s' =>
      -- the first step and the rest, for `p` and `q` alike
      have hhere : ∀ r : σ → α → Prop, (∀ t b, Takes step s (a :: as) t b → r t b) ↔
          r s a ∧ ∀ t b, Takes step s' as t b → r t b := by
        intro r
        constructor
        · intro h
          exact ⟨h s a (takes_cons.mpr (Or.inl ⟨rfl, rfl, by rw [hstep]; rfl⟩)),
            fun t b ht => h t b (takes_cons.mpr (Or.inr ⟨s', hstep, ht⟩))⟩
        · rintro ⟨hfirst, hrest⟩ t b ht
          rcases takes_cons.mp ht with ⟨rfl, rfl, -⟩ | ⟨s'', hs'', ht⟩
          · exact hfirst
          · obtain rfl : s' = s'' := Option.some.inj (hstep.symm.trans hs'')
            exact hrest t b ht
      rw [hhere p, hhere q, hiff s a hs (by rw [hstep]; rfl)]
      apply and_congr_right
      intro hq
      exact ih (hkeep s a s' hs hq hstep)

end OsMoap.Lib
