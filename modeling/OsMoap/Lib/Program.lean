import Mathlib.Order.Defs.Unbundled

/-!
# Programs That May Stop

A program over a state returns a value or stops, and leaves a state either way: what has been
changed before a stop stays changed, as with a `longjmp`.

`wp` is the weakest precondition with one postcondition for each way to end, and the rules for it
follow the ways programs are put together.
-/

namespace OsMoap.Lib

universe u

/-- A program over states `σ` with results `α` that may stop with an `ε`. -/
def Program (σ ε α : Type u) := σ → Except ε α × σ

namespace Program

variable {σ ε α β : Type u}

instance : Monad (Program σ ε) where
  pure a := fun s => (.ok a, s)
  bind m f := fun s =>
    match m s with
    | (.ok a, s') => f a s'
    | (.error e, s') => (.error e, s')

/-- Read the state. -/
def read : Program σ ε σ := fun s => (.ok s, s)

def modify (f : σ → σ) : Program σ ε PUnit := fun s => (.ok ⟨⟩, f s)

def stop (e : ε) : Program σ ε α := fun s => (.error e, s)

theorem bind_ok {m : Program σ ε α} {s s' : σ} {a : α} (h : m s = (.ok a, s'))
    (f : α → Program σ ε β) : (m >>= f) s = f a s' := by
  have hbind : (m >>= f) s = match m s with
      | (.ok a, s') => f a s'
      | (.error e, s') => (.error e, s') := rfl
  rw [hbind, h]

theorem bind_error {m : Program σ ε α} {s s' : σ} {e : ε} (h : m s = (.error e, s'))
    (f : α → Program σ ε β) : (m >>= f) s = (.error e, s') := by
  have hbind : (m >>= f) s = match m s with
      | (.ok a, s') => f a s'
      | (.error e, s') => (.error e, s') := rfl
  rw [hbind, h]

theorem bind_of_fst_ok {m : Program σ ε α} {s : σ} {a : α} (h : (m s).1 = .ok a)
    (f : α → Program σ ε β) : (m >>= f) s = f a (m s).2 :=
  bind_ok (h ▸ rfl) f

/-- What leaves every state as it is may follow unseen. -/
theorem snd_bind (m : Program σ ε α) {f : α → Program σ ε β} (hf : ∀ a s, (f a s).2 = s) (s : σ) :
    ((m >>= f) s).2 = (m s).2 := by
  rcases hm : m s with ⟨e | a, s'⟩
  · rw [bind_error hm]
  · rw [bind_ok hm]
    exact hf a s'

theorem read_bind (f : σ → Program σ ε β) (s : σ) : (read >>= f) s = f s s := rfl

theorem modify_bind (g : σ → σ) (f : PUnit → Program σ ε β) (s : σ) :
    (modify g >>= f) s = f ⟨⟩ (g s) := rfl

/-- A loop of changes is a fold. -/
theorem forM_modify (g : α → σ → σ) (as : List α) (s : σ) :
    (as.forM fun a => (modify (g a) : Program σ ε PUnit)) s
      = (.ok ⟨⟩, as.foldl (fun s a => g a s) s) := by
  induction as generalizing s with
  | nil => rfl
  | cons a as ih =>
    rw [List.forM_eq_forM, List.forM_cons, modify_bind]
    exact ih (g a s)

/-- A sequence that returns has returned from its first part. -/
theorem bind_eq_ok {m : Program σ ε α} {f : α → Program σ ε β} {s s'' : σ} {b : β}
    (h : (m >>= f) s = (.ok b, s'')) : ∃ a s', m s = (.ok a, s') ∧ f a s' = (.ok b, s'') := by
  rcases hm : m s with ⟨e | a, s'⟩
  · rw [bind_error hm] at h
    cases h
  · rw [bind_ok hm] at h
    exact ⟨a, s', rfl, h⟩

/-- The program run from `s` ends in `Q` when it returns and in `E` when it stops. -/
def wp (m : Program σ ε α) (Q : α → σ → Prop) (E : ε → σ → Prop) (s : σ) : Prop :=
  match m s with
  | (.ok a, s') => Q a s'
  | (.error e, s') => E e s'

theorem wp_iff {m : Program σ ε α} {Q : α → σ → Prop} {E : ε → σ → Prop} {s : σ} :
    m.wp Q E s ↔ (∀ a s', m s = (.ok a, s') → Q a s') ∧ ∀ e s', m s = (.error e, s') → E e s' := by
  rcases hm : m s with ⟨a | a, s'⟩
  · simp only [wp, hm, Prod.mk.injEq, reduceCtorEq, false_and, false_implies, implies_true,
      true_and, Except.error.injEq]
    constructor
    · rintro h e t ⟨rfl, rfl⟩
      exact h
    · intro h
      exact h _ _ ⟨rfl, rfl⟩
  · simp only [wp, hm, Prod.mk.injEq, reduceCtorEq, false_and, false_implies, implies_true,
      and_true, Except.ok.injEq]
    constructor
    · rintro h e t ⟨rfl, rfl⟩
      exact h
    · intro h
      exact h _ _ ⟨rfl, rfl⟩

theorem wp_of_ok {m : Program σ ε α} {Q : α → σ → Prop} {E : ε → σ → Prop} {s s' : σ} {a : α}
    (h : m s = (.ok a, s')) : m.wp Q E s ↔ Q a s' := by
  rw [wp, h]

/-- To return with something is not to stop. -/
theorem wp_returns {m : Program σ ε α} {Q : α → σ → Prop} {s : σ} :
    (∃ a s', m s = (.ok a, s') ∧ Q a s') ↔ m.wp Q (fun _ _ => False) s := by
  rw [wp_iff]
  constructor
  · rintro ⟨a, s', hm, hQ⟩
    rw [hm]
    refine ⟨fun b t heq => ?_, fun e t heq => nomatch heq⟩
    cases heq
    exact hQ
  · rintro ⟨hok, herror⟩
    rcases hm : m s with ⟨e | a, s'⟩
    · exact (herror e s' hm).elim
    · exact ⟨a, s', rfl, hok a s' hm⟩

/-- The rule of consequence. -/
theorem wp_mono {m : Program σ ε α} {Q Q' : α → σ → Prop} {E E' : ε → σ → Prop} {s : σ}
    (h : m.wp Q E s) (hQ : ∀ a s', Q a s' → Q' a s') (hE : ∀ e s', E e s' → E' e s') :
    m.wp Q' E' s := by
  rw [wp_iff] at h ⊢
  exact ⟨fun a s' hm => hQ a s' (h.1 a s' hm), fun e s' hm => hE e s' (h.2 e s' hm)⟩

variable {Q : β → σ → Prop} {E : ε → σ → Prop} {s : σ}

@[simp]
theorem wp_pure {a : β} : (pure a : Program σ ε β).wp Q E s ↔ Q a s := Iff.rfl

@[simp]
theorem wp_bind {m : Program σ ε α} {f : α → Program σ ε β} :
    (m >>= f).wp Q E s ↔ m.wp (fun a => (f a).wp Q E) E s := by
  rcases hm : m s with ⟨e | a, s'⟩
  · rw [wp, bind_error hm, wp, hm]
  · rw [wp, bind_ok hm, wp, hm]
    rfl

@[simp]
theorem wp_read {Q : σ → σ → Prop} : (read : Program σ ε σ).wp Q E s ↔ Q s s := Iff.rfl

@[simp]
theorem wp_modify {f : σ → σ} {Q : PUnit → σ → Prop} :
    (modify f : Program σ ε PUnit).wp Q E s ↔ Q ⟨⟩ (f s) := Iff.rfl

@[simp]
theorem wp_stop {e : ε} : (stop e : Program σ ε β).wp Q E s ↔ E e s := Iff.rfl

/-! ## What programs keep -/

section Keeps

variable {C : ε → Prop} {R : σ → σ → Prop}

/-- The run from `s` ends in a state related to `s`, unless it stops in a way that does not count. -/
def KeepsAt (C : ε → Prop) (R : σ → σ → Prop) (m : Program σ ε α) (s : σ) : Prop :=
  m.wp (fun _ => R s) (fun e s' => C e → R s s') s

/-- Every run ends in a state related to the one it starts from. -/
def Keeps (C : ε → Prop) (R : σ → σ → Prop) (m : Program σ ε α) : Prop := ∀ s, m.KeepsAt C R s

theorem KeepsAt.of_ok {m : Program σ ε α} {a : α} {s' : σ} (h : m.KeepsAt C R s)
    (hm : m s = (.ok a, s')) : R s s' := (wp_iff.mp h).1 a s' hm

theorem KeepsAt.of_error {m : Program σ ε α} {e : ε} {s' : σ} (h : m.KeepsAt C R s)
    (hm : m s = (.error e, s')) (he : C e) : R s s' := (wp_iff.mp h).2 e s' hm he

/-- What comes before and what comes after. -/
theorem KeepsAt.bind [IsTrans σ R] {m : Program σ ε α} {f : α → Program σ ε β}
    (hm : m.KeepsAt C R s) (hf : ∀ a s', m s = (.ok a, s') → (f a).KeepsAt C R s') :
    (m >>= f).KeepsAt C R s := by
  rw [KeepsAt, wp_bind, wp_iff]
  constructor
  · intro a s' hok
    have hfirst := hm.of_ok hok
    apply wp_mono (hf a s' hok)
    · intro b s'' hrest
      exact Trans.trans hfirst hrest
    · intro e s'' hrest he
      exact Trans.trans hfirst (hrest he)
  · intro e s' herror he
    exact hm.of_error herror he

theorem Keeps.bind [IsTrans σ R] {m : Program σ ε α} {f : α → Program σ ε β} (hm : m.Keeps C R)
    (hf : ∀ a, (f a).Keeps C R) : (m >>= f).Keeps C R :=
  fun s => (hm s).bind fun a s' _ => hf a s'

/-- A program that looks at the state first. -/
theorem keeps_read_bind {f : σ → Program σ ε β} (h : ∀ s, (f s).KeepsAt C R s) :
    (read >>= f).Keeps C R := h

theorem keeps_pure [Std.Refl R] (b : β) : (pure b : Program σ ε β).Keeps C R :=
  fun s => Std.Refl.refl s

theorem keeps_read [Std.Refl R] : (read : Program σ ε σ).Keeps C R := fun s => Std.Refl.refl s

theorem keeps_modify {f : σ → σ} (h : ∀ s, R s (f s)) : (modify f : Program σ ε PUnit).Keeps C R := h

theorem keeps_stop [Std.Refl R] (e : ε) : (stop e : Program σ ε β).Keeps C R :=
  fun s _ => Std.Refl.refl s

theorem keeps_ite {p : Prop} [Decidable p] {m m' : Program σ ε β} (h : m.Keeps C R)
    (h' : m'.Keeps C R) : (if p then m else m').Keeps C R := by
  split
  · exact h
  · exact h'

end Keeps

end Program

end OsMoap.Lib
