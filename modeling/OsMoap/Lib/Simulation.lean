import OsMoap.Lib.Program
import Mathlib.Tactic.SplitIfs

/-!
# One Program on Two States

The same program written over two kinds of state: run from related states, both runs return the same
or stop for the same reason, in related states.  It is enough to know this of the operations that the
programs are made of.
-/

namespace OsMoap.Lib.Program

universe u

variable {σ τ ε α β : Type u}

/-- What `m` does from one state, `m'` does from the other. -/
def SimulatesAt (R : σ → τ → Prop) (m : Program σ ε α) (m' : Program τ ε α) (s : σ) (t : τ) : Prop :=
  m.wp (fun a s' => ∃ t', m' t = (.ok a, t') ∧ R s' t')
    (fun e s' => ∃ t', m' t = (.error e, t') ∧ R s' t') s

def Simulates (R : σ → τ → Prop) (m : Program σ ε α) (m' : Program τ ε α) : Prop :=
  ∀ s t, R s t → SimulatesAt R m m' s t

variable {R : σ → τ → Prop}

/-- The results are equal and the states related. -/
theorem SimulatesAt.run {m : Program σ ε α} {m' : Program τ ε α} {s : σ} {t : τ}
    (h : SimulatesAt R m m' s t) : (m s).1 = (m' t).1 ∧ R (m s).2 (m' t).2 := by
  rw [SimulatesAt, wp] at h
  rcases hm : m s with ⟨e | a, s'⟩
  · rw [hm] at h
    obtain ⟨t', ht', hrel⟩ := h
    rw [ht']
    exact ⟨rfl, hrel⟩
  · rw [hm] at h
    obtain ⟨t', ht', hrel⟩ := h
    rw [ht']
    exact ⟨rfl, hrel⟩

theorem simulates_pure (a : α) :
    Simulates R (pure a : Program σ ε α) (pure a : Program τ ε α) :=
  fun _ t hst => ⟨t, rfl, hst⟩

theorem simulates_stop (e : ε) :
    Simulates R (stop e : Program σ ε α) (stop e : Program τ ε α) :=
  fun _ t hst => ⟨t, rfl, hst⟩

/-- **One after the other.** -/
theorem SimulatesAt.bind {m : Program σ ε α} {m' : Program τ ε α} {f : α → Program σ ε β}
    {f' : α → Program τ ε β} {s : σ} {t : τ} (hm : SimulatesAt R m m' s t)
    (hf : ∀ a, Simulates R (f a) (f' a)) : SimulatesAt R (m >>= f) (m' >>= f') s t := by
  rw [SimulatesAt, wp_bind]
  apply wp_mono hm
  · rintro a s₁ ⟨t₁, ht₁, hst₁⟩
    apply wp_mono (hf a s₁ t₁ hst₁)
    · rintro b s₂ ⟨t₂, ht₂, hst₂⟩
      refine ⟨t₂, ?_, hst₂⟩
      rw [bind_ok ht₁, ht₂]
    · rintro e s₂ ⟨t₂, ht₂, hst₂⟩
      refine ⟨t₂, ?_, hst₂⟩
      rw [bind_ok ht₁, ht₂]
  · rintro e s₁ ⟨t₁, ht₁, hst₁⟩
    refine ⟨t₁, ?_, hst₁⟩
    rw [bind_error ht₁]

theorem Simulates.bind {m : Program σ ε α} {m' : Program τ ε α} {f : α → Program σ ε β}
    {f' : α → Program τ ε β} (hm : Simulates R m m') (hf : ∀ a, Simulates R (f a) (f' a)) :
    Simulates R (m >>= f) (m' >>= f') :=
  fun s t hst => (hm s t hst).bind hf

theorem Simulates.ite {m n : Program σ ε α} {m' n' : Program τ ε α} {c : Prop} [Decidable c]
    (hm : Simulates R m m') (hn : Simulates R n n') :
    Simulates R (if c then m else n) (if c then m' else n') := by
  split_ifs
  · exact hm
  · exact hn

end OsMoap.Lib.Program
