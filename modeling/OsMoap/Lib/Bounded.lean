import Mathlib.Data.Nat.Notation
import Mathlib.Tactic.SplitIfs

/-!
# Writers Into a Bounded Buffer

A writer that checks each of its writes against the room there is, and fails at the first that does
not fit.  `Bounded size room f g` says that `f` is the checked version of `g`: what `g` writes never
shrinks, and `f` agrees with `g` where the result fits and fails elsewhere.

Since the size only grows, a run of checked writes succeeds exactly when the whole of what it writes
fits (`Bounded.bind`, `Bounded.foldlM`).
-/

namespace OsMoap.Lib

variable {σ α : Type*} {size : σ → ℕ} {room : ℕ}

structure Bounded (size : σ → ℕ) (room : ℕ) (f : σ → Option σ) (g : σ → σ) : Prop where
  grows : ∀ s, size s ≤ size (g s)
  eq : ∀ s, size s ≤ room → f s = if size (g s) ≤ room then some (g s) else none

namespace Bounded

theorem skip : Bounded size room some id where
  grows _ := Nat.le_refl _
  eq _ h := (if_pos h).symm

theorem bind {f f' : σ → Option σ} {g g' : σ → σ} (hf : Bounded size room f g)
    (hf' : Bounded size room f' g') :
    Bounded size room (fun s => (f s).bind f') fun s => g' (g s) where
  grows s := Nat.le_trans (hf.grows s) (hf'.grows (g s))
  eq s h := by
    rw [hf.eq s h]
    split_ifs with hfirst hall hall
    · rw [Option.bind_some, hf'.eq _ hfirst, if_pos hall]
    · rw [Option.bind_some, hf'.eq _ hfirst, if_neg hall]
    · exact absurd (Nat.le_trans (hf'.grows (g s)) hall) hfirst
    · rfl

theorem foldlM {f : σ → α → Option σ} {g : σ → α → σ} {l : List α}
    (h : ∀ a ∈ l, Bounded size room (f · a) (g · a)) :
    Bounded size room (fun s => l.foldlM f s) fun s => l.foldl g s := by
  induction l with
  | nil => exact skip
  | cons a l ih =>
    obtain ⟨ha, hl⟩ := List.forall_mem_cons.mp h
    simp only [List.foldlM_cons, List.foldl_cons]
    exact ha.bind (ih hl)

end Bounded

end OsMoap.Lib
