import Mathlib.Data.List.Basic
import Mathlib.Order.Basic

/-!
# Selection by a Left Fold

A left fold that keeps one holder and replaces it by each newcomer that beats it, with a
comparison that may fail.  Nothing is assumed of the comparison: no symmetry, no
transitivity.  `holder_eq_iff` says exactly when a given element comes out, once
`split_at_mem` has found its place in the list.
-/

namespace OsMoap.Lib

variable {α : Type*} (beats : α → α → Option Bool)

/-- One newcomer against the holder. -/
def challenge (holder : Option α) (x : α) : Option (Option α) :=
  match holder with
  | none => some (some x)
  | some c => (beats x c).map fun b => if b then some x else some c

/-- The holder after all newcomers, or `none` when a comparison fails. -/
def holderAfter (holder : Option α) (xs : List α) : Option (Option α) :=
  xs.foldlM (challenge beats) holder

@[simp]
theorem holderAfter_nil (holder : Option α) : holderAfter beats holder [] = some holder := rfl

theorem holderAfter_cons (holder : Option α) (x : α) (xs : List α) :
    holderAfter beats holder (x :: xs)
      = (challenge beats holder x).bind fun h => holderAfter beats h xs := by
  simp [holderAfter, List.foldlM_cons, Option.bind_eq_bind]

theorem holderAfter_append (holder : Option α) (xs ys : List α) :
    holderAfter beats holder (xs ++ ys)
      = (holderAfter beats holder xs).bind fun h => holderAfter beats h ys := by
  simp [holderAfter, List.foldlM_append, Option.bind_eq_bind]

/-- The holder is the first holder or one of the newcomers. -/
theorem mem_of_holderAfter {holder : Option α} {xs : List α} {c : α}
    (h : holderAfter beats holder xs = some (some c)) : holder = some c ∨ c ∈ xs := by
  induction xs generalizing holder with
  | nil =>
    left
    simpa using h
  | cons x xs ih =>
    rw [holderAfter_cons, Option.bind_eq_some_iff] at h
    obtain ⟨holder', hstep, hrest⟩ := h
    rcases ih hrest with rfl | hmem
    · cases holder with
      | none =>
        simp only [challenge, Option.some.injEq] at hstep
        exact Or.inr (List.mem_cons.mpr (Or.inl hstep.symm))
      | some d =>
        simp only [challenge, Option.map_eq_some_iff] at hstep
        obtain ⟨b, -, hb⟩ := hstep
        cases b
        · exact Or.inl (by simpa using hb)
        · exact Or.inr (List.mem_cons.mpr (Or.inl (by simpa using hb.symm)))
    · exact Or.inr (List.mem_cons_of_mem _ hmem)

/-- An element keeps its place against newcomers exactly when none of them beats it. -/
theorem holderAfter_self_iff {x : α} {ys : List α} (hx : x ∉ ys) :
    holderAfter beats (some x) ys = some (some x) ↔ ∀ y ∈ ys, beats y x = some false := by
  induction ys with
  | nil => simp
  | cons y ys ih =>
    have hxy : x ≠ y := fun h => hx (List.mem_cons.mpr (Or.inl h))
    have hys : x ∉ ys := fun h => hx (List.mem_cons_of_mem _ h)
    rw [holderAfter_cons, List.forall_mem_cons]
    rcases hb : beats y x with _ | b
    · simp [challenge, hb]
    · cases b
      · simp [challenge, hb, ih hys]
      · -- a newcomer that wins cannot hand the place back
        simp only [challenge, hb, Option.map_some, if_true, Option.bind_some]
        constructor
        · intro h
          rcases mem_of_holderAfter beats h with heq | hmem
          · exact absurd (Option.some.inj heq).symm hxy
          · exact absurd hmem hys
        · rintro ⟨h, -⟩
          simp at h

/-- **Who comes out**: an element `x` that occurs once comes out of the fold exactly when it
beats the holder the earlier elements leave and no later element beats it. -/
theorem holder_eq_iff {x : α} {xs ys : List α} (hxs : x ∉ xs) (hys : x ∉ ys) :
    holderAfter beats none (xs ++ x :: ys) = some (some x) ↔
      (∃ h, holderAfter beats none xs = some h ∧ ∀ c, h = some c → beats x c = some true) ∧
      ∀ y ∈ ys, beats y x = some false := by
  rw [holderAfter_append]
  rcases hpre : holderAfter beats none xs with _ | holder
  · simp
  · rw [Option.bind_some, holderAfter_cons]
    cases holder with
    | none => simp [challenge, holderAfter_self_iff beats hys]
    -- `x` meets the holder of its time, and is challenged by all that follow
    | some c =>
      have hc : x ≠ c := by
        rintro rfl
        rcases mem_of_holderAfter beats hpre with h | h
        · simp at h
        · exact hxs h
      rcases hb : beats x c with _ | b
      · simp [challenge, hb]
      · cases b
        · simp only [challenge, hb, Option.map_some, Option.bind_some]
          constructor
          · intro h
            rcases mem_of_holderAfter beats h with heq | hmem
            · exact absurd (by simpa using heq) hc.symm
            · exact absurd hmem hys
          · rintro ⟨⟨h, hh, hbeat⟩, -⟩
            have := hbeat c (Option.some.inj hh).symm
            rw [hb] at this
            simp at this
        · simp [challenge, hb, holderAfter_self_iff beats hys]

/-- **A favourite wins in every order**: where some elements win against all others and lose
to none of them, one of them comes out. -/
theorem holderAfter_favourite {fav : α → Prop} {all : List α}
    (htotal : ∀ x ∈ all, ∀ y ∈ all, ∃ b, beats x y = some b)
    (hwin : ∀ x ∈ all, ∀ y ∈ all, fav x → ¬ fav y → beats x y = some true)
    (hkeep : ∀ x ∈ all, ∀ y ∈ all, fav x → ¬ fav y → beats y x = some false)
    {holder : Option α} {ys : List α} (hys : ∀ y ∈ ys, y ∈ all)
    (hholder : ∀ c, holder = some c → c ∈ all)
    (hfav : (∃ c, holder = some c ∧ fav c) ∨ ∃ y ∈ ys, fav y) :
    ∃ c ∈ all, fav c ∧ holderAfter beats holder ys = some (some c) := by
  induction ys generalizing holder with
  | nil =>
    rcases hfav with ⟨c, rfl, hc⟩ | ⟨y, hy, -⟩
    · exact ⟨c, hholder c rfl, hc, rfl⟩
    · simp at hy
  | cons y ys ih =>
    have hy : y ∈ all := hys y List.mem_cons_self
    have hrest : ∀ z ∈ ys, z ∈ all := fun z hz => hys z (List.mem_cons_of_mem _ hz)
    rw [holderAfter_cons]
    -- what is left to show once the newcomer or the holder has the place
    have hnext : ∀ d, d ∈ all → (fav d ∨ ∃ z ∈ ys, fav z) →
        ∃ c ∈ all, fav c ∧ holderAfter beats (some d) ys = some (some c) := by
      intro d hd hfd
      refine ih hrest (fun c hc => Option.some.inj hc ▸ hd) ?_
      rcases hfd with hfd | hz
      · exact Or.inl ⟨d, rfl, hfd⟩
      · exact Or.inr hz
    cases holder with
    | none =>
      refine hnext y hy ?_
      rcases hfav with ⟨c, hc, -⟩ | ⟨z, hz, hfz⟩
      · simp at hc
      · rcases List.mem_cons.mp hz with rfl | hz
        · exact Or.inl hfz
        · exact Or.inr ⟨z, hz, hfz⟩
    | some d =>
      have hd : d ∈ all := hholder d rfl
      obtain ⟨b, hb⟩ := htotal y hy d hd
      have hcase : fav d ∨ fav y ∨ ∃ z ∈ ys, fav z := by
        rcases hfav with ⟨c, hc, hfc⟩ | ⟨z, hz, hfz⟩
        · exact Or.inl (Option.some.inj hc ▸ hfc)
        · rcases List.mem_cons.mp hz with rfl | hz
          · exact Or.inr (Or.inl hfz)
          · exact Or.inr (Or.inr ⟨z, hz, hfz⟩)
      cases b with
      | true =>
        have hwon : fav d → fav y := by
          intro hfd
          by_contra hfy
          rw [hkeep d hd y hy hfd hfy] at hb
          simp at hb
        simp only [challenge, hb, Option.map_some, if_true, Option.bind_some]
        exact hnext y hy (hcase.elim (fun h => Or.inl (hwon h)) id)
      | false =>
        have hlost : fav y → fav d := by
          intro hfy
          by_contra hfd
          rw [hwin y hy d hd hfy hfd] at hb
          simp at hb
        simp only [challenge, hb, Option.map_some, Option.bind_some]
        refine hnext d hd ?_
        rcases hcase with h | h | h
        · exact Or.inl h
        · exact Or.inl (hlost h)
        · exact Or.inr h

/-- A list sorted strictly by a key splits at each of its members into the elements of
smaller key, the member, and the elements of larger key. -/
theorem split_at_mem {κ : Type*} [Preorder κ] [DecidableLT κ] (key : α → κ) {l : List α} {b : α}
    (hl : l.Pairwise fun a c => key a < key c) (hb : b ∈ l) :
    l = l.filter (fun a => key a < key b) ++ b :: l.filter (fun a => key b < key a) := by
  induction l with
  | nil => simp at hb
  | cons a l ih =>
    obtain ⟨ha, hl'⟩ := List.pairwise_cons.mp hl
    rcases List.mem_cons.mp hb with rfl | hmem
    · -- the member comes first: everything else is larger
      have hsmall : l.filter (fun a => key a < key b) = [] :=
        List.filter_eq_nil_iff.mpr fun c hc => by simpa using lt_asymm (ha c hc)
      have hlarge : l.filter (fun a => key b < key a) = l :=
        List.filter_eq_self.mpr fun c hc => by simpa using ha c hc
      simp [hsmall, hlarge]
    · have hab : key a < key b := ha b hmem
      rw [List.filter_cons_of_pos (by simpa using hab),
        List.filter_cons_of_neg (by simpa using lt_asymm hab), List.cons_append, ← ih hl' hmem]

end OsMoap.Lib
