import Mathlib.Data.List.Nodup
import Mathlib.Data.List.Perm.Lattice
import Mathlib.Logic.Function.Basic
import Mathlib.Tactic.SplitIfs

/-!
# Values Moved Aside and Put Back

A map from places to values, some of which may be empty.  The places of a user are written over
freely; before that, what such a place holds is copied to a free place that is not the user's, and
noted in a list of slots.  `original` reads off what a place held before, and `Held` says that
nothing of it is lost: slots undone one after the other give the first map back.
-/

namespace OsMoap.Lib

variable {κ α : Type*} [DecidableEq κ]

/-- A place of the user and where its value is kept; `none` if it was empty. -/
structure Saved (κ : Type*) where
  place : κ
  copy : Option κ
  deriving DecidableEq

/-- One slot of the search for what a place held. -/
def Saved.over (f : κ → Option α) (n : κ) (v : Option α) (q : Saved κ) : Option α :=
  if q.place = n then q.copy.bind f else v

/-- What a place held before it was saved: of several slots for it the last one is the oldest. -/
def original (f : κ → Option α) (slots : List (Saved κ)) (n : κ) : Option α :=
  slots.foldl (Saved.over f n) (f n)

@[simp]
theorem original_nil (f : κ → Option α) (n : κ) : original f [] n = f n := rfl

/-- With a slot for a place, what the place holds now does not matter. -/
theorem foldl_over_of_mem {f : κ → Option α} {slots : List (Saved κ)} {n : κ}
    (h : n ∈ slots.map Saved.place) (v w : Option α) :
    slots.foldl (Saved.over f n) v = slots.foldl (Saved.over f n) w := by
  induction slots generalizing v w with
  | nil => cases h
  | cons q slots ih =>
    rw [List.foldl_cons, List.foldl_cons]
    by_cases hq : q.place = n
    · rw [Saved.over, Saved.over, if_pos hq, if_pos hq]
    · rw [Saved.over, Saved.over, if_neg hq, if_neg hq]
      apply ih
      rcases List.mem_cons.mp h with heq | hmem
      · exact absurd heq.symm hq
      · exact hmem

/-- Without one, the place is as it was. -/
theorem foldl_over_of_notMem {f : κ → Option α} {slots : List (Saved κ)} {n : κ}
    (h : n ∉ slots.map Saved.place) (v : Option α) : slots.foldl (Saved.over f n) v = v := by
  induction slots generalizing v with
  | nil => rfl
  | cons q slots ih =>
    rw [List.map_cons, List.mem_cons, not_or] at h
    rw [List.foldl_cons, Saved.over, if_neg fun heq => h.1 heq.symm]
    exact ih h.2 v

theorem original_of_notMem {f : κ → Option α} {slots : List (Saved κ)} {n : κ}
    (h : n ∉ slots.map Saved.place) : original f slots n = f n := foldl_over_of_notMem h (f n)

/-- Only the place itself and the copies are looked at. -/
theorem foldl_over_congr {f g : κ → Option α} {slots : List (Saved κ)} (n : κ) (v : Option α)
    (h : ∀ c ∈ slots.filterMap Saved.copy, f c = g c) :
    slots.foldl (Saved.over f n) v = slots.foldl (Saved.over g n) v := by
  induction slots generalizing v with
  | nil => rfl
  | cons q slots ih =>
    have hrest : ∀ c ∈ slots.filterMap Saved.copy, f c = g c := by
      intro c hc
      apply h c
      rw [List.filterMap_cons]
      cases q.copy with
      | none => exact hc
      | some c' => exact List.mem_cons_of_mem c' hc
    have hhead : Saved.over f n v q = Saved.over g n v q := by
      rw [Saved.over, Saved.over]
      cases hcopy : q.copy with
      | none => rfl
      | some c =>
        have hc : f c = g c := by
          apply h c
          rw [List.filterMap_cons, hcopy]
          exact List.mem_cons_self
        rw [Option.bind_some, Option.bind_some, hc]
    rw [List.foldl_cons, List.foldl_cons, hhead]
    exact ih _ hrest

/-- The places that are in use besides the user's: the copies, and what else has been put there. -/
def inUse (slots : List (Saved κ)) (extra : List κ) : List κ :=
  slots.filterMap Saved.copy ++ extra

/-- `f` holds all of `base`: in the places of the user behind the slots, and elsewhere as it is. -/
structure Held (user : κ → Prop) (base f : κ → Option α) (slots : List (Saved κ))
    (extra : List κ) : Prop where
  places : ∀ q ∈ slots, user q.place
  nodup : (inUse slots extra).Nodup
  taken : ∀ c ∈ inUse slots extra, ¬ user c ∧ base c = none ∧ f c ≠ none
  others : ∀ n, ¬ user n → n ∉ inUse slots extra → f n = base n
  below : ∀ n, user n → original f slots n = base n

namespace Held

variable {user : κ → Prop} {base f g : κ → Option α} {slots : List (Saved κ)} {extra : List κ}

theorem refl (f : κ → Option α) : Held user f f [] [] where
  places _ h := absurd h List.not_mem_nil
  nodup := List.nodup_nil
  taken _ h := absurd h List.not_mem_nil
  others _ _ _ := rfl
  below _ _ := rfl

/-- With nothing saved and nothing added the maps agree. -/
theorem eq_of_nil (h : Held user base f [] []) : f = base := by
  funext n
  by_cases hn : user n
  · exact h.below n hn
  · exact h.others n hn List.not_mem_nil

/-- A copy or an added place is not one of the user's. -/
theorem ne_of_user (h : Held user base f slots extra) {n c : κ} (hn : user n)
    (hc : c ∈ inUse slots extra) : c ≠ n := by
  rintro rfl
  exact (h.taken c hc).1 hn

/-- A place that is empty is not in use. -/
theorem notMem_of_none (h : Held user base f slots extra) {c : κ} (hc : f c = none) :
    c ∉ inUse slots extra := fun hmem => (h.taken c hmem).2.2 hc

/-- A place of the user that is not saved holds what it held. -/
theorem get_of_notMem (h : Held user base f slots extra) {n : κ} (hn : user n)
    (hmem : n ∉ slots.map Saved.place) : f n = base n := by
  rw [← h.below n hn, original_of_notMem hmem]

/-! ## One layer over another -/

theorem trans {slots' : List (Saved κ)} {extra' : List κ} (h : Held user base f slots extra)
    (h' : Held user f g slots' extra') :
    Held user base g (slots' ++ slots) (extra' ++ extra) := by
  have hperm : (inUse (slots' ++ slots) (extra' ++ extra)).Perm
      (inUse slots' extra' ++ inUse slots extra) := by
    rw [inUse, inUse, inUse, List.filterMap_append, List.append_assoc, List.append_assoc]
    exact (List.perm_append_comm_assoc _ _ _).append_left _
  have hmem : ∀ c, c ∈ inUse (slots' ++ slots) (extra' ++ extra) ↔
      c ∈ inUse slots' extra' ∨ c ∈ inUse slots extra := fun c =>
    (hperm.mem_iff).trans List.mem_append
  -- what the outer layer uses is open, and so free for nobody inside
  have houter : ∀ c ∈ inUse slots extra, c ∉ inUse slots' extra' := by
    intro c hc hc'
    exact (h.taken c hc).2.2 (h'.taken c hc').2.1
  have hkept : ∀ c ∈ inUse slots extra, g c = f c := fun c hc =>
    h'.others c (h.taken c hc).1 (houter c hc)
  constructor
  · intro q hq
    rcases List.mem_append.mp hq with hq | hq
    · exact h'.places q hq
    · exact h.places q hq
  · rw [hperm.nodup_iff, List.nodup_append]
    refine ⟨h'.nodup, h.nodup, fun c hc c' hc' heq => ?_⟩
    exact houter c' hc' (heq ▸ hc)
  · intro c hc
    rcases (hmem c).mp hc with hc | hc
    · obtain ⟨huser, hbase, hopen⟩ := h'.taken c hc
      refine ⟨huser, ?_, hopen⟩
      rw [← h.others c huser fun hmem => houter c hmem hc]
      exact hbase
    · obtain ⟨huser, hbase, hopen⟩ := h.taken c hc
      exact ⟨huser, hbase, hkept c hc ▸ hopen⟩
  · intro n hn hnmem
    rw [hmem, not_or] at hnmem
    rw [h'.others n hn hnmem.1, h.others n hn hnmem.2]
  · intro n hn
    -- a slot of the outer layer is older than any of the inner one
    have hcopies : ∀ c ∈ slots.filterMap Saved.copy, g c = f c := fun c hc =>
      hkept c (List.mem_append_left extra hc)
    rw [original, List.foldl_append, ← h.below n hn, original]
    rw [foldl_over_congr n _ hcopies]
    by_cases houtermem : n ∈ slots.map Saved.place
    · exact foldl_over_of_mem houtermem _ _
    · rw [foldl_over_of_notMem houtermem, foldl_over_of_notMem houtermem]
      exact h'.below n hn

/-! ## Saving -/

theorem original_append (f : κ → Option α) (slots : List (Saved κ)) (q : Saved κ) (n : κ) :
    original f (slots ++ [q]) n = if q.place = n then q.copy.bind f else original f slots n := by
  rw [original, List.foldl_append]
  rfl

/-- A value is copied to a free place. -/
theorem save (h : Held user base f slots extra) {n c : κ} (hn : user n)
    (hnew : n ∉ slots.map Saved.place) (hopen : f n ≠ none) (hc : ¬ user c) (hfree : f c = none) :
    Held user base (Function.update f c (f n)) (slots ++ [⟨n, some c⟩]) extra := by
  have hnotMem := h.notMem_of_none hfree
  have hperm : (inUse (slots ++ [⟨n, some c⟩]) extra).Perm (c :: inUse slots extra) := by
    rw [inUse, inUse, List.filterMap_append, List.append_assoc]
    exact List.perm_middle
  have hmem : ∀ m, m ∈ inUse (slots ++ [⟨n, some c⟩]) extra ↔ m = c ∨ m ∈ inUse slots extra :=
    fun m => hperm.mem_iff.trans List.mem_cons
  constructor
  · intro q hq
    rcases List.mem_append.mp hq with hq | hq
    · exact h.places q hq
    · rw [List.mem_singleton] at hq
      exact hq ▸ hn
  · rw [hperm.nodup_iff]
    exact List.nodup_cons.mpr ⟨hnotMem, h.nodup⟩
  · intro m hm
    rcases (hmem m).mp hm with rfl | hm
    · refine ⟨hc, ?_, ?_⟩
      · rw [← h.others m hc hnotMem]
        exact hfree
      · rwa [Function.update_self]
    · obtain ⟨huser, hbase, hm'⟩ := h.taken m hm
      refine ⟨huser, hbase, ?_⟩
      have hmc : m ≠ c := fun heq => hnotMem (heq ▸ hm)
      rwa [Function.update_of_ne hmc]
  · intro m hm hmnotMem
    rw [hmem, not_or] at hmnotMem
    rw [Function.update_of_ne hmnotMem.1]
    exact h.others m hm hmnotMem.2
  · intro m hm
    have hmc : m ≠ c := by
      rintro rfl
      exact hc hm
    rw [original_append]
    dsimp only
    split_ifs with heq
    · -- the slot is the first for its place, whose value was still there
      rw [Option.bind_some, Function.update_self, ← heq]
      exact h.get_of_notMem hn hnew
    · rw [← h.below m hm, original, original, Function.update_of_ne hmc]
      apply foldl_over_congr
      intro c' hc'
      rw [Function.update_of_ne]
      rintro rfl
      exact hnotMem (List.mem_append_left extra hc')

/-- That a place was empty is noted. -/
theorem saveEmpty (h : Held user base f slots extra) {n : κ} (hn : user n)
    (hnew : n ∉ slots.map Saved.place) (hempty : f n = none) :
    Held user base f (slots ++ [⟨n, none⟩]) extra := by
  have hinUse : inUse (slots ++ [⟨n, none⟩]) extra = inUse slots extra := by
    rw [inUse, inUse, List.filterMap_append]
    exact congrArg (· ++ extra) (List.append_nil _)
  constructor
  · intro q hq
    rcases List.mem_append.mp hq with hq | hq
    · exact h.places q hq
    · rw [List.mem_singleton] at hq
      exact hq ▸ hn
  · rw [hinUse]
    exact h.nodup
  · rw [hinUse]
    exact h.taken
  · rw [hinUse]
    exact h.others
  · intro m hm
    rw [original_append]
    dsimp only
    split_ifs with heq
    · rw [← heq, ← h.get_of_notMem hn hnew, hempty]
      rfl
    · exact h.below m hm

/-- A saved place may be written over. -/
theorem overwrite (h : Held user base f slots extra) {n : κ} (hn : user n)
    (hsaved : n ∈ slots.map Saved.place) (v : Option α) :
    Held user base (Function.update f n v) slots extra := by
  have hkept : ∀ m, m ≠ n → Function.update f n v m = f m := fun m hm => Function.update_of_ne hm _ _
  constructor
  · exact h.places
  · exact h.nodup
  · intro c hc
    rw [hkept c (h.ne_of_user hn hc)]
    exact h.taken c hc
  · intro m hm hmem
    rw [hkept m fun heq => hm (heq ▸ hn)]
    exact h.others m hm hmem
  · intro m hm
    rw [← h.below m hm, original, original]
    have hcopies : ∀ c ∈ slots.filterMap Saved.copy, Function.update f n v c = f c := fun c hc =>
      hkept c (h.ne_of_user hn (List.mem_append_left extra hc))
    rw [foldl_over_congr m _ hcopies]
    by_cases heq : m = n
    · exact foldl_over_of_mem (heq ▸ hsaved) _ _
    · rw [hkept m heq]

/-! ## Undoing -/

/-- The value goes back, and its copy goes. -/
theorem restore {n c : κ} (h : Held user base f (⟨n, some c⟩ :: slots) extra) :
    Held user base (Function.update (Function.update f n (f c)) c none) slots extra := by
  have hmem : ∀ m, m ∈ inUse (⟨n, some c⟩ :: slots) extra ↔ m = c ∨ m ∈ inUse slots extra :=
    fun m => List.mem_cons
  have hnodup : (c :: inUse slots extra).Nodup := h.nodup
  obtain ⟨hnotMem, hrest⟩ := List.nodup_cons.mp hnodup
  obtain ⟨hc, hbase, -⟩ := h.taken c ((hmem c).mpr (Or.inl rfl))
  have hn : user n := h.places ⟨n, some c⟩ List.mem_cons_self
  have hkept : ∀ m, m ≠ c → m ≠ n → Function.update (Function.update f n (f c)) c none m = f m :=
    fun m hmc hmn => by rw [Function.update_of_ne hmc, Function.update_of_ne hmn]
  have hne : ∀ m ∈ inUse slots extra, m ≠ c := by
    rintro m hm rfl
    exact hnotMem hm
  have hcopies : ∀ m ∈ slots.filterMap Saved.copy,
      Function.update (Function.update f n (f c)) c none m = f m := by
    intro m hm
    have huse : m ∈ inUse slots extra := List.mem_append_left extra hm
    exact hkept m (hne m huse) (h.ne_of_user hn ((hmem m).mpr (Or.inr huse)))
  constructor
  · exact fun q hq => h.places q (List.mem_cons_of_mem _ hq)
  · exact hrest
  · intro m hm
    have hm' := (hmem m).mpr (Or.inr hm)
    rw [hkept m (hne m hm) (h.ne_of_user hn hm')]
    exact h.taken m hm'
  · intro m hm hmnotMem
    by_cases hmc : m = c
    · rw [hmc, Function.update_self, hbase]
    · rw [hkept m hmc fun heq => hm (heq ▸ hn)]
      exact h.others m hm fun hin => ((hmem m).mp hin).elim hmc hmnotMem
  · intro m hm
    have hmc : m ≠ c := fun heq => hc (heq ▸ hm)
    rw [← h.below m hm, original, original, foldl_over_congr m _ hcopies, List.foldl_cons]
    by_cases hlater : m ∈ slots.map Saved.place
    · exact foldl_over_of_mem hlater _ _
    · rw [foldl_over_of_notMem hlater, foldl_over_of_notMem hlater, Saved.over]
      dsimp only
      rw [Function.update_of_ne hmc]
      split_ifs with heq
      · rw [heq, Function.update_self]
        rfl
      · rw [Function.update_of_ne fun hmn => heq hmn.symm]

/-- A place that was empty is emptied. -/
theorem clear {n : κ} (h : Held user base f (⟨n, none⟩ :: slots) extra) :
    Held user base (Function.update f n none) slots extra := by
  have hn : user n := h.places ⟨n, none⟩ List.mem_cons_self
  have hkept : ∀ m, m ≠ n → Function.update f n none m = f m := fun m hm =>
    Function.update_of_ne hm _ _
  have hcopies : ∀ m ∈ slots.filterMap Saved.copy, Function.update f n none m = f m := fun m hm =>
    hkept m (h.ne_of_user hn (List.mem_append_left extra hm))
  constructor
  · exact fun q hq => h.places q (List.mem_cons_of_mem _ hq)
  · exact h.nodup
  · intro m hm
    rw [hkept m (h.ne_of_user hn hm)]
    exact h.taken m hm
  · intro m hm hmem
    rw [hkept m fun heq => hm (heq ▸ hn)]
    exact h.others m hm hmem
  · intro m hm
    rw [← h.below m hm, original, original, foldl_over_congr m _ hcopies, List.foldl_cons]
    by_cases hlater : m ∈ slots.map Saved.place
    · exact foldl_over_of_mem hlater _ _
    · rw [foldl_over_of_notMem hlater, foldl_over_of_notMem hlater, Saved.over]
      dsimp only
      split_ifs with heq
      · rw [heq, Function.update_self]
        rfl
      · exact hkept m fun hmn => heq hmn.symm

/-! ## Added places -/

/-- A free place is filled. -/
theorem fill (h : Held user base f slots extra) {c : κ} (hc : ¬ user c) (hfree : f c = none)
    {v : Option α} (hv : v ≠ none) : Held user base (Function.update f c v) slots (c :: extra) := by
  have hnotMem := h.notMem_of_none hfree
  have hperm : (inUse slots (c :: extra)).Perm (c :: inUse slots extra) := List.perm_middle
  have hmem : ∀ m, m ∈ inUse slots (c :: extra) ↔ m = c ∨ m ∈ inUse slots extra :=
    fun m => hperm.mem_iff.trans List.mem_cons
  have hkept : ∀ m, m ≠ c → Function.update f c v m = f m := fun m hm => Function.update_of_ne hm _ _
  have hne : ∀ m ∈ inUse slots extra, m ≠ c := by
    rintro m hm rfl
    exact hnotMem hm
  constructor
  · exact h.places
  · rw [hperm.nodup_iff]
    exact List.nodup_cons.mpr ⟨hnotMem, h.nodup⟩
  · intro m hm
    rcases (hmem m).mp hm with rfl | hm
    · rw [Function.update_self, ← h.others m hc hnotMem]
      exact ⟨hc, hfree, hv⟩
    · rw [hkept m (hne m hm)]
      exact h.taken m hm
  · intro m hm hmnotMem
    rw [hmem, not_or] at hmnotMem
    rw [hkept m hmnotMem.1]
    exact h.others m hm hmnotMem.2
  · intro m hm
    rw [← h.below m hm, original, original, hkept m fun heq => hc (heq ▸ hm)]
    apply foldl_over_congr
    intro c' hc'
    exact hkept c' (hne c' (List.mem_append_left extra hc'))

/-- An added place is emptied again. -/
theorem drop {c : κ} (h : Held user base f slots (c :: extra)) :
    Held user base (Function.update f c none) slots extra := by
  have hperm : (inUse slots (c :: extra)).Perm (c :: inUse slots extra) := List.perm_middle
  have hmem : ∀ m, m ∈ inUse slots (c :: extra) ↔ m = c ∨ m ∈ inUse slots extra :=
    fun m => hperm.mem_iff.trans List.mem_cons
  obtain ⟨hnotMem, hrest⟩ := List.nodup_cons.mp (hperm.nodup_iff.mp h.nodup)
  obtain ⟨hc, hbase, -⟩ := h.taken c ((hmem c).mpr (Or.inl rfl))
  have hkept : ∀ m, m ≠ c → Function.update f c none m = f m := fun m hm =>
    Function.update_of_ne hm _ _
  have hne : ∀ m ∈ inUse slots extra, m ≠ c := by
    rintro m hm rfl
    exact hnotMem hm
  constructor
  · exact h.places
  · exact hrest
  · intro m hm
    rw [hkept m (hne m hm)]
    exact h.taken m ((hmem m).mpr (Or.inr hm))
  · intro m hm hmnotMem
    by_cases hmc : m = c
    · rw [hmc, Function.update_self, hbase]
    · rw [hkept m hmc]
      exact h.others m hm fun hin => ((hmem m).mp hin).elim hmc hmnotMem
  · intro m hm
    rw [← h.below m hm, original, original, hkept m fun heq => hc (heq ▸ hm)]
    apply foldl_over_congr
    intro c' hc'
    exact hkept c' (hne c' (List.mem_append_left extra hc'))

end Held

end OsMoap.Lib
