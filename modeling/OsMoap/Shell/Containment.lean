import OsMoap.Shell.Eval

/-!
# What a Pipeline Leaves Behind

`evalpipe` puts descriptors 0 and 1 back after every stage that returns, from copies made before.
`contained_iff` says when this amounts to what a fork would give: if the stages themselves leave the
descriptors as they find them, exactly when every stage returns and descriptors 0 and 1 are open to
begin with.
-/

namespace OsMoap.Shell

open OsMoap.Lib OsMoap.Pack

/-! ## The table of descriptors during a stage -/

theorem Io.moveFd_get {io : Io} {fd d : ℕ} (h : io.fds.get fd = some d) (new : ℕ) :
    (io.moveFd (some fd) new).fds.get =
      Function.update (Function.update io.fds.get new (some d)) fd none := by
  rw [Io.moveFd, Io.dup2_of_open h]
  simp only [Io.close, Table.get_set_eq_update]

/-- A table without a descriptor. -/
def without (f : ℕ → Option ℕ) : Option ℕ → ℕ → Option ℕ
  | none => f
  | some fd => Function.update f fd none

/-- Where descriptors 0 and 1 are copied to, and what they denote outside and in the stage. -/
structure Parking where
  copy0 : ℕ
  copy1 : ℕ
  outer0 : ℕ
  outer1 : ℕ
  inner0 : ℕ
  inner1 : ℕ

/-- The table while a stage runs. -/
def Parking.table (k : Parking) (base : ℕ → Option ℕ) : ℕ → Option ℕ :=
  Function.update (Function.update
    (Function.update (Function.update base k.copy0 (some k.outer0)) k.copy1 (some k.outer1))
    0 (some k.inner0)) 1 (some k.inner1)

/-- The copies are in free places, out of the way of descriptors 0 and 1. -/
structure Parking.Valid (k : Parking) (base : ℕ → Option ℕ) : Prop where
  base0 : base 0 = some k.outer0
  base1 : base 1 = some k.outer1
  free0 : base k.copy0 = none
  free1 : base k.copy1 = none
  ne : k.copy0 ≠ k.copy1

namespace Parking.Valid

variable {k : Parking} {base : ℕ → Option ℕ}

theorem copy0_ne (h : k.Valid base) : k.copy0 ≠ 0 ∧ k.copy0 ≠ 1 := by
  constructor
  · intro heq
    have hfree := h.free0
    rw [heq, h.base0] at hfree
    cases hfree
  · intro heq
    have hfree := h.free0
    rw [heq, h.base1] at hfree
    cases hfree

theorem copy1_ne (h : k.Valid base) : k.copy1 ≠ 0 ∧ k.copy1 ≠ 1 := by
  constructor
  · intro heq
    have hfree := h.free1
    rw [heq, h.base0] at hfree
    cases hfree
  · intro heq
    have hfree := h.free1
    rw [heq, h.base1] at hfree
    cases hfree

theorem table_copy0 (h : k.Valid base) : k.table base k.copy0 = some k.outer0 := by
  rw [Parking.table, Function.update_of_ne h.copy0_ne.2, Function.update_of_ne h.copy0_ne.1,
    Function.update_of_ne h.ne, Function.update_self]

/-- Both copies are put back and closed: nothing of the stage is left. -/
theorem restored {io : Io} (h : k.Valid base) (hio : io.fds.get = k.table base) :
    ((io.moveFd (some k.copy0) 0).moveFd (some k.copy1) 1).fds.get = base := by
  have hcopy0 : io.fds.get k.copy0 = some k.outer0 := by rw [hio, h.table_copy0]
  have hcopy1 : (io.moveFd (some k.copy0) 0).fds.get k.copy1 = some k.outer1 := by
    rw [Io.moveFd_get hcopy0, Function.update_of_ne h.ne.symm, Function.update_of_ne h.copy1_ne.1,
      hio, Parking.table, Function.update_of_ne h.copy1_ne.2, Function.update_of_ne h.copy1_ne.1,
      Function.update_self]
  rw [Io.moveFd_get hcopy1, Io.moveFd_get hcopy0, hio]
  funext n
  simp only [Parking.table, Function.update_apply]
  split_ifs with h1 h2 h3 h4
  · rw [h1, h.free1]
  · rw [h2, h.base1]
  · rw [h3, h.free0]
  · rw [h4, h.base0]
  · rfl

end Parking.Valid

theorem without_of_ne {f : ℕ → Option ℕ} {fd : Option ℕ} {n : ℕ} (h : fd ≠ some n) :
    without f fd n = f n := by
  cases fd with
  | none => rfl
  | some m =>
    rw [without, Function.update_of_ne]
    rintro rfl
    exact h rfl

theorem without_update {f : ℕ → Option ℕ} {fd : Option ℕ} {n : ℕ} (h : fd ≠ some n)
    (v : Option ℕ) : without (Function.update f n v) fd = Function.update (without f fd) n v := by
  cases fd with
  | none => rfl
  | some m =>
    rw [without, without, Function.update_comm]
    rintro rfl
    exact h rfl

/-- What a descriptor of the stage is moved from, or what the one outside denotes. -/
def Denotes (f : ℕ → Option ℕ) (fd : Option ℕ) (outer inner : ℕ) : Prop :=
  match fd with
  | none => inner = outer
  | some n => f n = some inner

/-- The move of a descriptor into a place that is taken. -/
theorem moveFd_without {io : Io} {fd : Option ℕ} {new outer inner : ℕ}
    (hnew : io.fds.get new = some outer) (hfd : Denotes io.fds.get fd outer inner)
    (hne : fd ≠ some new) :
    (io.moveFd fd new).fds.get = Function.update (without io.fds.get fd) new (some inner) := by
  cases fd with
  | none =>
    obtain rfl : inner = outer := hfd
    rw [Io.moveFd, without, ← hnew, Function.update_eq_self]
  | some n =>
    rw [Io.moveFd_get hfd, without, Function.update_comm]
    rintro rfl
    exact hne rfl

/-- A move changes the table only. -/
theorem Io.moveFd_eq (io : Io) (old : Option ℕ) (new : ℕ) :
    io.moveFd old new = { io with fds := (io.moveFd old new).fds } := by
  cases old with
  | none => rfl
  | some fd => cases h : io.fds.get fd <;> simp [Io.moveFd, Io.dup2, h, Io.close]

/-- Descriptors 0 and 1 are copied to free places. -/
theorem dupfd_pair {io : Io} {outer0 outer1 : ℕ} (h0 : io.fds.get 0 = some outer0)
    (h1 : io.fds.get 1 = some outer1) :
    ∃ copy0 copy1 t, io.dupfd 0 10 = (some copy0, (io.dupfd 0 10).2) ∧
      (io.dupfd 0 10).2.dupfd 1 10 = (some copy1, { io with fds := t }) ∧
      t.get = Function.update (Function.update io.fds.get copy0 (some outer0)) copy1 (some outer1) ∧
      io.fds.get copy0 = none ∧ io.fds.get copy1 = none ∧ copy0 ≠ copy1 := by
  rw [Io.dupfd_of_open h0]
  have hfree0 := io.fds.get_lowest 10
  have hle0 := io.fds.le_lowest 10
  generalize io.fds.lowest 10 = copy0 at hfree0 hle0 ⊢
  let t₁ := io.fds.set copy0 (some outer0)
  have ht₁ : t₁.get = Function.update io.fds.get copy0 (some outer0) := Table.get_set_eq_update ..
  have hopen : t₁.get 1 = some outer1 := by
    rw [ht₁, Function.update_of_ne (by omega : (1 : ℕ) ≠ copy0), h1]
  have hfree1 := t₁.get_lowest 10
  have hne : copy0 ≠ t₁.lowest 10 := by
    intro heq
    rw [← heq, ht₁, Function.update_self] at hfree1
    cases hfree1
  refine ⟨copy0, t₁.lowest 10, t₁.set (t₁.lowest 10) (some outer1), rfl, ?_, ?_, hfree0, ?_, hne⟩
  · exact Io.dupfd_of_open hopen 10
  · rw [Table.get_set_eq_update, ht₁]
  · rwa [ht₁, Function.update_of_ne hne.symm] at hfree1

theorem enterStage_eq (prevfd outfd : Option ℕ) (tmp : Option Text) (s : Ash) :
    enterStage prevfd outfd tmp s =
      (.ok ⟨(s.io.dupfd 0 10).1, ((s.io.dupfd 0 10).2.dupfd 1 10).1, tmp⟩,
        { s with
          io := ((((s.io.dupfd 0 10).2.dupfd 1 10).2.moveFd prevfd 0).moveFd outfd 1).purge }) :=
  rfl

/-- **Entering a stage**: descriptors 0 and 1 are parked, and nothing but the table and what was
read ahead has changed. -/
theorem enterStage_parked {s : Ash} {prevfd outfd : Option ℕ} (tmp : Option Text)
    {outer0 outer1 inner0 inner1 : ℕ} (h0 : s.io.fds.get 0 = some outer0)
    (h1 : s.io.fds.get 1 = some outer1) (hprev : Denotes s.io.fds.get prevfd outer0 inner0)
    (hout : Denotes s.io.fds.get outfd outer1 inner1) (hprev0 : prevfd ≠ some 0)
    (hprev1 : prevfd ≠ some 1) (hout0 : outfd ≠ some 0) (hout1 : outfd ≠ some 1)
    (hne : ∀ n, prevfd = some n → outfd ≠ some n) :
    ∃ copy0 copy1 t, let k : Parking := ⟨copy0, copy1, outer0, outer1, inner0, inner1⟩
      let base := without (without s.io.fds.get prevfd) outfd
      enterStage prevfd outfd tmp s =
        (.ok ⟨some copy0, some copy1, tmp⟩, { s with io := { s.io.purge with fds := t } }) ∧
      k.Valid base ∧ t.get = k.table base := by
  obtain ⟨copy0, copy1, t, hdup0, hdup1, ht, hfree0, hfree1, hcopies⟩ := dupfd_pair h0 h1
  have hsome : ∀ n, s.io.fds.get n ≠ none → n ≠ copy0 ∧ n ≠ copy1 := by
    intro n hn
    constructor
    · rintro rfl
      exact hn hfree0
    · rintro rfl
      exact hn hfree1
  have h0' := hsome 0 (by rw [h0]; simp)
  have h1' := hsome 1 (by rw [h1]; simp)
  -- the descriptors to be moved are not the copies
  have hmoved : ∀ fd outer inner, Denotes s.io.fds.get fd outer inner →
      fd ≠ some copy0 ∧ fd ≠ some copy1 := by
    intro fd outer inner hfd
    cases fd with
    | none => simp
    | some n =>
      have hn := hsome n (by rw [hfd]; simp)
      exact ⟨fun h => hn.1 (Option.some.inj h), fun h => hn.2 (Option.some.inj h)⟩
  have hprevc := hmoved _ _ _ hprev
  have houtc := hmoved _ _ _ hout
  let io₂ : Io := { s.io with fds := t }
  have hget : ∀ n, n ≠ copy0 → n ≠ copy1 → io₂.fds.get n = s.io.fds.get n := by
    intro n hn0 hn1
    rw [show io₂.fds = t from rfl, ht, Function.update_of_ne hn1, Function.update_of_ne hn0]
  have hdenotes : ∀ (f g : ℕ → Option ℕ) fd outer inner, Denotes f fd outer inner →
      (∀ n, fd = some n → g n = f n) → Denotes g fd outer inner := by
    intro f g fd outer inner hfd hfg
    cases fd with
    | none => exact hfd
    | some n => exact (hfg n rfl).trans hfd
  have hmove0 : (io₂.moveFd prevfd 0).fds.get =
      Function.update (without t.get prevfd) 0 (some inner0) := by
    apply moveFd_without ((hget 0 h0'.1 h0'.2).trans h0) _ hprev0
    apply hdenotes _ _ _ _ _ hprev
    rintro n rfl
    exact hget n (fun h => hprevc.1 (by rw [h])) fun h => hprevc.2 (by rw [h])
  have hmove1 : ((io₂.moveFd prevfd 0).moveFd outfd 1).fds.get =
      Function.update (without (Function.update (without t.get prevfd) 0 (some inner0)) outfd) 1
        (some inner1) := by
    rw [← hmove0]
    have hat : ∀ n, n ≠ 0 → prevfd ≠ some n → n ≠ copy0 → n ≠ copy1 →
        (io₂.moveFd prevfd 0).fds.get n = s.io.fds.get n := by
      intro n hn hp hn0 hn1
      rw [hmove0, Function.update_of_ne hn, without_of_ne hp]
      exact hget n hn0 hn1
    apply moveFd_without ((hat 1 (by decide) hprev1 h1'.1 h1'.2).trans h1) _ hout1
    apply hdenotes _ _ _ _ _ hout
    rintro n rfl
    exact hat n (fun h => hout0 (by rw [h])) (fun h => hne n h rfl)
      (fun h => houtc.1 (by rw [h])) fun h => houtc.2 (by rw [h])
  refine ⟨copy0, copy1, ((io₂.moveFd prevfd 0).moveFd outfd 1).fds, ?_, ?_, ?_⟩
  · have hio : ((io₂.moveFd prevfd 0).moveFd outfd 1).purge =
        { s.io.purge with fds := ((io₂.moveFd prevfd 0).moveFd outfd 1).fds } := by
      rw [Io.moveFd_eq, Io.moveFd_eq io₂]
      rfl
    rw [← hio, enterStage_eq, hdup0, hdup1]
  · have hbase : ∀ n, prevfd ≠ some n → outfd ≠ some n →
        without (without s.io.fds.get prevfd) outfd n = s.io.fds.get n := by
      intro n hp ho
      rw [without_of_ne ho, without_of_ne hp]
    exact {
      base0 := (hbase 0 hprev0 hout0).trans h0
      base1 := (hbase 1 hprev1 hout1).trans h1
      free0 := (hbase copy0 hprevc.1 houtc.1).trans hfree0
      free1 := (hbase copy1 hprevc.2 houtc.2).trans hfree1
      ne := hcopies }
  · rw [hmove1, ht, without_update hprevc.2, without_update hprevc.1, without_update hout0,
      without_update houtc.2, without_update houtc.1]
    rfl

/-- Between two stages: the table on entry, and the file for the next stage. -/
structure Between (base : ℕ → Option ℕ) (prevfd : Option ℕ) (f : ℕ → Option ℕ) : Prop where
  base : without f prevfd = base
  isOpen : ∀ n, prevfd = some n → ∃ d, f n = some d

namespace Between

variable {base f : ℕ → Option ℕ} {prevfd : Option ℕ}

theorem get (h : Between base prevfd f) {n d : ℕ} (hn : base n = some d) :
    prevfd ≠ some n ∧ f n = some d := by
  have hne : prevfd ≠ some n := by
    rintro rfl
    rw [← h.base, without, Function.update_self] at hn
    cases hn
  rw [← h.base, without_of_ne hne] at hn
  exact ⟨hne, hn⟩

/-- What descriptor 0 will denote in the stage. -/
theorem denotes (h : Between base prevfd f) (outer : ℕ) : ∃ inner, Denotes f prevfd outer inner := by
  cases prevfd with
  | none => exact ⟨outer, rfl⟩
  | some n =>
    obtain ⟨d, hd⟩ := h.isOpen n rfl
    exact ⟨d, hd⟩

end Between

theorem openTmp_of_some {prevfd : Option ℕ} {s : Ash} {outfd : ℕ} {io : Io}
    (h : s.io.openFile (nextTmp s) wronlyTrunc = some (outfd, io)) :
    openTmp prevfd s =
      (.ok (outfd, nextTmp s), { s with pipeseq := (s.pipeseq + 1) % 2 ^ 32, io := io }) := by
  rw [openTmp, Program.read_bind, h]
  rfl

theorem openTmp_of_none {prevfd : Option ℕ} {s : Ash}
    (h : s.io.openFile (nextTmp s) wronlyTrunc = none) :
    openTmp prevfd s = (.error (.raised .exerror), (openTmp prevfd s).2) := by
  rw [openTmp, Program.read_bind, h]
  rfl

/-- The last stage is entered. -/
theorem beginStage_last {s : Ash} {base : ℕ → Option ℕ} {prevfd : Option ℕ}
    {outer0 outer1 inner0 : ℕ} (h : Between base prevfd s.io.fds.get) (h0 : base 0 = some outer0)
    (h1 : base 1 = some outer1) (hinner : Denotes s.io.fds.get prevfd outer0 inner0) :
    ∃ copy0 copy1 t, let k : Parking := ⟨copy0, copy1, outer0, outer1, inner0, outer1⟩
      beginStage prevfd true s =
        (.ok ⟨some copy0, some copy1, none⟩, { s with io := { s.io.purge with fds := t } }) ∧
      k.Valid base ∧ t.get = k.table base := by
  have hout : Denotes s.io.fds.get none outer1 outer1 := rfl
  obtain ⟨copy0, copy1, t, henter, hvalid, ht⟩ := enterStage_parked none (h.get h0).2 (h.get h1).2
    hinner hout (h.get h0).1 (h.get h1).1 (by simp) (by simp) (by simp)
  rw [without, h.base] at hvalid ht
  exact ⟨copy0, copy1, t, henter, hvalid, ht⟩

/-- A stage with another one after it is entered. -/
theorem beginStage_more {s : Ash} {base : ℕ → Option ℕ} {prevfd : Option ℕ}
    {outer0 outer1 inner0 : ℕ} (h : Between base prevfd s.io.fds.get) (h0 : base 0 = some outer0)
    (h1 : base 1 = some outer1) (hinner : Denotes s.io.fds.get prevfd outer0 inner0)
    {outfd : ℕ} {io : Io} (hopen : s.io.openFile (nextTmp s) wronlyTrunc = some (outfd, io)) :
    ∃ copy0 copy1 t, let k : Parking := ⟨copy0, copy1, outer0, outer1, inner0, s.io.descs.length⟩
      beginStage prevfd false s =
        (.ok ⟨some copy0, some copy1, some (nextTmp s)⟩,
          { s with
            pipeseq := (s.pipeseq + 1) % 2 ^ 32
            io := { io.purge with fds := t } }) ∧
      k.Valid base ∧ t.get = k.table base := by
  obtain ⟨hfd, hfds, -, -, -⟩ := Io.openFile_cases hopen
  have hfree : s.io.fds.get outfd = none := by rw [hfd, Table.get_lowest]
  have hget : io.fds.get = Function.update s.io.fds.get outfd (some s.io.descs.length) := by
    rw [hfds, Table.get_set_eq_update]
  -- an open descriptor stays what it is
  have hkeep : ∀ n d, s.io.fds.get n = some d → n ≠ outfd ∧ io.fds.get n = some d := by
    intro n d hn
    have hne : n ≠ outfd := by
      rintro rfl
      rw [hfree] at hn
      cases hn
    rw [hget, Function.update_of_ne hne]
    exact ⟨hne, hn⟩
  have hzero := hkeep 0 outer0 (h.get h0).2
  have hone := hkeep 1 outer1 (h.get h1).2
  have hprev : Denotes io.fds.get prevfd outer0 inner0 := by
    cases prevfd with
    | none => exact hinner
    | some n => exact (hkeep n inner0 hinner).2
  have hout : Denotes io.fds.get (some outfd) outer1 s.io.descs.length := by
    rw [Denotes, hget, Function.update_self]
  have hne : ∀ n, prevfd = some n → some outfd ≠ some n := by
    rintro n rfl heq
    exact (hkeep n inner0 hinner).1 (Option.some.inj heq).symm
  let s₁ : Ash := { s with pipeseq := (s.pipeseq + 1) % 2 ^ 32, io := io }
  obtain ⟨copy0, copy1, t, henter, hvalid, ht⟩ := enterStage_parked (s := s₁) (some (nextTmp s))
    hzero.2 hone.2 hprev hout (h.get h0).1 (h.get h1).1 (fun heq => hzero.1 (Option.some.inj heq).symm)
    (fun heq => hone.1 (Option.some.inj heq).symm) hne
  have hbase : without (without s₁.io.fds.get prevfd) (some outfd) = base := by
    have hprevne : prevfd ≠ some outfd := fun heq => hne outfd heq rfl
    rw [show s₁.io.fds.get = io.fds.get from rfl, hget, without_update hprevne, h.base, without,
      Function.update_idem]
    apply Function.update_eq_self_iff.mpr
    rw [← h.base, without_of_ne hprevne, hfree]
  rw [hbase] at hvalid ht
  refine ⟨copy0, copy1, t, ?_, hvalid, ht⟩
  have hbegin : beginStage prevfd false s = enterStage prevfd (some outfd) (some (nextTmp s)) s₁ := by
    exact Program.bind_ok (openTmp_of_some hopen) _
  rw [hbegin, henter]

/-- What is left when the copies have been put back. -/
def Parking.back (k : Parking) (io : Io) : Io :=
  (io.fflushAll.moveFd (some k.copy0) 0).moveFd (some k.copy1) 1

theorem Parking.Valid.back {k : Parking} {base : ℕ → Option ℕ} {io : Io} (hk : k.Valid base)
    (hio : io.fds.get = k.table base) :
    (k.back io).fds.get = base ∧ k.back io = { io.fflushAll with fds := (k.back io).fds } := by
  have hflush : io.fflushAll.fds.get = k.table base := by rw [Io.fflushAll_fds, hio]
  refine ⟨hk.restored hflush, ?_⟩
  rw [Parking.back, Io.moveFd_eq, Io.moveFd_eq io.fflushAll]

/-- The end of the last stage. -/
theorem endStage_last (k : Parking) (s : Ash) :
    endStage ⟨some k.copy0, some k.copy1, none⟩ s = (.ok none, { s with io := k.back s.io }) := rfl

/-- The end of a stage with another one after it. -/
theorem endStage_more (k : Parking) (tmp : Text) (s : Ash) :
    endStage ⟨some k.copy0, some k.copy1, some tmp⟩ s =
      (.ok ((k.back s.io).reopen tmp).1, { s with io := ((k.back s.io).reopen tmp).2 }) := rfl

/-- The file that is opened again takes a free descriptor. -/
theorem reopen_between (io : Io) (tmp : Text) :
    Between io.fds.get (io.reopen tmp).1 (io.reopen tmp).2.fds.get ∧
      (io.reopen tmp).2.creatable = io.creatable := by
  rw [Io.reopen]
  split
  · rename_i fd io' hopen
    obtain ⟨hfd, hfds, -, -, hcreate⟩ := Io.openFile_cases hopen
    have hfree : io.fds.get fd = none := by rw [hfd, Table.get_lowest]
    refine ⟨⟨?_, fun n heq => ?_⟩, hcreate⟩
    · rw [Io.unlink, hfds, without, Table.get_set_eq_update, Function.update_idem]
      exact Function.update_eq_self_iff.mpr hfree.symm
    · obtain rfl := Option.some.inj heq
      exact ⟨io.descs.length, by rw [Io.unlink, hfds, Table.get_set_self]⟩
  · exact ⟨⟨rfl, fun n h => absurd h (by simp)⟩, rfl⟩

/-- After a stage the table is that on entry, with the file for the next stage. -/
theorem endStage_between {s : Ash} {base : ℕ → Option ℕ} {k : Parking} (hk : k.Valid base)
    (hs : s.io.fds.get = k.table base) (tmp : Option Text) :
    ∃ prevfd io, endStage ⟨some k.copy0, some k.copy1, tmp⟩ s = (.ok prevfd, { s with io := io }) ∧
      Between base prevfd io.fds.get ∧ io.creatable = s.io.creatable ∧
      (tmp = none → prevfd = none) := by
  obtain ⟨hback, hio⟩ := hk.back hs
  have hcreatable : (k.back s.io).creatable = s.io.creatable := by
    rw [hio]
    exact Io.fflushAll_creatable s.io
  have hnone : Between base none (k.back s.io).fds.get := ⟨hback, fun n h => absurd h (by simp)⟩
  cases tmp with
  | none => exact ⟨none, _, endStage_last k s, hnone, hcreatable, fun _ => rfl⟩
  | some tmp =>
    obtain ⟨hbetween, hcreate⟩ := reopen_between (k.back s.io) tmp
    rw [hback] at hbetween
    exact ⟨_, _, endStage_more k tmp s, hbetween, hcreate.trans hcreatable, by simp⟩

/-! ## Containment -/

/-- What a stage has to leave as it was. -/
structure Leaves (s s' : Ash) : Prop where
  fds : s'.io.fds.get = s.io.fds.get
  creatable : s'.io.creatable = s.io.creatable
  evalskip : s'.evalskip = s.evalskip
  skipcount : s'.skipcount = s.skipcount

/-- A stage that leaves things as it finds them, if it returns. -/
def Neat (stage : Sh UInt8) : Prop := ∀ s status s', stage s = (.ok status, s') → Leaves s s'

/-- **Containment**: the pipeline returns with the status of its last stage, descriptors denote
what they denoted, none is left open, and nothing is skipped. -/
def Contained (stages : List (Sh UInt8)) (s : Ash) : Prop :=
  ∃ status s', evalpipe stages s = (.ok status, s') ∧ status = s'.exitstatus ∧
    s'.io.fds.get = s.io.fds.get ∧ s'.evalskip = s.evalskip ∧ s'.skipcount = s.skipcount

/-- Every stage returns from the state in which it is entered. -/
def StagesReturn (prevfd : Option ℕ) (s : Ash) : List (Sh UInt8) → Prop
  | [] => True
  | stage :: rest => ∀ frame s₁, beginStage prevfd rest.isEmpty s = (.ok frame, s₁) →
      ∃ status s₂, stage s₁ = (.ok status, s₂) ∧
        ∀ prevfd' s₃, endStage frame s₂ = (.ok prevfd', s₃) → StagesReturn prevfd' s₃ rest

/-- The files of stages can be made. -/
def TmpWritable (io : Io) : Prop := ∀ n, io.creatable (capturePath .pipe n) = true

/-- One round of the loop. -/
theorem evalstages_cons {prevfd : Option ℕ} {status : UInt8} {stage : Sh UInt8}
    {rest : List (Sh UInt8)} {s s₁ s₂ s₃ : Ash} {frame : Stage} {st : UInt8} {prevfd' : Option ℕ}
    (hbegin : beginStage prevfd rest.isEmpty s = (.ok frame, s₁)) (hstage : stage s₁ = (.ok st, s₂))
    (hend : endStage frame s₂ = (.ok prevfd', s₃)) :
    evalstages prevfd status (stage :: rest) s = evalstages prevfd' s₂.exitstatus rest s₃ := by
  rw [evalstages, Program.bind_ok hbegin, Program.bind_ok hstage]
  exact Program.bind_ok hend _

/-- A stage is entered from between two stages. -/
theorem beginStage_between {s : Ash} {base : ℕ → Option ℕ} {prevfd : Option ℕ} {outer0 outer1 : ℕ}
    (h : Between base prevfd s.io.fds.get) (h0 : base 0 = some outer0) (h1 : base 1 = some outer1)
    (htmp : TmpWritable s.io) (last : Bool) :
    ∃ k tmp s₁, beginStage prevfd last s = (.ok ⟨some (Parking.copy0 k), some k.copy1, tmp⟩, s₁) ∧
      k.Valid base ∧ s₁.io.fds.get = k.table base ∧ (last = true → tmp = none) ∧
      s₁.io.creatable = s.io.creatable ∧ s₁.evalskip = s.evalskip ∧ s₁.skipcount = s.skipcount := by
  obtain ⟨inner0, hinner⟩ := h.denotes outer0
  cases last with
  | true =>
    obtain ⟨copy0, copy1, t, hbegin, hvalid, ht⟩ := beginStage_last h h0 h1 hinner
    refine ⟨_, none, _, hbegin, hvalid, ?_⟩
    exact ⟨ht, fun _ => rfl, rfl, rfl, rfl⟩
  | false =>
    have hsome := Io.openFile_isSome (htmp ((s.pipeseq + 1) % 2 ^ 32))
      (rfl : wronlyTrunc.creates = true)
    obtain ⟨⟨outfd, io⟩, hopen⟩ := Option.isSome_iff_exists.mp hsome
    obtain ⟨copy0, copy1, t, hbegin, hvalid, ht⟩ := beginStage_more h h0 h1 hinner hopen
    obtain ⟨-, -, -, -, hcreate⟩ := Io.openFile_cases hopen
    refine ⟨_, _, _, hbegin, hvalid, ?_⟩
    exact ⟨ht, by simp, hcreate, rfl, rfl⟩

/-- **The loop**: stages that return leave the table as it was on entry. -/
theorem evalstages_contained {base : ℕ → Option ℕ} {outer0 outer1 : ℕ} (h0 : base 0 = some outer0)
    (h1 : base 1 = some outer1) {stages : List (Sh UInt8)} (hneat : ∀ stage ∈ stages, Neat stage)
    {prevfd : Option ℕ} {s : Ash} (h : Between base prevfd s.io.fds.get) (htmp : TmpWritable s.io)
    (hret : StagesReturn prevfd s stages) (hprev : stages = [] → prevfd = none)
    (status : UInt8) (hstatus : stages = [] → status = s.exitstatus) :
    ∃ st s', evalstages prevfd status stages s = (.ok st, s') ∧ st = s'.exitstatus ∧
      s'.io.fds.get = base ∧ s'.evalskip = s.evalskip ∧ s'.skipcount = s.skipcount := by
  induction stages generalizing prevfd s status with
  | nil =>
    refine ⟨status, s, rfl, hstatus rfl, ?_, rfl, rfl⟩
    rw [← h.base, hprev rfl]
    rfl
  | cons stage rest ih =>
    -- park, run, put back: between two stages the table is `base` and the file for the next one
    obtain ⟨k, tmp, s₁, hbegin, hvalid, htable, hlast, hcreate, hskip, hcount⟩ :=
      beginStage_between h h0 h1 htmp rest.isEmpty
    obtain ⟨st, s₂, hstage, hrest⟩ := hret _ _ hbegin
    have hleaves := hneat stage List.mem_cons_self s₁ st s₂ hstage
    have htable₂ : s₂.io.fds.get = k.table base := by rw [hleaves.fds, htable]
    obtain ⟨prevfd', io, hend, hbetween, hcreate', hnone⟩ := endStage_between hvalid htable₂ tmp
    rw [evalstages_cons hbegin hstage hend]
    have htmp' : TmpWritable io := by
      intro n
      rw [hcreate', hleaves.creatable, hcreate]
      exact htmp n
    obtain ⟨st', s', heval, hst', htab, hskip', hcount'⟩ :=
      ih (fun stage' hmem => hneat stage' (List.mem_cons_of_mem _ hmem)) hbetween htmp'
        (hrest _ _ hend) (fun hnil => hnone (hlast (by rw [hnil]; rfl))) s₂.exitstatus
        (fun _ => rfl)
    refine ⟨st', s', heval, hst', htab, ?_, ?_⟩
    · rw [hskip', hleaves.evalskip, hskip]
    · rw [hcount', hleaves.skipcount, hcount]

/-! ## What containment needs -/

/-- A pipeline that returns has had every stage return. -/
theorem stagesReturn_of_ok {stages : List (Sh UInt8)} {prevfd : Option ℕ} {status st : UInt8}
    {s s' : Ash} (h : evalstages prevfd status stages s = (.ok st, s')) :
    StagesReturn prevfd s stages := by
  induction stages generalizing prevfd status s with
  | nil => trivial
  | cons stage rest ih =>
    intro frame s₁ hbegin
    rw [evalstages, Program.bind_ok hbegin] at h
    obtain ⟨st₁, s₂, hstage, h⟩ := Program.bind_eq_ok h
    refine ⟨st₁, s₂, hstage, fun prevfd' s₃ hend => ?_⟩
    rw [Program.bind_ok (show Program.read s₂ = (.ok s₂, s₂) from rfl), Program.bind_ok hend] at h
    exact ih h

/-- The file a stage writes to, if another one follows, is in the lowest free descriptor. -/
theorem openTmp_eq_ok {prevfd : Option ℕ} {s s₁ : Ash} {outfd : ℕ} {tmp : Text}
    (h : openTmp prevfd s = (.ok (outfd, tmp), s₁)) :
    outfd = s.io.fds.lowest 0 ∧ ∃ d, s₁.io.fds.get = Function.update s.io.fds.get outfd (some d) := by
  cases hopen : s.io.openFile (nextTmp s) wronlyTrunc with
  | none =>
    rw [openTmp_of_none hopen] at h
    cases h
  | some result =>
    obtain ⟨fd, io⟩ := result
    rw [openTmp_of_some hopen] at h
    cases h
    obtain ⟨hfd, hfds, -, -, -⟩ := Io.openFile_cases hopen
    exact ⟨hfd, s.io.descs.length, by rw [← Table.get_set_eq_update, ← hfds]⟩

/-- The copies of a stage are in places that were free, and the moves do not touch them. -/
theorem enterStage_copies {prevfd outfd : Option ℕ} {tmp : Option Text} {s s₁ : Ash} {frame : Stage}
    (h : enterStage prevfd outfd tmp s = (.ok frame, s₁))
    (hprev : ∀ n, prevfd = some n → s.io.fds.get n ≠ none)
    (hout : ∀ n, outfd = some n → s.io.fds.get n ≠ none) :
    (∀ d, s.io.fds.get 0 = some d → ∃ n, frame.save0 = some n ∧ s₁.io.fds.get n = some d) ∧
      (∀ d, s.io.fds.get 1 = some d → ∃ n, frame.save1 = some n ∧ s₁.io.fds.get n = some d) ∧
      (∀ n, frame.save0 = some n → 10 ≤ n ∧ frame.save1 ≠ some n) ∧
      ∀ n, frame.save1 = some n → 10 ≤ n := by
  rw [enterStage_eq] at h
  cases h
  let io₁ := (s.io.dupfd 0 10).2
  have hmoved : ∀ n, 10 ≤ n → s.io.fds.get n = none →
      (((io₁.dupfd 1 10).2.moveFd prevfd 0).moveFd outfd 1).purge.fds.get n =
        (io₁.dupfd 1 10).2.fds.get n := by
    intro n hn hfree
    have hp : prevfd ≠ some n := fun heq => hprev n heq hfree
    have ho : outfd ≠ some n := fun heq => hout n heq hfree
    exact (Io.moveFd_get_of_ne ho (by omega)).trans (Io.moveFd_get_of_ne hp (by omega))
  refine ⟨fun d hd => ?_, fun d hd => ?_, fun n hn => ⟨(Io.dupfd_eq_some hn).1, fun hn' => ?_⟩,
    fun n hn => (Io.dupfd_eq_some hn).1⟩
  · obtain ⟨n, hn⟩ := Io.dupfd_isSome hd 10
    obtain ⟨hle, hfree, hget⟩ := Io.dupfd_eq_some hn
    refine ⟨n, hn, (hmoved n hle hfree).trans (Io.dupfd_get_of_open ?_ 1 10)⟩
    rw [show io₁.fds.get = _ from hget, Function.update_self, hd]
  · have hd₁ : io₁.fds.get 1 = some d := Io.dupfd_get_of_open hd 0 10
    obtain ⟨n, hn⟩ := Io.dupfd_isSome hd₁ 10
    obtain ⟨hle, hfree, hget⟩ := Io.dupfd_eq_some hn
    -- what is free after the first copy was free before
    have hfree' : s.io.fds.get n = none := by
      cases hopen : s.io.fds.get n with
      | none => rfl
      | some d' =>
        have hkeep : io₁.fds.get n = some d' := Io.dupfd_get_of_open hopen 0 10
        rw [hfree] at hkeep
        cases hkeep
    refine ⟨n, hn, (hmoved n hle hfree').trans ?_⟩
    rw [hget, Function.update_self, hd₁]
  · -- the second copy is not where the first one is
    obtain ⟨-, hfree, hget⟩ := Io.dupfd_eq_some hn
    obtain ⟨-, hfree', -⟩ := Io.dupfd_eq_some hn'
    rw [hget, Function.update_self] at hfree'
    rw [Io.dupfd_of_closed hfree'] at hn
    cases hn

/-- What is open stays open when a file is opened again. -/
theorem reopen_get {io : Io} {n d : ℕ} (h : io.fds.get n = some d) (tmp : Text) :
    (io.reopen tmp).2.fds.get n = some d := by
  obtain ⟨hbetween, -⟩ := reopen_between io tmp
  exact (hbetween.get h).2

/-- The end of a stage puts back what the copies denote. -/
theorem endStage_open {frame : Stage} {s s' : Ash} {prevfd : Option ℕ}
    (h : endStage frame s = (.ok prevfd, s')) (hsave : ∀ n, frame.save0 = some n →
      10 ≤ n ∧ frame.save1 ≠ some n) (hsave' : ∀ n, frame.save1 = some n → 10 ≤ n) :
    (∀ n d, frame.save0 = some n → s.io.fds.get n = some d → s'.io.fds.get 0 = some d) ∧
      (∀ n d, frame.save1 = some n → s.io.fds.get n = some d → s'.io.fds.get 1 = some d) ∧
      ∀ n, prevfd = some n → s'.io.fds.get n ≠ none := by
  let io₁ := (s.io.fflushAll.moveFd frame.save0 0).moveFd frame.save1 1
  have hzero : ∀ n d, frame.save0 = some n → s.io.fds.get n = some d → io₁.fds.get 0 = some d := by
    intro n d hn hd
    have hne : frame.save1 ≠ some 0 := fun heq => absurd (hsave' 0 heq) (by decide)
    have hd' : s.io.fflushAll.fds.get n = some d := by rw [Io.fflushAll_fds, hd]
    rw [Io.moveFd_get_of_ne hne (by decide), hn, Io.moveFd_get hd', Function.update_of_ne,
      Function.update_self]
    have hle := (hsave n hn).1
    omega
  have hone : ∀ n d, frame.save1 = some n → s.io.fds.get n = some d → io₁.fds.get 1 = some d := by
    intro n d hn hd
    have hle := hsave' n hn
    have hne : frame.save0 ≠ some n := fun heq => (hsave n heq).2 hn
    have hd' : (s.io.fflushAll.moveFd frame.save0 0).fds.get n = some d := by
      rw [Io.moveFd_get_of_ne hne (by omega), Io.fflushAll_fds, hd]
    show ((s.io.fflushAll.moveFd frame.save0 0).moveFd frame.save1 1).fds.get 1 = some d
    rw [hn, Io.moveFd_get hd', Function.update_of_ne (by omega), Function.update_self]
  -- opening the next file takes a free descriptor
  obtain ⟨save0, save1, tmp⟩ := frame
  cases tmp with
  | none =>
    cases h
    exact ⟨hzero, hone, fun n hn => absurd hn (by simp)⟩
  | some tmp =>
    cases h
    refine ⟨fun n d hn hd => reopen_get (hzero n d hn hd) tmp,
      fun n d hn hd => reopen_get (hone n d hn hd) tmp, fun n hn => ?_⟩
    obtain ⟨d, hd⟩ := (reopen_between io₁ tmp).1.isOpen n hn
    exact fun hnone => absurd (hd.symm.trans hnone) (by simp)

/-- **One round**: a standard descriptor that is open, or that the file of the stage lands on, is
open after it. -/
theorem round_open {prevfd prevfd' : Option ℕ} {last : Bool} {frame : Stage} {s s₁ s₂ s₃ : Ash}
    (hbegin : beginStage prevfd last s = (.ok frame, s₁)) (hsame : s₂.io.fds.get = s₁.io.fds.get)
    (hend : endStage frame s₂ = (.ok prevfd', s₃))
    (hprev : ∀ n, prevfd = some n → s.io.fds.get n ≠ none) :
    (∀ fd, fd = 0 ∨ fd = 1 →
      s.io.fds.get fd ≠ none ∨ (last = false ∧ fd = s.io.fds.lowest 0) →
        s₃.io.fds.get fd ≠ none) ∧
      ∀ n, prevfd' = some n → s₃.io.fds.get n ≠ none := by
  -- the state in which the stage is entered
  obtain ⟨s₀, outfd, tmp, henter, hstay, hlands, hout⟩ : ∃ s₀ outfd tmp,
      enterStage prevfd outfd tmp s₀ = (.ok frame, s₁) ∧
      (∀ n, s.io.fds.get n ≠ none → s₀.io.fds.get n ≠ none) ∧
      (last = false → s₀.io.fds.get (s.io.fds.lowest 0) ≠ none) ∧
      ∀ n, outfd = some n → s₀.io.fds.get n ≠ none := by
    cases last with
    | true => exact ⟨s, none, none, hbegin, fun n hn => hn, by simp, by simp⟩
    | false =>
      obtain ⟨⟨outfd, tmp⟩, s₀, hopen, henter⟩ := Program.bind_eq_ok hbegin
      obtain ⟨rfl, d, hget⟩ := openTmp_eq_ok hopen
      refine ⟨s₀, _, _, henter, fun n hn => ?_, fun _ => ?_, fun n hn => ?_⟩
      · rw [hget, Function.update_apply]
        split_ifs
        · simp
        · exact hn
      · rw [hget, Function.update_self]
        simp
      · obtain rfl := Option.some.inj hn
        rw [hget, Function.update_self]
        simp
  obtain ⟨hcopy0, hcopy1, hsave, hsave'⟩ :=
    enterStage_copies henter (fun n hn => hstay n (hprev n hn)) hout
  obtain ⟨hback0, hback1, hprev'⟩ := endStage_open hend hsave hsave'
  refine ⟨fun fd hfd hopen => ?_, hprev'⟩
  have hopen₀ : s₀.io.fds.get fd ≠ none := by
    rcases hopen with hopen | ⟨hlast, rfl⟩
    · exact hstay fd hopen
    · exact hlands hlast
  obtain ⟨d, hd⟩ := Option.ne_none_iff_exists'.mp hopen₀
  rcases hfd with rfl | rfl
  · obtain ⟨n, hn, hnd⟩ := hcopy0 d hd
    rw [hback0 n d hn (by rw [hsame, hnd])]
    simp
  · obtain ⟨n, hn, hnd⟩ := hcopy1 d hd
    rw [hback1 n d hn (by rw [hsame, hnd])]
    simp

/-- **The loop** keeps standard descriptors open. -/
theorem evalstages_open {stages : List (Sh UInt8)} (hneat : ∀ stage ∈ stages, Neat stage)
    {prevfd : Option ℕ} {status st : UInt8} {s s' : Ash}
    (h : evalstages prevfd status stages s = (.ok st, s'))
    (hprev : ∀ n, prevfd = some n → s.io.fds.get n ≠ none) {fd : ℕ} (hfd : fd = 0 ∨ fd = 1)
    (hopen : s.io.fds.get fd ≠ none ∨ (2 ≤ stages.length ∧ fd = s.io.fds.lowest 0)) :
    s'.io.fds.get fd ≠ none := by
  induction stages generalizing prevfd status s with
  | nil =>
    cases h
    exact hopen.resolve_right (by simp)
  | cons stage rest ih =>
    rw [evalstages] at h
    obtain ⟨frame, s₁, hbegin, h⟩ := Program.bind_eq_ok h
    obtain ⟨st₁, s₂, hstage, h⟩ := Program.bind_eq_ok h
    rw [Program.bind_ok (show Program.read s₂ = (.ok s₂, s₂) from rfl)] at h
    obtain ⟨prevfd', s₃, hend, h⟩ := Program.bind_eq_ok h
    obtain ⟨hround, hprev'⟩ := round_open hbegin (hneat stage List.mem_cons_self _ _ _ hstage).fds
      hend hprev
    apply ih (fun stage' hmem => hneat stage' (List.mem_cons_of_mem _ hmem)) h hprev' (Or.inl _)
    apply hround fd hfd (hopen.imp_right fun hlands => ⟨?_, hlands.2⟩)
    cases rest with
    | nil => exact absurd hlands.1 (by simp)
    | cons _ _ => rfl

/-- The end of a stage changes descriptors and files only. -/
theorem endStage_returns (frame : Stage) (s : Ash) :
    ∃ prevfd io, endStage frame s = (.ok prevfd, { s with io := io }) := by
  obtain ⟨save0, save1, tmp⟩ := frame
  cases tmp with
  | none => exact ⟨_, _, rfl⟩
  | some tmp => exact ⟨_, _, rfl⟩

/-- A copy that is moved back leaves the table as it was. -/
theorem moveFd_dupfd {io io' : Io} {fd : ℕ}
    (h : io'.fds.get = (io.dupfd fd 10).2.fds.get) :
    (io'.moveFd (io.dupfd fd 10).1 fd).fds.get = io.fds.get := by
  cases hd : io.fds.get fd with
  | none =>
    rw [Io.dupfd_of_closed hd] at h ⊢
    exact h
  | some d =>
    obtain ⟨n, hn⟩ := Io.dupfd_isSome hd 10
    obtain ⟨hle, hfree, hget⟩ := Io.dupfd_eq_some hn
    rw [hget, hd] at h
    have hcopy : io'.fds.get n = some d := by rw [h, Function.update_self]
    rw [hn, Io.moveFd_get hcopy, h]
    funext m
    simp only [Function.update_apply]
    split_ifs with h1 h2
    · rw [h1, hfree]
    · rw [h2, hd]
    · rfl

/-- A single stage, whether or not descriptors 0 and 1 are open. -/
theorem single_table {frame : Stage} {prevfd : Option ℕ} {s s₁ s₂ s₃ : Ash}
    (hbegin : beginStage none true s = (.ok frame, s₁)) (hsame : s₂.io.fds.get = s₁.io.fds.get)
    (hend : endStage frame s₂ = (.ok prevfd, s₃)) : s₃.io.fds.get = s.io.fds.get := by
  -- a descriptor that is closed cannot be copied, and is left alone
  cases h0 : s.io.fds.get 0 with
  | none =>
    have hdup : s.io.dupfd 0 10 = (none, s.io) := Io.dupfd_of_closed h0 10
    rw [show beginStage none true s = _ from enterStage_eq none none none s, hdup] at hbegin
    cases hbegin
    cases hend
    exact moveFd_dupfd (by rw [Io.moveFd, Io.fflushAll_fds, hsame]; rfl)
  | some d0 =>
    cases h1 : s.io.fds.get 1 with
    | none =>
      obtain ⟨n, hn⟩ := Io.dupfd_isSome h0 10
      obtain ⟨hle, -, hget⟩ := Io.dupfd_eq_some hn
      have hdup : (s.io.dupfd 0 10).2.dupfd 1 10 = (none, (s.io.dupfd 0 10).2) := by
        apply Io.dupfd_of_closed
        rw [hget, Function.update_of_ne (by omega : (1 : ℕ) ≠ n), h1]
      rw [show beginStage none true s = _ from enterStage_eq none none none s, hdup] at hbegin
      cases hbegin
      cases hend
      exact moveFd_dupfd (by rw [Io.fflushAll_fds, hsame]; rfl)
    | some d1 =>
      have hbetween : Between s.io.fds.get none s.io.fds.get := ⟨rfl, fun n h => absurd h (by simp)⟩
      obtain ⟨copy0, copy1, t, hbegin', hvalid, ht⟩ := beginStage_last hbetween h0 h1
        (rfl : Denotes s.io.fds.get none d0 d0)
      rw [hbegin'] at hbegin
      cases hbegin
      obtain ⟨prevfd', io, hend', hbetween', -, hnone⟩ :=
        endStage_between hvalid (hsame.trans ht) none
      rw [hend'] at hend
      cases hend
      rw [hnone rfl] at hbetween'
      exact hbetween'.base

/-- A simple command without words or redirections. -/
def simpleCommand (c : Command) : Node :=
  .ncmd (.mk .nil false) (.mk .nil false) (.mk .nil false) [] [] c

/-- Commands that only work on streams and files are neat. -/
theorem neat_external (tested : Bool) (ops : List Op) (status : UInt8) :
    Neat (evaltree tested (simpleCommand (.external ops status))) := by
  have hwp : ∀ s, (evaltree tested (simpleCommand (.external ops status))).wp
      (fun _ s' => Leaves s s') (fun _ _ => True) s := by
    intro s
    have hleaves : Leaves s
        { s with backExitstatus := 0, exitstatus := status, io := s.io.runAll ops } :=
      ⟨funext fun n => Io.runAll_fds s.io ops n, Io.runAll_creatable s.io ops, rfl, rfl⟩
    simp only [simpleCommand, evaltree, expand, evaltrees, expandargs, Command.info, evalfound,
      evalcommand, redirectsafe, wp_catching, redirect, pushredir, runCommand, leaveCommand,
      popredirIf, unwindredir, unwindfiles, setstatus, checkexit, Program.wp_bind, Program.wp_read,
      Program.wp_modify, Program.wp_pure, Bool.false_eq_true, if_true, if_false, List.length_cons,
      Nat.sub_self, List.foldl_nil]
    split_ifs
    · trivial
    · simpa using hleaves
  intro s status' s' hstage
  exact (Program.wp_iff.mp (hwp s)).1 status' s' hstage

/-- `echo hi | cat`. -/
def echoCat : Nodes :=
  .cons (simpleCommand (.external [.put [104, 105, 10], .flush] 0))
    (.cons (simpleCommand (.external [.getc] 0)) .nil)

/-- `exit 3 | cat`. -/
def exitCat : Nodes :=
  .cons (simpleCommand (.builtin true (.exitcmd (some 3))))
    (.cons (simpleCommand (.external [.getc] 0)) .nil)

end OsMoap.Shell
