import OsMoap.Lib.Undo
import OsMoap.Shell.Containment

/-!
# Redirections Undone

`redirect` saves each descriptor it is about to change in the innermost `redirtab`, and `popredir`
puts the saved ones back.  `Pushed` says of two states that the later one can be unwound to the
earlier one: the tables and input files pushed since hold everything that has been changed of the
descriptors.  Redirecting, whether it succeeds or fails, leads to such a state, and popping the table
leads back.

The redirected descriptors are below ten, where a script and the saved copies never are.
-/

namespace OsMoap.Shell

open OsMoap.Lib OsMoap.Pack

/-- The descriptors that redirections of a command are for. -/
abbrev UserFd (n : ℕ) : Prop := n < 10

/-- The slots of some tables, the innermost table first. -/
def slotsOf (tabs : List Redirtab) : List (Saved ℕ) :=
  tabs.flatten.map fun q => ⟨q.origFd, q.movedTo⟩

/-- The descriptors that input files are read from. -/
def filesOf (pfs : List Parsefile) : List ℕ := pfs.filterMap Parsefile.fd

theorem slotsOf_cons (rp : Redirtab) (tabs : List Redirtab) :
    slotsOf (rp :: tabs) = slotsOf [rp] ++ slotsOf tabs := by
  rw [slotsOf, slotsOf, slotsOf, List.flatten_cons, List.flatten_singleton, List.map_append]

theorem slotsOf_append (tabs tabs' : List Redirtab) :
    slotsOf (tabs ++ tabs') = slotsOf tabs ++ slotsOf tabs' := by
  rw [slotsOf, slotsOf, slotsOf, List.flatten_append, List.map_append]

theorem filesOf_append (pfs pfs' : List Parsefile) :
    filesOf (pfs ++ pfs') = filesOf pfs ++ filesOf pfs' := List.filterMap_append

theorem mem_places_iff {rp : Redirtab} {fd : ℕ} :
    fd ∈ (slotsOf [rp]).map Saved.place ↔ fd ∈ rp.map Squirrel.origFd := by
  rw [slotsOf, List.flatten_singleton, List.map_map]
  exact Iff.rfl

theorem mem_copies_iff {rp : Redirtab} {fd : ℕ} :
    fd ∈ (slotsOf [rp]).filterMap Saved.copy ↔ ∃ q ∈ rp, q.movedTo = some fd := by
  rw [slotsOf, List.flatten_singleton, List.filterMap_map, List.mem_filterMap]
  exact Iff.rfl

/-- The scripts are read from descriptors of ten and above. -/
def Scripts (s : Ash) : Prop :=
  ∀ fd ∈ filesOf s.parsefiles, 10 ≤ fd ∧ s.io.fds.get fd ≠ none

/-- `s'` has the given tables and input files on top of those of `s`, and they hold what has been
changed of the descriptors. -/
structure Pushed (tabs : List Redirtab) (files : List Parsefile) (s s' : Ash) : Prop where
  redirlist : s'.redirlist = tabs ++ s.redirlist
  parsefiles : s'.parsefiles = files ++ s.parsefiles
  localvars : s.localvars.length ≤ s'.localvars.length
  held : Held UserFd s.io.fds.get s'.io.fds.get (slotsOf tabs) (filesOf files)

theorem Pushed.refl (s : Ash) : Pushed [] [] s s where
  redirlist := rfl
  parsefiles := rfl
  localvars := Nat.le_refl _
  held := Held.refl _

theorem Pushed.trans {tabs tabs' : List Redirtab} {files files' : List Parsefile} {s s' s'' : Ash}
    (h : Pushed tabs files s s') (h' : Pushed tabs' files' s' s'') :
    Pushed (tabs' ++ tabs) (files' ++ files) s s'' where
  redirlist := by rw [h'.redirlist, h.redirlist, List.append_assoc]
  parsefiles := by rw [h'.parsefiles, h.parsefiles, List.append_assoc]
  localvars := h.localvars.trans h'.localvars
  held := by
    rw [slotsOf_append, filesOf_append]
    exact h.held.trans h'.held

/-- Scripts that were open stay open, and the new ones are. -/
theorem Pushed.scripts {tabs : List Redirtab} {files : List Parsefile} {s s' : Ash}
    (h : Pushed tabs files s s') (hs : Scripts s) : Scripts s' := by
  intro fd hfd
  rw [h.parsefiles, filesOf_append, List.mem_append] at hfd
  rcases hfd with hfd | hfd
  · obtain ⟨huser, -, hopen⟩ := h.held.taken fd (List.mem_append_right _ hfd)
    exact ⟨Nat.le_of_not_lt huser, hopen⟩
  · obtain ⟨hten, hopen⟩ := hs fd hfd
    have hnotMem : fd ∉ inUse (slotsOf tabs) (filesOf files) := fun hmem =>
      hopen (h.held.taken fd hmem).2.1
    refine ⟨hten, ?_⟩
    rw [h.held.others fd (Nat.not_lt_of_le hten) hnotMem]
    exact hopen

/-! ## Saving -/

/-- No script is read from a descriptor of the user. -/
theorem moveScript_eq_none {io : Io} {fd min : ℕ} {pfs : List Parsefile} (h : fd ∉ filesOf pfs) :
    moveScript io fd min pfs = none := by
  induction pfs with
  | nil => rfl
  | cons pf pfs ih =>
    have hpf : pf.fd ≠ some fd := by
      intro heq
      apply h
      rw [filesOf, List.filterMap_cons, heq]
      exact List.mem_cons_self
    have hrest : fd ∉ filesOf pfs := by
      intro hmem
      apply h
      rw [filesOf, List.filterMap_cons]
      cases pf.fd with
      | none => exact hmem
      | some n => exact List.mem_cons_of_mem n hmem
    rw [moveScript, if_neg hpf, ih hrest]
    rfl

/-- A descriptor that is not the place of a copy is saved once. -/
theorem saveSlot_eq {io : Io} {fd min : ℕ} {rp : Redirtab} (h : ∀ q ∈ rp, q.movedTo ≠ some fd) :
    saveSlot io fd min rp =
      if fd ∈ rp.map Squirrel.origFd then .saved rp io
      else .saved (rp ++ [⟨fd, (io.dupfd fd min).1⟩]) (io.dupfd fd min).2 := by
  induction rp with
  | nil => rfl
  | cons q rp ih =>
    have hrest := ih fun q' hq' => h q' (List.mem_cons_of_mem q hq')
    rw [saveSlot, if_neg (h q List.mem_cons_self), hrest]
    by_cases hq : q.origFd = fd
    · rw [if_pos hq, if_pos (by rw [List.map_cons, hq]; exact List.mem_cons_self)]
    · have hmem : fd ∈ (q :: rp).map Squirrel.origFd ↔ fd ∈ rp.map Squirrel.origFd := by
        rw [List.map_cons, List.mem_cons]
        exact or_iff_right fun heq => hq heq.symm
      rw [if_neg hq]
      simp only [hmem]
      split_ifs
      · rfl
      · rfl

/-! ## Redirecting -/

/-- The table of redirections in progress over `s₀`; `hidden` is a file that has just been opened
and is to be closed again. -/
structure Redirecting (s₀ : Ash) (hidden : Option ℕ) (s : Ash) : Prop where
  top : ∃ rp, s.redirlist = rp :: s₀.redirlist ∧
    Held UserFd s₀.io.fds.get (without s.io.fds.get hidden) (slotsOf [rp]) []
  hidden_open : ∀ n, hidden = some n → s.io.fds.get n ≠ none
  parsefiles : s.parsefiles = s₀.parsefiles
  localvars : s.localvars = s₀.localvars

/-- The table starts empty. -/
theorem Redirecting.start (s₀ : Ash) :
    Redirecting s₀ none { s₀ with redirlist := [] :: s₀.redirlist } where
  top := ⟨[], rfl, Held.refl _⟩
  hidden_open _ h := nomatch h
  parsefiles := rfl
  localvars := rfl

theorem Redirecting.pushed {s₀ s : Ash} (h : Redirecting s₀ none s) :
    ∃ rp, Pushed [rp] [] s₀ s := by
  obtain ⟨rp, hlist, hheld⟩ := h.top
  exact ⟨rp, hlist, h.parsefiles, Nat.le_of_eq (congrArg List.length h.localvars.symm), hheld⟩

/-- The descriptors of scripts are not the user's, nor the file that was opened. -/
theorem Redirecting.notMem_files {s₀ s : Ash} {hidden : Option ℕ} (h : Redirecting s₀ hidden s)
    (hs : Scripts s₀) {n : ℕ} (hn : UserFd n ∨ hidden = some n) : n ∉ filesOf s.parsefiles := by
  intro hmem
  rw [h.parsefiles] at hmem
  obtain ⟨hten, hopen⟩ := hs n hmem
  rcases hn with hn | rfl
  · exact Nat.not_lt_of_le hten hn
  · obtain ⟨rp, -, hheld⟩ := h.top
    -- a file that was opened later has a descriptor that was free
    have hnotMem : n ∉ inUse (slotsOf [rp]) [] := fun hin => hopen (hheld.taken n hin).2.1
    apply hopen
    rw [← hheld.others n (Nat.not_lt_of_le hten) hnotMem]
    exact Function.update_self n none s.io.fds.get

/-- **Saving**: the descriptor has a slot, and nothing else is to be seen of it. -/
theorem wp_saveFdOnRedirect_redirecting {s₀ s : Ash} {hidden : Option ℕ} (h : Redirecting s₀ hidden s)
    (hs : Scripts s₀) {fd : ℕ} (hfd : UserFd fd) (hne : hidden ≠ some fd) (avoid : Option ℕ) :
    (saveFdOnRedirect fd avoid).wp
      (fun closed s' => closed = false ∧ Redirecting s₀ hidden s' ∧
        fd ∈ (s'.redirlist.headD []).map Squirrel.origFd ∧
        ∀ n, s.io.fds.get n ≠ none → s'.io.fds.get n = s.io.fds.get n)
      (fun _ _ => False) s := by
  obtain ⟨rp, hlist, hheld⟩ := h.top
  have hcopies : ∀ q ∈ rp, q.movedTo ≠ some fd := by
    intro q hq hmoved
    have hmem := mem_copies_iff.mpr ⟨q, hq, hmoved⟩
    exact (hheld.taken fd (List.mem_append_left [] hmem)).1 hfd
  have hscript : (if fd ≠ 0 then moveScript s.io fd (saveMin avoid) s.parsefiles else none) =
      none := by
    split_ifs
    · exact moveScript_eq_none (h.notMem_files hs (Or.inl hfd))
    · rfl
  rw [saveFdOnRedirect, Program.wp_bind, Program.wp_read]
  simp only [hlist, hscript, saveSlot_eq hcopies]
  by_cases hmem : fd ∈ rp.map Squirrel.origFd
  · -- it has been saved before
    rw [if_pos hmem]
    exact ⟨rfl, ⟨⟨rp, rfl, hheld⟩, h.hidden_open, h.parsefiles, h.localvars⟩, hmem,
      fun n _ => rfl⟩
  · rw [if_neg hmem]
    dsimp only
    rw [Program.wp_bind, Program.wp_modify, Program.wp_pure]
    have hnew : fd ∉ (slotsOf [rp]).map Saved.place := fun hin => hmem (mem_places_iff.mp hin)
    have hslots : ∀ copy, slotsOf [rp ++ [⟨fd, copy⟩]] = slotsOf [rp] ++ [⟨fd, copy⟩] := by
      intro copy
      rw [slotsOf, slotsOf, List.flatten_singleton, List.flatten_singleton, List.map_append]
      rfl
    have hplace : fd ∈ (rp ++ [Squirrel.mk fd (s.io.dupfd fd (saveMin avoid)).1]).map
        Squirrel.origFd := by
      rw [List.map_append]
      exact List.mem_append_right _ List.mem_cons_self
    cases hopen : s.io.fds.get fd with
    | none =>
      have hempty : without s.io.fds.get hidden fd = none := by rw [without_of_ne hne, hopen]
      rw [Io.dupfd_of_closed hopen] at hplace ⊢
      refine ⟨rfl, ⟨⟨_, rfl, ?_⟩, h.hidden_open, h.parsefiles, h.localvars⟩, hplace,
        fun n _ => rfl⟩
      rw [hslots]
      exact hheld.saveEmpty hfd hnew hempty
    | some d =>
      rw [Io.dupfd_of_open hopen] at hplace ⊢
      have hfree := s.io.fds.get_lowest (saveMin avoid)
      have hten : ¬ UserFd (s.io.fds.lowest (saveMin avoid)) := by
        have hmin : 10 ≤ saveMin avoid := Nat.le_max_left ..
        exact Nat.not_lt_of_le (hmin.trans (s.io.fds.le_lowest _))
      generalize s.io.fds.lowest (saveMin avoid) = copy at hplace hfree hten ⊢
      have hhidden : hidden ≠ some copy := fun heq => h.hidden_open copy heq hfree
      have hkept : ∀ n, s.io.fds.get n ≠ none →
          (s.io.fds.set copy (some d)).get n = s.io.fds.get n := by
        intro n hn
        apply Table.get_set_of_ne
        rintro rfl
        exact hn hfree
      refine ⟨rfl, ⟨⟨_, rfl, ?_⟩, ?_, h.parsefiles, h.localvars⟩, hplace, hkept⟩
      · rw [hslots]
        dsimp only
        rw [Table.get_set_eq_update, without_update hhidden]
        have hvalue : some d = without s.io.fds.get hidden fd := by rw [without_of_ne hne, hopen]
        rw [hvalue]
        apply hheld.save hfd hnew
        · rw [without_of_ne hne, hopen]
          exact Option.some_ne_none d
        · exact hten
        · rw [without_of_ne hhidden, hfree]
      · intro n hn
        dsimp only
        rw [hkept n (h.hidden_open n hn)]
        exact h.hidden_open n hn

/-- A descriptor that has a slot is pointed elsewhere. -/
theorem Redirecting.set {s₀ s : Ash} {hidden : Option ℕ} (h : Redirecting s₀ hidden s) {fd : ℕ}
    (hfd : UserFd fd) (hne : hidden ≠ some fd)
    (hsaved : fd ∈ (s.redirlist.headD []).map Squirrel.origFd) (v : Option ℕ) :
    Redirecting s₀ hidden { s with io := { s.io with fds := s.io.fds.set fd v } } := by
  obtain ⟨rp, hlist, hheld⟩ := h.top
  rw [hlist] at hsaved
  refine ⟨⟨rp, hlist, ?_⟩, ?_, h.parsefiles, h.localvars⟩
  · dsimp only
    rw [Table.get_set_eq_update, without_update hne]
    exact hheld.overwrite hfd (mem_places_iff.mpr hsaved) v
  · intro n hn
    dsimp only
    have hnfd : n ≠ fd := by
      rintro rfl
      exact hne hn
    rw [Table.get_set_of_ne _ hnfd]
    exact h.hidden_open n hn

/-- Registers and streams are of no account. -/
theorem Redirecting.of_fds {s₀ s s' : Ash} {hidden : Option ℕ} (h : Redirecting s₀ hidden s)
    (hfds : s'.io.fds = s.io.fds) (hlist : s'.redirlist = s.redirlist)
    (hfiles : s'.parsefiles = s.parsefiles) (hlocals : s'.localvars = s.localvars) :
    Redirecting s₀ hidden s' := by
  obtain ⟨rp, htop, hheld⟩ := h.top
  refine ⟨⟨rp, hlist.trans htop, ?_⟩, ?_, hfiles.trans h.parsefiles, hlocals.trans h.localvars⟩
  · rw [hfds]
    exact hheld
  · rw [hfds]
    exact h.hidden_open

theorem wp_ashMsgAndRaiseError {α : Type} {Q : α → Ash → Prop} {E : Stop → Ash → Prop} {s : Ash} :
    (ashMsgAndRaiseError : Sh α).wp Q E s ↔
      E (.raised .exerror) { s with exitstatus := 2, io := s.io.fflushAll } := Iff.rfl

theorem Redirecting.error {s₀ s : Ash} {hidden : Option ℕ} (h : Redirecting s₀ hidden s) :
    Redirecting s₀ hidden { s with exitstatus := 2, io := s.io.fflushAll } :=
  h.of_fds (Io.fflushAll_fds s.io) rfl rfl rfl

/-- **Pointing a descriptor to what another one denotes**: it fails only where that one is not open
or is one of the shell's own, and never for a file that was opened for it. -/
theorem wp_redirectTo_redirecting {s₀ s : Ash} {hidden : Option ℕ} (h : Redirecting s₀ hidden s)
    (hs : Scripts s₀) {fd newfd : ℕ} (hfd : UserFd fd) (hne : hidden ≠ some fd)
    (hnewfd : hidden = none ∨ hidden = some newfd) :
    (redirectTo fd newfd).wp (fun _ s' => Redirecting s₀ hidden s')
      (fun stop s' => stop = .raised .exerror ∧ hidden = none ∧ Redirecting s₀ hidden s') s := by
  rw [redirectTo, Program.wp_bind]
  apply Program.wp_mono (wp_saveFdOnRedirect_redirecting h hs hfd hne (some newfd))
  · rintro closed s₁ ⟨-, h₁, hsaved, hkept⟩
    rw [Program.wp_bind, Program.wp_read]
    by_cases howned : internallyOpenedFd s₁ newfd = true
    · rw [if_pos howned, wp_ashMsgAndRaiseError]
      refine ⟨rfl, ?_, h₁.error⟩
      rcases hnewfd with hnone | hsome
      · exact hnone
      · -- the file is neither a script nor a copy
        exfalso
        obtain ⟨rp, hlist, hheld⟩ := h₁.top
        rw [internallyOpenedFd, Bool.or_eq_true, hlist] at howned
        rcases howned with howned | howned
        · rw [Bool.and_eq_true, List.any_eq_true] at howned
          obtain ⟨-, pf, hpf, hpffd⟩ := howned
          apply h₁.notMem_files hs (Or.inr hsome)
          exact List.mem_filterMap.mpr ⟨pf, hpf, of_decide_eq_true hpffd⟩
        · obtain ⟨q, hq, hmoved⟩ := List.any_eq_true.mp howned
          have hmem := mem_copies_iff.mpr ⟨q, hq, of_decide_eq_true hmoved⟩
          apply (hheld.taken newfd (List.mem_append_left [] hmem)).2.2
          rw [hsome]
          exact Function.update_self newfd none s₁.io.fds.get
    · rw [if_neg howned, Program.wp_bind, dup2OrRaise, Program.wp_bind, Program.wp_read]
      cases hopen : s₁.io.fds.get newfd with
      | none =>
        rw [Io.dup2_of_closed hopen]
        dsimp only
        rw [wp_ashMsgAndRaiseError]
        refine ⟨rfl, ?_, h₁.error⟩
        rcases hnewfd with hnone | hsome
        · exact hnone
        · exact absurd hopen (h₁.hidden_open newfd hsome)
      | some d =>
        rw [Io.dup2_of_open hopen]
        dsimp only
        rw [Program.wp_modify]
        have hset := h₁.set hfd hne hsaved (some d)
        split_ifs
        · exact hset.of_fds rfl rfl rfl rfl
        · exact hset
  · exact fun _ _ hfalse => hfalse.elim

theorem notHidden {p : ℕ → Prop} : ∀ n, (none : Option ℕ) = some n → p n := by
  intro n h
  cases h

/-- **One redirection**, which may fail. -/
theorem wp_redirect1_redirecting {s₀ s : Ash} (h : Redirecting s₀ none s) (hs : Scripts s₀) {r : Redir}
    (hfd : UserFd r.fd) :
    (redirect1 r).wp (fun _ s' => Redirecting s₀ none s')
      (fun stop s' => stop = .raised .exerror ∧ Redirecting s₀ none s') s := by
  have herror : Redirecting s₀ none { s with exitstatus := 2, io := s.io.fflushAll } := h.error
  rw [redirect1, Program.wp_bind, Program.wp_read]
  split
  · exact ⟨rfl, herror⟩
  · rename_i path access hsource
    split
    · exact ⟨rfl, herror⟩
    · rename_i newfd io hopen
      obtain ⟨hnewfd, hfds, -, -, -⟩ := Io.openFile_cases hopen
      have hfree : s.io.fds.get newfd = none := by rw [hnewfd, Table.get_lowest]
      obtain ⟨rp, hlist, hheld⟩ := h.top
      rw [Program.wp_bind, Program.wp_modify]
      by_cases heq : r.fd = newfd
      · -- the file is in its place already, which was empty
        rw [if_pos heq, addSquirrelClosed, Program.wp_modify]
        dsimp only
        rw [hlist]
        dsimp only
        have hempty : s.io.fds.get r.fd = none := by rw [heq, hfree]
        by_cases hsaved : rp.any fun q => q.origFd = r.fd
        · rw [if_pos hsaved]
          obtain ⟨q, hq, hqfd⟩ := List.any_eq_true.mp hsaved
          refine ⟨⟨rp, rfl, ?_⟩, notHidden, h.parsefiles, h.localvars⟩
          dsimp only
          rw [hfds, Table.get_set_eq_update, ← heq]
          apply hheld.overwrite hfd
          exact mem_places_iff.mpr (List.mem_map.mpr ⟨q, hq, of_decide_eq_true hqfd⟩)
        · rw [if_neg hsaved]
          have hnew : r.fd ∉ (slotsOf [rp]).map Saved.place := by
            rw [mem_places_iff]
            intro hmem
            obtain ⟨q, hq, hqfd⟩ := List.mem_map.mp hmem
            exact hsaved (List.any_eq_true.mpr ⟨q, hq, decide_eq_true hqfd⟩)
          refine ⟨⟨_, rfl, ?_⟩, notHidden, h.parsefiles, h.localvars⟩
          dsimp only
          rw [hfds, Table.get_set_eq_update, ← heq]
          have hslots : slotsOf [rp ++ [⟨r.fd, none⟩]] = slotsOf [rp] ++ [⟨r.fd, none⟩] := by
            rw [slotsOf, slotsOf, List.flatten_singleton, List.flatten_singleton, List.map_append]
            rfl
          rw [hslots]
          apply (hheld.saveEmpty hfd hnew hempty).overwrite hfd
          rw [List.map_append]
          exact List.mem_append_right _ List.mem_cons_self
      · -- it is opened elsewhere, copied and closed there again
        rw [if_neg heq, Program.wp_bind]
        have hopened : Redirecting s₀ (some newfd) { s with io := io } := by
          refine ⟨⟨rp, hlist, ?_⟩, ?_, h.parsefiles, h.localvars⟩
          · dsimp only
            rw [hfds, Table.get_set_eq_update, without, Function.update_idem, ← hfree,
              Function.update_eq_self]
            exact hheld
          · rintro n ⟨⟩
            dsimp only
            rw [hfds, Table.get_set_self]
            exact Option.some_ne_none _
        have hne : some newfd ≠ some r.fd := fun hsome => heq (Option.some.inj hsome).symm
        apply Program.wp_mono (wp_redirectTo_redirecting hopened hs hfd hne (Or.inr rfl))
        · intro _ s₁ h₁
          obtain ⟨rp₁, hlist₁, hheld₁⟩ := h₁.top
          rw [onIo, Program.wp_modify]
          refine ⟨⟨rp₁, hlist₁, ?_⟩, notHidden, h₁.parsefiles, h₁.localvars⟩
          dsimp only [Io.close]
          rw [Table.get_set_eq_update]
          exact hheld₁
        · rintro stop s₁ ⟨-, hnone, -⟩
          exact absurd hnone (Option.some_ne_none newfd)
  · rename_i newfd hsource
    split_ifs with heq
    · exact h
    · apply Program.wp_mono (wp_redirectTo_redirecting h hs hfd (Option.some_ne_none r.fd).symm (Or.inl rfl))
      · exact fun _ _ h' => h'
      · exact fun _ _ h' => ⟨h'.1, h'.2.2⟩
  · rw [Program.wp_bind]
    apply Program.wp_mono (wp_saveFdOnRedirect_redirecting h hs hfd (Option.some_ne_none r.fd).symm none)
    · rintro closed s₁ ⟨rfl, h₁, hsaved, -⟩
      exact h₁.set hfd (Option.some_ne_none r.fd).symm hsaved none
    · exact fun _ _ hfalse => hfalse.elim

theorem wp_redirect {s₀ : Ash} (hs : Scripts s₀) {rs : List Redir} (hrs : ∀ r ∈ rs, UserFd r.fd)
    {s : Ash} (h : Redirecting s₀ none s) :
    (redirect rs).wp (fun _ s' => Redirecting s₀ none s')
      (fun stop s' => stop = .raised .exerror ∧ Redirecting s₀ none s') s := by
  induction rs generalizing s with
  | nil => exact h
  | cons r rs ih =>
    rw [redirect, Program.wp_bind]
    apply Program.wp_mono (wp_redirect1_redirecting h hs (hrs r List.mem_cons_self))
    · exact fun _ s' h' => ih (fun r' hr' => hrs r' (List.mem_cons_of_mem r hr')) h'
    · exact fun _ _ h' => h'

/-- An error of a redirection is caught, and nothing else can happen. -/
theorem wp_redirectsafe {s₀ : Ash} (hs : Scripts s₀) {rs : List Redir}
    (hrs : ∀ r ∈ rs, UserFd r.fd) {s : Ash} (h : Redirecting s₀ none s) :
    (redirectsafe rs).wp (fun _ s' => Redirecting s₀ none s') (fun _ _ => False) s := by
  rw [redirectsafe, Program.wp_bind, wp_catching]
  have hstart : Redirecting s₀ none { s with handler := s.handler + 1 } :=
    h.of_fds rfl rfl rfl rfl
  apply Program.wp_mono (wp_redirect hs hrs hstart)
  · exact fun _ s' h' => h'.of_fds rfl rfl rfl rfl
  · rintro stop s' ⟨rfl, h'⟩
    exact h'.of_fds rfl rfl rfl rfl

/-! ## Undoing -/

/-- The stacks of two states are the same. -/
structure SameStacks (s s' : Ash) : Prop where
  redirlist : s'.redirlist = s.redirlist
  parsefiles : s'.parsefiles = s.parsefiles
  localvars : s'.localvars = s.localvars

/-- **The slots of a table undone**: it never fails, since the copies are open. -/
theorem wp_popSlots_pushed {base : ℕ → Option ℕ} {tabs : List Redirtab} {files : List ℕ} {rp : Redirtab}
    {s : Ash} (h : Held UserFd base s.io.fds.get (slotsOf (rp :: tabs)) files) :
    (popSlots false rp).wp
      (fun _ s' => SameStacks s s' ∧ Held UserFd base s'.io.fds.get (slotsOf tabs) files)
      (fun _ _ => False) s := by
  induction rp generalizing s with
  | nil => exact ⟨⟨rfl, rfl, rfl⟩, h⟩
  | cons q rp ih =>
    rw [popSlots]
    cases hmoved : q.movedTo with
    | none =>
      have hheld : Held UserFd base s.io.fds.get (⟨q.origFd, none⟩ :: slotsOf (rp :: tabs)) files := by
        rw [← hmoved]
        exact h
      dsimp only
      rw [if_neg Bool.false_ne_true, Program.wp_bind]
      have hrest := ih (s := { s with io := s.io.close q.origFd }) (by
        rw [Io.close, Table.get_set_eq_update]
        exact hheld.clear)
      apply Program.wp_mono hrest
      · exact fun _ s' h' => ⟨⟨h'.1.redirlist, h'.1.parsefiles, h'.1.localvars⟩, h'.2⟩
      · exact fun _ _ hfalse => hfalse
    | some copy =>
      have hheld : Held UserFd base s.io.fds.get
          (⟨q.origFd, some copy⟩ :: slotsOf (rp :: tabs)) files := by
        rw [← hmoved]
        exact h
      obtain ⟨d, hopen⟩ := Option.ne_none_iff_exists'.mp
        (hheld.taken copy (List.mem_append_left _ List.mem_cons_self)).2.2
      dsimp only
      rw [if_neg Bool.false_ne_true, Program.wp_bind, dup2OrRaise, Program.wp_bind,
        Program.wp_read, Io.dup2_of_open hopen]
      dsimp only
      rw [Program.wp_modify, Program.wp_bind]
      have hrest := ih (s := { s with
          io := ({ s.io with fds := s.io.fds.set q.origFd (some d) } : Io).close copy }) (by
        rw [Io.close, Table.get_set_eq_update, Table.get_set_eq_update, ← hopen]
        exact hheld.restore)
      apply Program.wp_mono hrest
      · exact fun _ s' h' => ⟨⟨h'.1.redirlist, h'.1.parsefiles, h'.1.localvars⟩, h'.2⟩
      · exact fun _ _ hfalse => hfalse

/-- **Popping a table** leads to a state with the others on top. -/
theorem wp_popredir_pushed {rp : Redirtab} {tabs : List Redirtab} {files : List Parsefile} {s₀ s : Ash}
    (h : Pushed (rp :: tabs) files s₀ s) :
    (popredir false).wp (fun _ s' => Pushed tabs files s₀ s' ∧ s'.localvars = s.localvars)
      (fun _ _ => False) s := by
  have hlist : s.redirlist = rp :: (tabs ++ s₀.redirlist) := h.redirlist
  rw [popredir, Program.wp_bind, Program.wp_read, hlist]
  dsimp only
  rw [Program.wp_bind]
  apply Program.wp_mono (wp_popSlots_pushed h.held)
  · rintro _ s' ⟨hsame, hheld⟩
    rw [Program.wp_modify]
    refine ⟨⟨rfl, hsame.parsefiles.trans h.parsefiles, ?_, hheld⟩, hsame.localvars⟩
    dsimp only
    rw [hsame.localvars]
    exact h.localvars
  · exact fun _ _ hfalse => hfalse

/-- **Redirections are undone exactly**: for any list of them, whether they all succeed or one
fails, popping the table leaves the descriptors and the stacks of the shell as they were. -/
theorem popredir_restores (rs : List Redir) (s : Ash) (hs : Scripts s)
    (hrs : ∀ r ∈ rs, r.fd < 10) :
    ∃ ok s₁ s₂, (pushredir rs >>= fun _ => redirectsafe rs) s = (.ok ok, s₁) ∧
      popredirIf rs false s₁ = (.ok (), s₂) ∧ s₂.io.fds.get = s.io.fds.get ∧
      s₂.redirlist = s.redirlist ∧ s₂.parsefiles = s.parsefiles ∧ s₂.localvars = s.localvars := by
  have hpush : (pushredir rs >>= fun _ => redirectsafe rs).wp
      (fun _ s₁ => (popredirIf rs false).wp (fun _ s₂ => s₂.io.fds.get = s.io.fds.get ∧
        s₂.redirlist = s.redirlist ∧ s₂.parsefiles = s.parsefiles ∧ s₂.localvars = s.localvars)
        (fun _ _ => False) s₁) (fun _ _ => False) s := by
    rw [Program.wp_bind, pushredir, Program.wp_modify]
    by_cases hnil : rs = []
    · -- nothing is pushed and nothing popped
      rw [if_pos hnil, hnil]
      exact ⟨rfl, rfl, rfl, rfl⟩
    · rw [if_neg hnil, popredirIf, if_neg hnil]
      apply Program.wp_mono (wp_redirectsafe hs hrs (Redirecting.start s))
      · intro _ s₁ h₁
        obtain ⟨rp, hpushed⟩ := h₁.pushed
        apply Program.wp_mono (wp_popredir_pushed hpushed)
        · rintro _ s₂ ⟨h₂, hlocals⟩
          exact ⟨h₂.held.eq_of_nil, h₂.redirlist, h₂.parsefiles, hlocals.trans h₁.localvars⟩
        · exact fun _ _ hfalse => hfalse
      · exact fun _ _ hfalse => hfalse
  obtain ⟨ok, s₁, hredirect, hpop⟩ := Program.wp_returns.mpr hpush
  obtain ⟨_, s₂, hpopped, hback⟩ := Program.wp_returns.mpr hpop
  exact ⟨ok, s₁, s₂, hredirect, hpopped, hback⟩

/-- `>a 2>&1 <m`, where there is no file `m` to read. -/
def logBoth : List Redir :=
  [⟨1, .file ['a'] wronlyTrunc⟩, ⟨2, .dup 1⟩, ⟨0, .file ['m'] rdonly⟩]

theorem popredir_restores_logBoth :
    ∃ ok s₁ s₂, (pushredir logBoth >>= fun _ => redirectsafe logBoth) (Ash.start (Io.start [] [])) =
        (.ok ok, s₁) ∧
      popredirIf logBoth false s₁ = (.ok (), s₂) ∧
      s₂.io.fds.get = (Ash.start (Io.start [] [])).io.fds.get ∧
      s₂.redirlist = (Ash.start (Io.start [] [])).redirlist ∧
      s₂.parsefiles = (Ash.start (Io.start [] [])).parsefiles ∧
      s₂.localvars = (Ash.start (Io.start [] [])).localvars :=
  popredir_restores logBoth (Ash.start (Io.start [] []))
    (fun _ hmem => absurd hmem List.not_mem_nil) (by decide)

/-- Redirecting a descriptor of ten and above can hit a copy, which is moved, and then the
descriptor itself is not noted. -/
example :
    let rs : List Redir := [⟨1, .file ['a'] wronlyTrunc⟩, ⟨10, .file ['b'] wronlyTrunc⟩]
    let s := Ash.start (Io.start [] [])
    (popredirIf rs false ((pushredir rs >>= fun _ => redirectsafe rs) s).2).2.io.fds.get 10 =
      some 3 := by
  decide +kernel

end OsMoap.Shell
