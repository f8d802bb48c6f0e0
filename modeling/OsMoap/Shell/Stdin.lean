import OsMoap.Lib.Machine
import OsMoap.Shell.Pipeline

/-!
# What Readers of `stdin` Get

All commands read through one `FILE *`, and descriptor 0 is pointed elsewhere when a redirection is
made and undone and before and after every stage of a pipeline.  `redirect` and the entry of a stage
drop what was read ahead; `popredir`, the end of a pipeline and `<&-` do not.

`delivered_own` says of whole runs that readers get only what descriptor 0 denotes, if the places
that do not drop it are passed with nothing read ahead and no end of file noted.
-/

namespace OsMoap.Shell

open OsMoap.Lib OsMoap.Pack

/-! ## The stream and its descriptor -/

/-- Nothing is read ahead and no end of file is noted. -/
def Idle (io : Io) : Prop := io.stdin.buffer = [] ∧ io.stdin.eof = false

/-- What is read ahead or noted is of the description that descriptor 0 denotes. -/
def Own (io : Io) : Prop := Idle io ∨ io.fds.get 0 = some io.stdin.source

/-- The description that a byte or an end of file comes from. -/
def Io.Delivery.source : Io.Delivery → Option ℕ
  | .byte _ d => some d
  | .eof d => some d
  | .error => none

/-- A reader gets what descriptor 0 denotes. -/
def DeliversOwn (io : Io) : Prop := ∀ d, io.getc.1.source = some d → io.fds.get 0 = some d

theorem Idle.of_same {io io' : Io} (h : Idle io) (hstdin : io'.stdin = io.stdin) : Idle io' := by
  rwa [Idle, hstdin]

theorem Own.of_same {io io' : Io} (h : Own io) (hstdin : io'.stdin = io.stdin)
    (hzero : io'.fds.get 0 = io.fds.get 0) : Own io' := by
  rcases h with hidle | hown
  · exact Or.inl (hidle.of_same hstdin)
  · exact Or.inr (by rw [hzero, hstdin, hown])

theorem idle_purge (io : Io) : Idle io.purge := ⟨rfl, rfl⟩

/-- Nothing is read ahead when descriptor 0 is closed. -/
theorem Own.idle_of_closed {io : Io} (h : Own io) (hzero : io.fds.get 0 = none) : Idle io := by
  rcases h with hidle | hown
  · exact hidle
  · exact absurd (hzero.symm.trans hown) (by simp)

theorem description_fst {io : Io} {fd d : ℕ} {desc : Description}
    (h : io.description fd = some (d, desc)) : io.fds.get fd = some d := by
  obtain ⟨d', hd', hmap⟩ := Option.bind_eq_some_iff.mp h
  obtain ⟨desc', -, hpair⟩ := Option.map_eq_some_iff.mp hmap
  rw [hd', (Prod.mk.inj hpair).1]

theorem Own.deliversOwn {io : Io} (h : Own io) : DeliversOwn io := by
  intro d hd
  rw [Io.getc] at hd
  split at hd
  · rename_i b rest hbuf
    rcases h with hidle | hown
    · exact absurd hidle.1 (by simp [hbuf])
    · rwa [hown]
  · split_ifs at hd with heof
    · rcases h with hidle | hown
      · exact absurd hidle.2 (by simp [heof])
      · rwa [hown]
    · split at hd
      · rename_i hdesc _
        cases hd
        exact description_fst hdesc
      · rename_i hdesc _
        cases hd
        exact description_fst hdesc
      · cases hd

theorem Own.getc {io : Io} (h : Own io) : Own io.getc.2 := by
  have hzero := congrArg (Table.get · 0) (Io.getc_fds io)
  rw [Io.getc] at hzero ⊢
  split at hzero
  · rcases h with hidle | hown
    · rename_i hbuf
      exact absurd hidle.1 (by simp [hbuf])
    · exact Or.inr hown
  · split_ifs at hzero ⊢
    · exact h
    · split at hzero
      · rename_i hdesc _
        exact Or.inr (hzero.trans (description_fst hdesc))
      · rename_i hdesc _
        exact Or.inr (hzero.trans (description_fst hdesc))
      · exact h

/-- `open` gives descriptor 0 only if it was closed. -/
theorem Own.openFile {io io' : Io} {path : Text} {access : Access} {fd : ℕ} (h : Own io)
    (hopen : io.openFile path access = some (fd, io')) :
    Own io' ∧ (fd = 0 → Idle io') ∧ (Idle io → Idle io') := by
  obtain ⟨hfd, hfds, hstdin, -, -⟩ := Io.openFile_cases hopen
  have hkeep : Idle io → Idle io' := fun hidle => hidle.of_same hstdin
  by_cases hzero : fd = 0
  · have hclosed : io.fds.get 0 = none := by
      rw [← hzero, hfd, Table.get_lowest]
    have hidle := hkeep (h.idle_of_closed hclosed)
    exact ⟨Or.inl hidle, fun _ => hidle, hkeep⟩
  · refine ⟨h.of_same hstdin ?_, fun h0 => absurd h0 hzero, hkeep⟩
    rw [hfds, Table.get_set_of_ne _ (Ne.symm hzero)]

theorem Own.run {io : Io} (h : Own io) (op : Op) : Own (io.run op) := by
  cases op with
  | getc => exact h.getc
  | put bs => exact h
  | flush => exact h.of_same (Io.fflushAll_stdin io) (by rw [Io.run, Io.fflushAll_fds])
  | read fd n => exact h.of_same (Io.read_stdin io fd n) (by rw [Io.run, Io.read_fds])
  | write fd bs => exact h.of_same (Io.write_stdin io fd bs) (by rw [Io.run, Io.write_fds])
  | create path bs =>
    refine h.of_same ?_ (Io.run_fds io (.create path bs) 0)
    rw [Io.run]
    split
    · rfl
    · rename_i fd io' hopen
      exact (Io.write_stdin io' fd bs).trans (Io.openFile_cases hopen).2.2.1
  | unlink path => exact h

/-! ## Redirections -/

/-- Copies of descriptors are not descriptor 0. -/
def HighCopies (s : Ash) : Prop := ∀ rp ∈ s.redirlist, ∀ q ∈ rp, q.movedTo ≠ some 0

/-- Between commands: readers get their own, and copies are out of the way. -/
structure Clean (s : Ash) : Prop where
  own : Own s.io
  high : HighCopies s

/-- The stream and descriptor 0 are as they were. -/
structure Steady (s s' : Ash) : Prop where
  stdin : s'.io.stdin = s.io.stdin
  zero : s'.io.fds.get 0 = s.io.fds.get 0
  high : HighCopies s → HighCopies s'

theorem Steady.clean {s s' : Ash} (h : Steady s s') (hs : Clean s) : Clean s' :=
  ⟨hs.own.of_same h.stdin h.zero, h.high hs.high⟩

theorem dupfd_steady (io : Io) (fd : ℕ) {min : ℕ} (hmin : 0 < min) :
    (io.dupfd fd min).2.stdin = io.stdin ∧ (io.dupfd fd min).2.fds.get 0 = io.fds.get 0 ∧
      (io.dupfd fd min).1 ≠ some 0 := by
  have hne : io.fds.lowest min ≠ 0 := by
    have hle := io.fds.le_lowest min
    omega
  cases hfd : io.fds.get fd with
  | none =>
    rw [Io.dupfd_of_closed hfd]
    exact ⟨rfl, rfl, by simp⟩
  | some d =>
    rw [Io.dupfd_of_open hfd]
    exact ⟨rfl, Table.get_set_of_ne _ hne.symm _, by simpa using hne⟩

theorem saveMin_pos (avoid : Option ℕ) : 0 < saveMin avoid := by
  rw [saveMin]
  omega

theorem moveScript_steady {io io' : Io} {fd min : ℕ} (hfd : fd ≠ 0) (hmin : 0 < min)
    {pfs pfs' : List Parsefile} (h : moveScript io fd min pfs = some (pfs', io')) :
    io'.stdin = io.stdin ∧ io'.fds.get 0 = io.fds.get 0 := by
  induction pfs generalizing pfs' with
  | nil => simp [moveScript] at h
  | cons pf pfs ih =>
    rw [moveScript] at h
    split_ifs at h with hpf
    · obtain ⟨hstdin, hzero, -⟩ := dupfd_steady io fd hmin
      split at h
      · rename_i new io₁ hdup
        cases h
        rw [hdup] at hstdin hzero
        exact ⟨hstdin, (Table.get_set_of_ne _ hfd.symm _).trans hzero⟩
      · cases h
        exact ⟨rfl, rfl⟩
    · obtain ⟨⟨pfs₁, io₁⟩, hrest, hpair⟩ := Option.map_eq_some_iff.mp h
      cases hpair
      exact ih hrest

theorem saveSlot_steady {io io' : Io} {fd min : ℕ} (hmin : 0 < min) {sq sq' : Redirtab}
    (h : saveSlot io fd min sq = .saved sq' io') :
    io'.stdin = io.stdin ∧ io'.fds.get 0 = io.fds.get 0 ∧
      ((∀ q ∈ sq, q.movedTo ≠ some 0) → ∀ q ∈ sq', q.movedTo ≠ some 0) := by
  obtain ⟨hstdin, hzero, hhigh⟩ := dupfd_steady io fd hmin
  -- along the slots: one is moved or added, the others stay
  induction sq generalizing sq' with
  | nil =>
    cases h
    refine ⟨hstdin, hzero, fun _ q hq => ?_⟩
    obtain rfl := List.mem_singleton.mp hq
    exact hhigh
  | cons q₀ rest ih =>
    rw [saveSlot] at h
    split_ifs at h with hmoved horig
    · split at h
      · rename_i new io₁ hdup
        cases h
        rw [hdup] at hstdin hzero hhigh
        refine ⟨hstdin, hzero, fun hall q hq => ?_⟩
        rcases List.mem_cons.mp hq with rfl | hq
        · exact hhigh
        · exact hall q (List.mem_cons_of_mem _ hq)
      · cases h
    · cases h
      exact ⟨rfl, rfl, fun hall => hall⟩
    · split at h
      · rename_i sqs io₁ hrest
        cases h
        obtain ⟨hstdin', hzero', hhigh'⟩ := ih hrest
        refine ⟨hstdin', hzero', fun hall q hq => ?_⟩
        rcases List.mem_cons.mp hq with rfl | hq
        · exact hall q List.mem_cons_self
        · exact hhigh' (fun q' hq' => hall q' (List.mem_cons_of_mem _ hq')) q hq
      · cases h

/-- Saving a descriptor. -/
theorem wp_saveFdOnRedirect (fd : ℕ) (avoid : Option ℕ) (s : Ash) :
    (saveFdOnRedirect fd avoid).wp (fun _ s' => Steady s s') (fun _ s' => Steady s s') s := by
  rw [saveFdOnRedirect]
  simp only [Program.wp_bind, Program.wp_read]
  cases hlist : s.redirlist with
  | nil => exact ⟨rfl, rfl, id⟩
  | cons sq tabs =>
    dsimp only
    split
    · rename_i pfs io hmove
      split_ifs at hmove with hfd
      · obtain ⟨hstdin, hzero⟩ := moveScript_steady hfd (saveMin_pos avoid) hmove
        exact ⟨hstdin, hzero, id⟩
    · split
      · rename_i sq' io hsave
        obtain ⟨hstdin, hzero, hhigh⟩ := saveSlot_steady (saveMin_pos avoid) hsave
        refine ⟨hstdin, hzero, fun hall rp hrp => ?_⟩
        rcases List.mem_cons.mp hrp with rfl | hrp
        · exact hhigh (hall sq (by rw [hlist]; exact List.mem_cons_self))
        · exact hall rp (by rw [hlist]; exact List.mem_cons_of_mem _ hrp)
      · exact ⟨rfl, rfl, id⟩

theorem steady_raise (s : Ash) : Steady s { s with exitstatus := 2, io := s.io.fflushAll } :=
  ⟨Io.fflushAll_stdin s.io, congrArg (Table.get · 0) (Io.fflushAll_fds s.io), id⟩

theorem Steady.trans {s t u : Ash} (h : Steady s t) (h' : Steady t u) : Steady s u :=
  ⟨h'.stdin.trans h.stdin, h'.zero.trans h.zero, fun hs => h'.high (h.high hs)⟩

/-- The result of a call that may end either way: clean, and idle if it was. -/
def EndsClean (s s' : Ash) : Prop := Clean s' ∧ (Idle s.io → Idle s'.io)

theorem Steady.endsClean {s s' : Ash} (h : Steady s s') (hs : Clean s) : EndsClean s s' :=
  ⟨h.clean hs, fun hidle => hidle.of_same h.stdin⟩

/-- Pointing a descriptor elsewhere drops what was read ahead from descriptor 0. -/
theorem wp_redirectTo (fd newfd : ℕ) {s : Ash} (hs : Clean s) :
    (redirectTo fd newfd).wp (fun _ s' => EndsClean s s') (fun _ s' => EndsClean s s') s := by
  rw [redirectTo, Program.wp_bind]
  apply Program.wp_mono (wp_saveFdOnRedirect fd (some newfd) s)
  · intro _ s₁ hsteady
    rw [Program.wp_bind, Program.wp_read]
    split
    · exact (hsteady.trans (steady_raise s₁)).endsClean hs
    · simp only [Program.wp_bind, dup2OrRaise, Program.wp_read]
      cases hnew : s₁.io.fds.get newfd with
      | none =>
        rw [Io.dup2_of_closed hnew]
        exact (hsteady.trans (steady_raise s₁)).endsClean hs
      | some d =>
        rw [Io.dup2_of_open hnew]
        by_cases hfd : fd = 0
        · simp only [hfd, if_true]
          exact ⟨⟨Or.inl (idle_purge _), hsteady.high hs.high⟩, fun _ => idle_purge _⟩
        · simp only [hfd, if_false]
          have hzero : (s₁.io.fds.set fd (some d)).get 0 = s.io.fds.get 0 :=
            (Table.get_set_of_ne _ (Ne.symm hfd) _).trans hsteady.zero
          exact Steady.endsClean ⟨hsteady.stdin, hzero, hsteady.high⟩ hs
  · intro e s₁ hsteady
    exact hsteady.endsClean hs

theorem EndsClean.trans {s t u : Ash} (h : EndsClean s t) (h' : EndsClean t u) : EndsClean s u :=
  ⟨h'.1, fun hidle => h'.2 (h.2 hidle)⟩

theorem clean_addSquirrelClosed (fd : ℕ) {s : Ash} (hs : Clean s) :
    (addSquirrelClosed fd).wp (fun _ s' => EndsClean s s') (fun _ s' => EndsClean s s') s := by
  rw [addSquirrelClosed, Program.wp_modify]
  split
  · exact ⟨hs, id⟩
  · rename_i sq tabs hlist
    split_ifs
    · exact ⟨hs, id⟩
    · refine ⟨⟨hs.own, fun rp hrp q hq => ?_⟩, id⟩
      rcases List.mem_cons.mp hrp with rfl | hrp
      · rcases List.mem_append.mp hq with hq | hq
        · exact hs.high sq (by rw [hlist]; exact List.mem_cons_self) q hq
        · rw [List.mem_singleton.mp hq]
          simp
      · exact hs.high rp (by rw [hlist]; exact List.mem_cons_of_mem _ hrp) q hq

/-- Closing a descriptor other than 0, or any one when nothing is read ahead. -/
theorem clean_close {s : Ash} {fd : ℕ} (hs : Clean s) (hfd : fd = 0 → Idle s.io) :
    EndsClean s { s with io := s.io.close fd } := by
  by_cases h : fd = 0
  · have hidle : Idle (s.io.close fd) := (hfd h).of_same rfl
    exact ⟨⟨Or.inl hidle, hs.high⟩, fun _ => hidle⟩
  · have hzero : (s.io.close fd).fds.get 0 = s.io.fds.get 0 := Table.get_set_of_ne _ (Ne.symm h) _
    exact Steady.endsClean ⟨rfl, hzero, id⟩ hs

/-- One redirection, where `<&-` finds nothing read ahead. -/
theorem wp_redirect1 {r : Redir} {s : Ash} (hs : Clean s)
    (hclose : r.fd = 0 → r.source = .close → Idle s.io) :
    (redirect1 r).wp (fun _ s' => Clean s') (fun _ s' => Clean s') s := by
  rw [redirect1]
  simp only [Program.wp_bind, Program.wp_read]
  cases hsource : r.source with
  | here => exact (steady_raise s).clean hs
  | file path access =>
    dsimp only
    split
    · exact (steady_raise s).clean hs
    · rename_i newfd io hopen
      obtain ⟨hown, hzero, -⟩ := hs.own.openFile hopen
      have hs₁ : Clean { s with io := io } := ⟨hown, hs.high⟩
      rw [Program.wp_bind, Program.wp_modify]
      split_ifs with hfd
      · apply Program.wp_mono (clean_addSquirrelClosed r.fd hs₁)
        · exact fun _ s₂ h => h.1
        · exact fun _ s₂ h => h.1
      · rw [Program.wp_bind]
        apply Program.wp_mono (wp_redirectTo r.fd newfd hs₁)
        · -- descriptor 0 is closed only if it has been redirected, and then nothing is read ahead
          intro _ s₂ h
          exact (clean_close h.1 fun h0 => h.2 (hzero h0)).1
        · exact fun _ s₂ h => h.1
  | dup newfd =>
    dsimp only
    split_ifs with hfd
    · exact hs
    · apply Program.wp_mono (wp_redirectTo r.fd newfd hs)
      · exact fun _ s₂ h => h.1
      · exact fun _ s₂ h => h.1
  | close =>
    rw [Program.wp_bind]
    apply Program.wp_mono (wp_saveFdOnRedirect r.fd none s)
    · intro closed s₁ hsteady
      split
      · exact hsteady.clean hs
      · exact (clean_close (hsteady.clean hs) fun h0 =>
          (hclose h0 hsource).of_same hsteady.stdin).1
    · exact fun _ s₁ hsteady => hsteady.clean hs

/-! ## Undoing -/

/-- The slots are put back one by one; descriptor 0 changes only where a slot is of it. -/
theorem wp_popSlots (drop : Bool) (rp : Redirtab) (s : Ash) :
    let Ends := fun s' : Ash => s'.redirlist = s.redirlist ∧ s'.io.stdin = s.io.stdin ∧
      ((∀ q ∈ rp, q.movedTo ≠ some 0 ∧ (drop = false → q.origFd ≠ 0)) →
        s'.io.fds.get 0 = s.io.fds.get 0)
    (popSlots drop rp).wp (fun _ s' => Ends s') (fun _ s' => Ends s') s := by
  intro Ends
  induction rp generalizing s with
  | nil => exact ⟨rfl, rfl, fun _ => rfl⟩
  | cons q rp ih =>
    -- what a first slot does, and then the rest
    have hrest : ∀ s₁ : Ash, s₁.redirlist = s.redirlist → s₁.io.stdin = s.io.stdin →
        ((q.movedTo ≠ some 0 ∧ (drop = false → q.origFd ≠ 0)) →
          s₁.io.fds.get 0 = s.io.fds.get 0) →
        (popSlots drop rp).wp (fun _ s' => Ends s') (fun _ s' => Ends s') s₁ := by
      intro s₁ hlist hstdin hzero
      have hmono : ∀ s', (s'.redirlist = s₁.redirlist ∧ s'.io.stdin = s₁.io.stdin ∧
          ((∀ q ∈ rp, q.movedTo ≠ some 0 ∧ (drop = false → q.origFd ≠ 0)) →
            s'.io.fds.get 0 = s₁.io.fds.get 0)) → Ends s' := by
        rintro s' ⟨hlist', hstdin', hzero'⟩
        refine ⟨hlist'.trans hlist, hstdin'.trans hstdin, fun hall => ?_⟩
        exact (hzero' fun q' hq' => hall q' (List.mem_cons_of_mem _ hq')).trans
          (hzero (hall q List.mem_cons_self))
      exact Program.wp_mono (ih s₁) (fun _ s' => hmono s') (fun _ s' => hmono s')
    have hclosed : ∀ (t : Table ℕ) (fd : ℕ), fd ≠ 0 → (t.set fd none).get 0 = t.get 0 :=
      fun t fd hfd => Table.get_set_of_ne t hfd.symm none
    rw [popSlots]
    cases hmoved : q.movedTo with
    | none =>
      cases drop with
      | true => exact hrest s rfl rfl fun _ => rfl
      | false => exact hrest _ rfl rfl fun h => hclosed _ _ (h.2 rfl)
    | some copy =>
      have hcopy : q.movedTo ≠ some 0 → copy ≠ 0 := by
        rintro h rfl
        exact h hmoved
      cases drop with
      | true => exact hrest _ rfl rfl fun h => hclosed _ _ (hcopy h.1)
      | false =>
        simp only [Program.wp_bind, dup2OrRaise, Program.wp_read, Bool.false_eq_true, if_false]
        cases hopen : s.io.fds.get copy with
        | none =>
          rw [Io.dup2_of_closed hopen]
          refine ⟨rfl, Io.fflushAll_stdin s.io, fun _ => ?_⟩
          rw [Io.fflushAll_fds]
        | some d =>
          rw [Io.dup2_of_open hopen]
          refine hrest _ rfl rfl fun h => ?_
          exact (hclosed _ _ (hcopy h.1)).trans (Table.get_set_of_ne _ (h.2 rfl).symm _)

/-- `popredir`, where a descriptor 0 that is put back finds nothing read ahead. -/
theorem wp_popredir {drop : Bool} {s : Ash} (hs : Clean s)
    (hzero : drop = false → (∃ q ∈ s.redirlist.headD [], q.origFd = 0) → Idle s.io) :
    (popredir drop).wp (fun _ s' => Clean s') (fun _ s' => Clean s') s := by
  rw [popredir]
  simp only [Program.wp_bind, Program.wp_read]
  cases hlist : s.redirlist with
  | nil => exact hs
  | cons rp tabs =>
    have hclean : ∀ s' : Ash, (s'.redirlist = s.redirlist ∧ s'.io.stdin = s.io.stdin ∧
        ((∀ q ∈ rp, q.movedTo ≠ some 0 ∧ (drop = false → q.origFd ≠ 0)) →
          s'.io.fds.get 0 = s.io.fds.get 0)) → Own s'.io := by
      rintro s' ⟨-, hstdin, hsame⟩
      by_cases h0 : drop = false ∧ ∃ q ∈ rp, q.origFd = 0
      · obtain ⟨hdrop, q, hq, horig⟩ := h0
        apply Or.inl
        apply Idle.of_same (hzero hdrop ⟨q, _, horig⟩) hstdin
        rwa [hlist]
      · refine hs.own.of_same hstdin (hsame fun q hq => ⟨?_, fun hdrop horig => ?_⟩)
        · exact hs.high rp (by rw [hlist]; exact List.mem_cons_self) q hq
        · exact h0 ⟨hdrop, q, hq, horig⟩
    rw [Program.wp_bind]
    apply Program.wp_mono (wp_popSlots drop rp s)
    · intro _ s' h
      refine ⟨hclean s' h, fun rp' hrp' => ?_⟩
      exact hs.high rp' (by rw [hlist]; exact List.mem_cons_of_mem _ hrp')
    · intro _ s' h
      refine ⟨hclean s' h, ?_⟩
      rw [HighCopies, h.1]
      exact hs.high

/-! ## Stages -/

/-- The copies that a stage has made. -/
def Stage.High (stage : Stage) : Prop := stage.save0 ≠ some 0 ∧ stage.save1 ≠ some 0

/-- A stage is entered with nothing read ahead. -/
theorem wp_enterStage (prevfd outfd : Option ℕ) (tmp : Option Text) {s : Ash} (hs : HighCopies s)
    (E : Stop → Ash → Prop) :
    (enterStage prevfd outfd tmp).wp (fun stage s' => Clean s' ∧ stage.High) E s := by
  obtain ⟨-, -, hsave0⟩ := dupfd_steady s.io 0 (by decide : 0 < 10)
  obtain ⟨-, -, hsave1⟩ := dupfd_steady (s.io.dupfd 0 10).2 1 (by decide : 0 < 10)
  exact ⟨⟨Or.inl (idle_purge _), hs⟩, hsave0, hsave1⟩

/-- A stage is entered, or its file cannot be made. -/
theorem wp_beginStage (prevfd : Option ℕ) (last : Bool) {s : Ash} (hs : HighCopies s) :
    (beginStage prevfd last).wp (fun stage s' => Clean s' ∧ stage.High)
      (fun _ s' => s'.io.stdin = s.io.stdin ∧ HighCopies s' ∧ last = false ∧
        s.io.creatable (nextTmp s) = false ∧
        (prevfd = none → s'.io.fds.get 0 = s.io.fds.get 0)) s := by
  rw [beginStage]
  split
  · exact wp_enterStage prevfd none none hs _
  · rename_i hlast
    simp only [Program.wp_bind, openTmp, Program.wp_modify, Program.wp_read]
    split
    · rw [Program.wp_bind, Program.wp_modify, Program.wp_pure]
      apply wp_enterStage
      exact hs
    · rename_i hopen
      have hcreate : s.io.creatable (nextTmp s) = false := by
        cases h : s.io.creatable (nextTmp s) with
        | false => rfl
        | true =>
          have hsome := Io.openFile_isSome h (rfl : wronlyTrunc.creates = true)
          rw [hopen] at hsome
          exact absurd hsome (by simp)
      refine ⟨?_, hs, by simpa using hlast, hcreate, ?_⟩
      · refine (Io.fflushAll_stdin _).trans ?_
        cases prevfd with
        | none => rfl
        | some fd => rfl
      · rintro rfl
        exact congrArg (Table.get · 0) (Io.fflushAll_fds _)

/-- The end of a stage: the stream stays as it is. -/
theorem wp_endStage (stage : Stage) (s : Ash) (E : Stop → Ash → Prop) :
    (endStage stage).wp (fun _ s' => s'.io.stdin = s.io.stdin ∧ s'.redirlist = s.redirlist ∧
      s'.pipeseq = s.pipeseq ∧ s'.io.creatable = s.io.creatable ∧
      (stage.save0 = none → stage.save1 ≠ some 0 → stage.tmp = none →
        s'.io.fds.get 0 = s.io.fds.get 0)) E s := by
  -- what the flush and the two moves leave
  have hstdin : ((s.io.fflushAll.moveFd stage.save0 0).moveFd stage.save1 1).stdin = s.io.stdin := by
    rw [Io.moveFd_stdin, Io.moveFd_stdin, Io.fflushAll_stdin]
  have hcreate : ((s.io.fflushAll.moveFd stage.save0 0).moveFd stage.save1 1).creatable =
      s.io.creatable := by
    rw [Io.moveFd_creatable, Io.moveFd_creatable, Io.fflushAll_creatable]
  rw [endStage, Program.wp_bind, onIo, Program.wp_modify]
  cases htmp : stage.tmp with
  | none =>
    refine ⟨hstdin, rfl, rfl, hcreate, fun hsave0 hsave1 _ => ?_⟩
    exact (Io.moveFd_get_of_ne hsave1 (by decide)).trans
      (by rw [hsave0, Io.moveFd, Io.fflushAll_fds])
  | some tmp =>
    simp only [Program.wp_bind, Program.wp_read, Program.wp_modify, Program.wp_pure, Io.reopen]
    refine ⟨?_, trivial, trivial, ?_, fun _ _ h => absurd h (by simp)⟩
    · split
      · rename_i hopen
        exact ((Io.openFile_cases hopen).2.2.1).trans hstdin
      · exact hstdin
    · split
      · rename_i hopen
        exact ((Io.openFile_cases hopen).2.2.2.2).trans hcreate
      · exact hcreate

/-! ## Runs -/

/-- A shell with the stages it is in, the innermost first. -/
structure Reader where
  ash : Ash
  stages : List Stage

inductive StdinStep where
  | pushredir
  | redirect (r : Redir)
  | popredir (drop : Bool)
  /-- The first stage of a pipeline begins. -/
  | firstStage (last : Bool)
  /-- A stage has returned and the next one begins. -/
  | nextStage (last : Bool)
  /-- The last stage has returned. -/
  | endPipe
  /-- A stage is left by a `longjmp`. -/
  | longjmp
  /-- A command reads, writes or does something else. -/
  | op (o : Op)

/-- A stage that has been entered is the innermost one. -/
def Reader.enter (stages : List Stage) : Except Stop Stage × Ash → Reader
  | (.ok stage, s) => ⟨s, stage :: stages⟩
  | (.error _, s) => ⟨s, stages⟩

def stdinStep (t : Reader) : StdinStep → Option Reader
  | .pushredir => some { t with ash := { t.ash with redirlist := [] :: t.ash.redirlist } }
  | .redirect r => some { t with ash := (redirect1 r t.ash).2 }
  | .popredir drop => some { t with ash := (popredir drop t.ash).2 }
  | .firstStage last => some (Reader.enter t.stages (beginStage none last t.ash))
  | .nextStage last =>
    match t.stages with
    | [] => none
    | stage :: rest =>
      if stage.tmp = none then none
      else some (Reader.enter rest ((endStage stage >>= (beginStage · last)) t.ash))
  | .endPipe =>
    match t.stages with
    | [] => none
    | stage :: rest => if stage.tmp = none then some ⟨(endStage stage t.ash).2, rest⟩ else none
  | .longjmp =>
    match t.stages with
    | [] => none
    | _ :: rest => some { t with stages := rest }
  | .op o => some { t with ash := { t.ash with io := t.ash.io.run o } }

/-- A shell between commands. -/
def reader (s : Ash) : Reader := ⟨{ s with redirlist := [], io := s.io.purge }, []⟩

/-- Where descriptor 0 is put back or closed, nothing is read ahead and no end of file noted. -/
def Drained (t : Reader) : StdinStep → Prop
  | .popredir drop =>
    drop = false → (∃ q ∈ t.ash.redirlist.headD [], q.origFd = 0) → Idle t.ash.io
  | .redirect r => r.fd = 0 → r.source = .close → Idle t.ash.io
  | .endPipe => (∃ stage ∈ t.stages.head?, stage.save0 ≠ none) → Idle t.ash.io
  | .nextStage last =>
    -- the stages are put back, and the next one does not begin
    last = false → t.ash.io.creatable (nextTmp t.ash) = false → Idle t.ash.io
  | _ => True

structure ReaderInv (t : Reader) : Prop extends Clean t.ash where
  stages : ∀ stage ∈ t.stages, stage.High

/-- What holds however a program ends. -/
theorem wp_snd {α : Type} {m : Sh α} {P : Ash → Prop} {s : Ash}
    (h : m.wp (fun _ s' => P s') (fun _ s' => P s') s) : P (m s).2 := by
  rw [Program.wp] at h
  split at h
  · rename_i hm
    rw [hm]
    exact h
  · rename_i hm
    rw [hm]
    exact h

theorem ReaderInv.enter {stages : List Stage} {m : Sh Stage} {s : Ash}
    (hstages : ∀ stage ∈ stages, stage.High)
    (h : m.wp (fun stage s' => Clean s' ∧ stage.High) (fun _ s' => Clean s') s) :
    ReaderInv (Reader.enter stages (m s)) := by
  rw [Program.wp] at h
  split at h
  · rename_i stage s' hm
    rw [hm]
    refine ⟨h.1, fun stage' hmem => ?_⟩
    rcases List.mem_cons.mp hmem with rfl | hmem
    · exact h.2
    · exact hstages stage' hmem
  · rename_i e s' hm
    rw [hm]
    exact ⟨h, hstages⟩

/-- **One step**: readers keep getting their own. -/
theorem readerInv_step {t t' : Reader} {a : StdinStep} (h : ReaderInv t) (ha : Drained t a)
    (hstep : stdinStep t a = some t') : ReaderInv t' := by
  cases a with
  | pushredir =>
    cases hstep
    refine ⟨⟨h.own, fun rp hrp => ?_⟩, h.stages⟩
    rcases List.mem_cons.mp hrp with rfl | hrp
    · exact fun q hq => absurd hq List.not_mem_nil
    · exact h.high rp hrp
  | redirect r =>
    cases hstep
    exact ⟨wp_snd (wp_redirect1 h.toClean ha), h.stages⟩
  | popredir drop =>
    cases hstep
    exact ⟨wp_snd (wp_popredir h.toClean ha), h.stages⟩
  | firstStage last =>
    cases hstep
    apply ReaderInv.enter h.stages
    apply Program.wp_mono (wp_beginStage none last h.high)
    · exact fun stage s' hs' => hs'
    · rintro e s' ⟨hstdin, hhigh, -, -, hzero⟩
      exact ⟨h.own.of_same hstdin (hzero rfl), hhigh⟩
  | nextStage last =>
    rw [stdinStep] at hstep
    split at hstep
    · cases hstep
    · rename_i stage rest hstages
      split_ifs at hstep
      cases hstep
      have hrest : ∀ stage' ∈ rest, stage'.High := fun stage' hmem =>
        h.stages stage' (by rw [hstages]; exact List.mem_cons_of_mem _ hmem)
      apply ReaderInv.enter hrest
      rw [Program.wp_bind]
      apply Program.wp_mono (wp_endStage stage t.ash fun _ _ => False)
      · rintro prevfd s₁ ⟨hstdin, hlist, hseq, hcreatable, -⟩
        have hhigh : HighCopies s₁ := by
          rw [HighCopies, hlist]
          exact h.high
        apply Program.wp_mono (wp_beginStage prevfd last hhigh)
        · exact fun stage s' hs' => hs'
        · rintro e s' ⟨hstdin', hhigh', hlast, hfail, -⟩
          -- not entered: the stream is idle from before
          have hnext : t.ash.io.creatable (nextTmp t.ash) = false := by
            rwa [hcreatable, nextTmp, hseq] at hfail
          exact ⟨Or.inl ((ha hlast hnext).of_same (hstdin'.trans hstdin)), hhigh'⟩
      · exact fun _ _ hfalse => hfalse.elim
  | endPipe =>
    rw [stdinStep] at hstep
    split at hstep
    · cases hstep
    · rename_i stage rest hstages
      split_ifs at hstep with htmp
      cases hstep
      have hmem : stage ∈ t.stages := by
        rw [hstages]
        exact List.mem_cons_self
      refine ⟨?_, fun stage' hmem' =>
        h.stages stage' (by rw [hstages]; exact List.mem_cons_of_mem _ hmem')⟩
      apply wp_snd (P := fun s' => Clean s')
      apply Program.wp_mono (wp_endStage stage t.ash fun _ s' => Clean s')
      · rintro - s' ⟨hstdin, hlist, -, -, hzero⟩
        have hhigh : HighCopies s' := by
          rw [HighCopies, hlist]
          exact h.high
        by_cases hsave : stage.save0 = none
        · exact ⟨h.own.of_same hstdin (hzero hsave (h.stages stage hmem).2 htmp), hhigh⟩
        · have hidle : Idle t.ash.io := ha ⟨stage, by rw [hstages]; rfl, hsave⟩
          exact ⟨Or.inl (hidle.of_same hstdin), hhigh⟩
      · exact fun _ s' hs' => hs'
  | longjmp =>
    rw [stdinStep] at hstep
    split at hstep
    · cases hstep
    · rename_i stage rest hstages
      cases hstep
      exact ⟨h.toClean, fun stage' hmem =>
        h.stages stage' (by rw [hstages]; exact List.mem_cons_of_mem _ hmem)⟩
  | op o =>
    cases hstep
    exact ⟨⟨h.own.run o, h.high⟩, h.stages⟩

/-- **Readers over runs**: wherever descriptor 0 is put back or closed with nothing read ahead and
no end of file noted, every byte and every end of file that a reader gets is of the description
that descriptor 0 denotes. -/
theorem delivered_own (s : Ash) (run : List StdinStep)
    (hrun : ∀ t a, Takes stdinStep (reader s) run t a → Drained t a) (t : Reader)
    (ht : Visits stdinStep (reader s) run t) : DeliversOwn t.ash.io := by
  have hstart : ReaderInv (reader s) :=
    { own := Or.inl (idle_purge _), high := fun rp hrp => absurd hrp List.not_mem_nil,
      stages := fun stage hmem => absurd hmem List.not_mem_nil }
  have hkeep : ∀ t a t', ReaderInv t → Drained t a → stdinStep t a = some t' → ReaderInv t' :=
    fun t a t' hinv ha hstep => readerInv_step hinv ha hstep
  exact (inv_of_visits hkeep hstart hrun ht).own.deliversOwn

/-- `echo h | read x`. -/
def echoRead : List StdinStep :=
  [.firstStage false, .op (.write 1 [104, 10]), .nextStage true, .op .getc]

theorem delivered_own_echoRead :
    ∃ t, runSteps stdinStep (reader (Ash.start (Io.start [] []))) echoRead = some t ∧
      DeliversOwn t.ash.io := by
  have hend : (runSteps stdinStep (reader (Ash.start (Io.start [] []))) echoRead).isSome := by
    decide +kernel
  obtain ⟨t, ht⟩ := Option.isSome_iff_exists.mp hend
  refine ⟨t, ht, delivered_own _ echoRead ?_ t ⟨echoRead, List.prefix_rfl, ht⟩⟩
  intro t' a htakes
  have hmem := mem_of_takes htakes
  simp only [echoRead, List.mem_cons, List.not_mem_nil, or_false] at hmem
  rcases hmem with rfl | rfl | rfl | rfl
  · trivial
  · trivial
  · exact fun hlast => absurd hlast (by decide)
  · trivial

/-- `head -n 1 <a; head -n 1`. -/
def headTwice : List StdinStep :=
  [.pushredir, .redirect ⟨0, .file "a".toList rdonly⟩, .op .getc, .op .getc, .popredir false]

/-- The second one gets the rest of the file. -/
theorem not_delivered_headTwice :
    ∃ t, Visits stdinStep (reader (Ash.start (Io.start [120, 10] [("a".toList, [49, 10, 50, 10])])))
      headTwice t ∧ ¬ DeliversOwn t.ash.io := by
  have hend : (runSteps stdinStep
      (reader (Ash.start (Io.start [120, 10] [("a".toList, [49, 10, 50, 10])]))) headTwice).map
        (fun t => (t.ash.io.getc.1, t.ash.io.fds.get 0)) = some (.byte 50 2, some 0) := by
    decide +kernel
  obtain ⟨t, hrun, ht⟩ := Option.map_eq_some_iff.mp hend
  obtain ⟨hgetc, hzero⟩ := Prod.mk.inj ht
  refine ⟨t, ⟨headTwice, List.prefix_rfl, hrun⟩, fun hown => ?_⟩
  have hsame := hown 2 (by rw [hgetc]; rfl)
  rw [hzero] at hsame
  exact absurd hsame (by decide)

end OsMoap.Shell
