import OsMoap.Shell.Containment
import OsMoap.Shell.Delivery
import OsMoap.Shell.Stdin

/-!
# The Flow of Data Through Pipelines

Each stage of a pipeline reads what the stage before it has written, from the beginning and to the
end, and nothing else writes to that file.  A run is *orderly* if its commands respect the
descriptors that are held for the shell and the files of stages and substitutions, its pipelines and
substitutions find their names free, and the stages of its pipelines return, to any depth.
-/

namespace OsMoap.Shell

open OsMoap.Lib OsMoap.Pack

/-! ## States that respect one another -/

/-- Names and descriptions lead to files, and descriptors to descriptions. -/
structure Io.Sound (io : Io) : Prop extends io.Valid where
  fds : ∀ n d, io.fds.get n = some d → d < io.descs.length

/-- The descriptors that are held denote what they did, and files of stages and substitutions have
been left alone. -/
structure Respects (held : List ℕ) (s s' : Ash) : Prop where
  held : ∀ n ∈ held, s'.io.fds.get n = s.io.fds.get n
  sound : s.io.Sound → s'.io.Sound
  quiet : Quiet s.io s'.io
  remain : Remain s.io s'.io
  names : SameReserved s.io s'.io

/-- Ready for pipelines and substitutions, with these descriptors held. -/
structure Ready (held : List ℕ) (s : Ash) : Prop where
  sound : s.io.Sound
  tmp : TmpWritable s.io
  isOpen : ∀ n ∈ held, 1 < n ∧ s.io.fds.get n ≠ none

theorem Remain.length_le {io io' : Io} (h : Remain io io') : io.descs.length ≤ io'.descs.length := by
  by_contra hlt
  push Not at hlt
  obtain ⟨desc', hd', -⟩ := h io'.descs.length _ (List.getElem?_eq_getElem hlt)
  rw [List.getElem?_eq_none le_rfl] at hd'
  cases hd'

/-- No descriptor leads to anything new. -/
theorem Io.Sound.of_leads {io io' : Io} (h : io.Sound) (hvalid : io'.Valid) (hremain : Remain io io')
    (hleads : ∀ n d, io'.fds.get n = some d → ∃ m, io.fds.get m = some d) : io'.Sound := by
  refine ⟨hvalid, fun n d hn => ?_⟩
  obtain ⟨m, hm⟩ := hleads n d hn
  exact (h.fds m d hm).trans_le hremain.length_le

namespace Respects

variable {held : List ℕ} {s s' s'' : Ash}

theorem of_io (h : s'.io = s.io) : Respects held s s' where
  held n _ := by rw [h]
  sound hs := by rwa [h]
  quiet := by rw [h]; exact Quiet.refl s.io
  remain := Remain.of_descs (by rw [h])
  names path _ := by rw [h]

theorem trans (h : Respects held s s') (h' : Respects held s' s'') : Respects held s s'' where
  held n hn := (h'.held n hn).trans (h.held n hn)
  sound hs := h'.sound (h.sound hs)
  quiet := h.quiet.trans h'.quiet
  remain := h.remain.trans h'.remain
  names path hpath := (h'.names path hpath).trans (h.names path hpath)

theorem ready (h : Respects held s s') (hs : Ready held s) : Ready held s' where
  sound := h.sound hs.sound
  tmp n := by
    rw [h.quiet.creatable]
    exact hs.tmp n
  isOpen n hn := by
    rw [h.held n hn]
    exact hs.isOpen n hn

end Respects

/-! ## Orderly runs -/

/-- Descriptor 1 is the only one, of those that are not put back, that leads where it led. -/
def NoCopyLeft (s s' : Ash) : Prop := ∀ n, 1 < n → s'.io.fds.get n ≠ s.io.fds.get 1

/-- The copies that are held while a stage runs. -/
def Stage.copies (frame : Stage) : List ℕ := frame.save0.toList ++ frame.save1.toList

mutual

/-- The run of a program from a state is orderly. -/
inductive Orderly : {α : Type} → List ℕ → Sh α → Ash → Prop where
  /-- A command that respects what the shell holds, however it ends. -/
  | command {α : Type} {held : List ℕ} {m : Sh α} {s : Ash} (h : Respects held s (m s).2) :
      Orderly held m s
  | bind {α β : Type} {held : List ℕ} {m : Sh α} {f : α → Sh β} {s : Ash} (hm : Orderly held m s)
      (hf : ∀ a s', m s = (.ok a, s') → Orderly held (f a) s') : Orderly held (m >>= f) s
  | setjmp {α : Type} {held : List ℕ} {n : Sh α} {s : Ash} (h : Orderly held n s) :
      Orderly held (setjmp n) s
  /-- A substitution that finds its name free and whose command does not end the process. -/
  | subst {held : List ℕ} {n : Sh UInt8} {s : Ash} (hzero : s.io.fds.get 0 ≠ none)
      (hcapture : Capturable s) (hfree : s.io.names (capturePath .subst s.depth) = none)
      (hends : ∃ r t, Shell.setjmp n (nestedState s) = (.ok r, t))
      (h : Orderly (captureFd s :: parkedFd s :: held) n (nestedState s)) :
      Orderly held (expbackq n) s
  | pipe {held : List ℕ} {stages : List (Sh UInt8)} {s : Ash} (hzero : s.io.fds.get 0 ≠ none)
      (hone : s.io.fds.get 1 ≠ none) (h : OrderlyStages held none s stages) :
      Orderly held (evalpipe stages) s

/-- The stages that are left of a pipeline find their names free and return without a copy of
descriptor 1, and what runs in them is orderly. -/
inductive OrderlyStages : List ℕ → Option ℕ → Ash → List (Sh UInt8) → Prop where
  | nil {held : List ℕ} {prevfd : Option ℕ} {s : Ash} : OrderlyStages held prevfd s []
  | cons {held : List ℕ} {prevfd : Option ℕ} {s : Ash} {stage : Sh UInt8} {rest : List (Sh UInt8)}
      (hfree : rest ≠ [] → s.io.names (nextTmp s) = none)
      (hstage : ∀ frame s₁, beginStage prevfd rest.isEmpty s = (.ok frame, s₁) →
        Orderly (frame.copies ++ held) stage s₁)
      (hreturns : ∀ frame s₁, beginStage prevfd rest.isEmpty s = (.ok frame, s₁) →
        ∃ status s₂, stage s₁ = (.ok status, s₂) ∧ (rest ≠ [] → NoCopyLeft s₁ s₂))
      (hrest : ∀ frame s₁ status s₂ prevfd' s₃, beginStage prevfd rest.isEmpty s = (.ok frame, s₁) →
        stage s₁ = (.ok status, s₂) → endStage frame s₂ = (.ok prevfd', s₃) →
          OrderlyStages held prevfd' s₃ rest) :
      OrderlyStages held prevfd s (stage :: rest)

end

/-! ## Files that nothing can change -/

/-- The file holds these bytes, has no name, and no descriptor leads to what could write to it. -/
structure Sealed (io : Io) (ino : ℕ) (bs : Bytes) : Prop where
  writer : ∃ (d : ℕ) (desc : Description), io.descs[d]? = some desc ∧ desc.wrote = bs ∧
    Fed io d ino ∧ Detached io d
  names : ∀ path, io.names path ≠ some ino

theorem Sealed.contents {io : Io} {ino : ℕ} {bs : Bytes} (h : Sealed io ino bs) :
    io.contents ino = bs := by
  obtain ⟨d, desc, hd, hwrote, hfed, -⟩ := h.writer
  obtain ⟨desc', hd', -, -, -, hwrote'⟩ := hfed.writer
  obtain rfl := Option.some.inj (hd.symm.trans hd')
  rw [← hwrote', hwrote]

/-- What is quiet keeps the file, if it gives it no name. -/
theorem Sealed.quiet {io io' : Io} {ino : ℕ} {bs : Bytes} (h : Sealed io ino bs)
    (hvalid : io.Valid) (hquiet : Quiet io io') (hnames : ∀ path, io'.names path ≠ some ino) :
    Sealed io' ino bs := by
  obtain ⟨d, desc, hd, hwrote, hfed, hdetached⟩ := h.writer
  obtain ⟨hd', hdetached'⟩ := hquiet.detached d desc hd hdetached
  exact ⟨⟨d, desc, hd', hwrote, hquiet.fed hvalid d ino hfed, hdetached'⟩, hnames⟩

/-- A reserved name is all that the file could get. -/
theorem Sealed.respects {held : List ℕ} {s s' : Ash} {ino : ℕ} {bs : Bytes}
    (h : Sealed s.io ino bs) (hvalid : s.io.Valid) (hrespects : Respects held s s') :
    Sealed s'.io ino bs := by
  apply h.quiet hvalid hrespects.quiet
  intro path hpath
  obtain ⟨d, desc, hd, -, hfed, -⟩ := h.writer
  have hreserved := (hrespects.quiet.fed hvalid d ino hfed).names path hpath
  rw [hrespects.names path hreserved] at hpath
  exact h.names path hpath

/-- The descriptor is at the beginning of a file with these bytes. -/
def Offers (io : Io) (n : ℕ) (bs : Bytes) : Prop :=
  ∃ dp ino, io.fds.get n = some dp ∧ io.descs[dp]? = some ⟨ino, 0, rdonly, []⟩ ∧ Sealed io ino bs

/-! ## The flow -/

/-- A stage entered in `io` and left in `io'` has these bytes to read on descriptor 0, then the end
of the file, and nothing read ahead. -/
def Reads (io io' : Io) (bs : Bytes) : Prop :=
  Idle io ∧ ∃ dp ino, io.fds.get 0 = some dp ∧ io.descs[dp]? = some ⟨ino, 0, rdonly, []⟩ ∧
    Sealed io ino bs ∧ Sealed io' ino bs

/-- What has been written through a description, flushed or not. -/
def writtenBy (io : Io) (d : ℕ) : Bytes := (io.fflushAll.descs[d]?).elim [] Description.wrote

/-- From stage to stage: the first one has descriptor 0 of the pipeline, each other one reads what
was written by the one before it, and the last one has descriptor 1 and gives the status. -/
def Flows (outer0 outer1 : ℕ) (final : UInt8) (input : Option Bytes) (prevfd : Option ℕ) (s : Ash) :
    List (Sh UInt8) → Prop
  | [] => True
  | stage :: rest => ∃ frame s₁ status s₂ prevfd' s₃ out,
      beginStage prevfd rest.isEmpty s = (.ok frame, s₁) ∧ stage s₁ = (.ok status, s₂) ∧
      endStage frame s₂ = (.ok prevfd', s₃) ∧ s₁.io.stdout = [] ∧
      input.elim (s₁.io.fds.get 0 = some outer0) (Reads s₁.io s₂.io) ∧
      s₁.io.fds.get 1 = some out ∧ (rest = [] → out = outer1 ∧ final = s₂.exitstatus) ∧
      (rest ≠ [] → writtenBy s₁.io out = []) ∧
      Flows outer0 outer1 final (some (writtenBy s₂.io out)) prevfd' s₃ rest

/-- No stage changes the descriptor. -/
def StagesLeave (n : ℕ) (prevfd : Option ℕ) (s : Ash) : List (Sh UInt8) → Prop
  | [] => True
  | stage :: rest => ∀ frame s₁ status s₂ prevfd' s₃,
      beginStage prevfd rest.isEmpty s = (.ok frame, s₁) → stage s₁ = (.ok status, s₂) →
        endStage frame s₂ = (.ok prevfd', s₃) →
          s₂.io.fds.get n = s₁.io.fds.get n ∧ StagesLeave n prevfd' s₃ rest

/-- **Data flow** of a pipeline: from stage to stage, with the status of the last one.  Afterwards
descriptors 0 and 1 are what they were, and so are the others, except what the stages themselves have
done to them; the names of stage files are as before. -/
def Piped (stages : List (Sh UInt8)) (s : Ash) : Prop :=
  ∃ outer0 outer1 status s', s.io.fds.get 0 = some outer0 ∧ s.io.fds.get 1 = some outer1 ∧
    evalpipe stages s = (.ok status, s') ∧ Flows outer0 outer1 status none none s stages ∧
    s'.io.fds.get 0 = some outer0 ∧ s'.io.fds.get 1 = some outer1 ∧
    (∀ n, StagesLeave n none s stages → s'.io.fds.get n = s.io.fds.get n) ∧
    ∀ n, s'.io.names (capturePath .pipe n) = s.io.names (capturePath .pipe n)

/-! ## New files -/

/-- What opening a free name gives. -/
structure Created (io : Io) (path : Text) (access : Access) (io' : Io) : Prop where
  quiet : Quiet io io'
  descs : io'.descs = io.descs ++ [⟨io.data.length, 0, access, []⟩]
  names : io'.names = Function.update io.names path (some io.data.length)
  fed : Fed io' io.descs.length io.data.length

theorem created {io io' : Io} {path : Text} {access : Access} {fd : ℕ} (hvalid : io.Valid)
    (hreserved : reserved path = true) (happends : access.appends = false)
    (hfree : io.names path = none) (h : io.openFile path access = some (fd, io')) :
    Created io path access io' := by
  have hquiet := Quiet.openFile h fun _ => Or.inl hfree
  simp only [Io.openFile, hfree] at h
  split_ifs at h
  cases h
  refine ⟨hquiet, rfl, rfl, ⟨⟨_, List.getElem?_concat_length, rfl, happends, ?_, ?_⟩, ?_, ?_⟩⟩
  · simp [Io.contents]
  · simp [Io.contents]
  · intro d desc hne hd hino
    rcases install_descs.mp hd with hd | ⟨rfl, -⟩
    · have hlt := hvalid.descs d desc hd
      omega
    · exact absurd rfl hne
  · intro path' hname
    have hname' : Function.update io.names path (some io.data.length) path' =
        some io.data.length := hname
    rw [Function.update_apply] at hname'
    split_ifs at hname' with heq
    · rw [heq, hreserved]
    · have hlt := hvalid.names path' _ hname'
      omega

/-- The new file is not one that was sealed before. -/
theorem Created.sealed {io io' : Io} {path : Text} {access : Access} (h : Created io path access io')
    (hvalid : io.Valid) {ino : ℕ} {bs : Bytes} (hsealed : Sealed io ino bs) : Sealed io' ino bs := by
  apply hsealed.quiet hvalid h.quiet
  intro path'
  rw [h.names, Function.update_apply]
  split_ifs
  · obtain ⟨d, desc, hd, -, hfed, -⟩ := hsealed.writer
    obtain ⟨desc', hd', hino, -⟩ := hfed.writer
    have hlt := hvalid.descs d desc' hd'
    intro heq
    have hlen := Option.some.inj heq
    omega
  · exact hsealed.names path'

/-! ## Entering a stage -/

/-- Where the table of a stage leads. -/
theorem Parking.table_eq_some {k : Parking} {base : ℕ → Option ℕ} {n d : ℕ}
    (h : k.table base n = some d) :
    d = k.outer0 ∨ d = k.outer1 ∨ d = k.inner0 ∨ d = k.inner1 ∨ base n = some d := by
  simp only [Parking.table, Function.update_apply] at h
  split_ifs at h
  · exact Or.inr (Or.inr (Or.inr (Or.inl (Option.some.inj h).symm)))
  · exact Or.inr (Or.inr (Or.inl (Option.some.inj h).symm))
  · exact Or.inr (Or.inl (Option.some.inj h).symm)
  · exact Or.inl (Option.some.inj h).symm
  · exact Or.inr (Or.inr (Or.inr (Or.inr h)))

/-- Apart from descriptors 0 and 1 and the copies the table is that on entry. -/
theorem Parking.table_of_ne {k : Parking} {base : ℕ → Option ℕ} {n : ℕ} (hn : 1 < n)
    (h0 : n ≠ k.copy0) (h1 : n ≠ k.copy1) : k.table base n = base n := by
  rw [Parking.table, Function.update_of_ne (by omega), Function.update_of_ne (by omega),
    Function.update_of_ne h1, Function.update_of_ne h0]

theorem Parking.Valid.table_copy1 {k : Parking} {base : ℕ → Option ℕ} (h : k.Valid base) :
    k.table base k.copy1 = some k.outer1 := by
  rw [Parking.table, Function.update_of_ne h.copy1_ne.2, Function.update_of_ne h.copy1_ne.1,
    Function.update_self]

theorem without_eq_some {f : ℕ → Option ℕ} {fd : Option ℕ} {n d : ℕ}
    (h : without f fd n = some d) : f n = some d := by
  cases fd with
  | none => exact h
  | some m =>
    rw [without, Function.update_apply] at h
    split_ifs at h
    exact h

/-- Between two stages: `prevfd` is none of the descriptors that are held. -/
structure Joint (held : List ℕ) (outer0 outer1 : ℕ) (prevfd : Option ℕ) (s : Ash) : Prop
    extends Ready held s where
  zero : s.io.fds.get 0 = some outer0
  one : s.io.fds.get 1 = some outer1
  prev : ∀ n, prevfd = some n → 1 < n ∧ n ∉ held ∧ ∃ d, s.io.fds.get n = some d

/-- What entering a stage gives. -/
structure Entered (held : List ℕ) (prevfd : Option ℕ) (s : Ash) (k : Parking) (s₁ : Ash) : Prop where
  valid : k.Valid (without s.io.fds.get prevfd)
  table : s₁.io.fds.get = k.table (without s.io.fds.get prevfd)
  denotes : Denotes s.io.fds.get prevfd k.outer0 k.inner0
  ready : Ready (k.copy0 :: k.copy1 :: held) s₁
  quiet : Quiet s.io s₁.io
  remain : Remain s.io s₁.io
  idle : Idle s₁.io
  stdout : s₁.io.stdout = s.io.stdout
  descs : ∀ (d : ℕ) (desc : Description), s.io.descs[d]? = some desc → s₁.io.descs[d]? = some desc
  kept : ∀ ino bs, Sealed s.io ino bs → Sealed s₁.io ino bs

namespace Joint

variable {held : List ℕ} {outer0 outer1 : ℕ} {prevfd : Option ℕ} {s : Ash}

theorem between (h : Joint held outer0 outer1 prevfd s) :
    Between (without s.io.fds.get prevfd) prevfd s.io.fds.get :=
  ⟨rfl, fun n hn => (h.prev n hn).2.2⟩

theorem without_zero (h : Joint held outer0 outer1 prevfd s) :
    without s.io.fds.get prevfd 0 = some outer0 := by
  rw [without_of_ne, h.zero]
  intro heq
  exact absurd (h.prev 0 heq).1 (by decide)

theorem without_one (h : Joint held outer0 outer1 prevfd s) :
    without s.io.fds.get prevfd 1 = some outer1 := by
  rw [without_of_ne, h.one]
  intro heq
  exact absurd (h.prev 1 heq).1 (by decide)

/-- A descriptor that is held is not the file for the stage. -/
theorem without_held (h : Joint held outer0 outer1 prevfd s) {n : ℕ} (hn : n ∈ held) :
    without s.io.fds.get prevfd n = s.io.fds.get n := by
  apply without_of_ne
  intro heq
  exact (h.prev n heq).2.1 hn

/-- The copies are not held already. -/
theorem copies_not_mem (h : Joint held outer0 outer1 prevfd s) {k : Parking}
    (hk : k.Valid (without s.io.fds.get prevfd)) : k.copy0 ∉ held ∧ k.copy1 ∉ held := by
  constructor
  · intro hmem
    exact (h.isOpen _ hmem).2 (by rw [← h.without_held hmem, hk.free0])
  · intro hmem
    exact (h.isOpen _ hmem).2 (by rw [← h.without_held hmem, hk.free1])

/-- **Entering**, when the file of the stage, if any, has been opened in `io`. -/
theorem entered (h : Joint held outer0 outer1 prevfd s) {k : Parking} {io : Io} {t : Table ℕ}
    {s₁ : Ash} (hs₁ : s₁.io = { io.purge with fds := t })
    (hk : k.Valid (without s.io.fds.get prevfd))
    (ht : t.get = k.table (without s.io.fds.get prevfd))
    (hdenotes : Denotes s.io.fds.get prevfd k.outer0 k.inner0) (hsound : io.Sound)
    (hquiet : Quiet s.io io) (hkeep : ∀ n d, s.io.fds.get n = some d → io.fds.get n = some d)
    (hinner1 : ∃ m, io.fds.get m = some k.inner1) (hstdout : io.stdout = s.io.stdout)
    (hdescs : ∀ (d : ℕ) (desc : Description), s.io.descs[d]? = some desc → io.descs[d]? = some desc)
    (hkept : ∀ ino bs, Sealed s.io ino bs → Sealed io ino bs) : Entered held prevfd s k s₁ := by
  have hzero : without s.io.fds.get prevfd 0 = some k.outer0 := hk.base0
  -- every descriptor of the stage leads where some descriptor led
  have hleads : ∀ n d, t.get n = some d → ∃ m, io.fds.get m = some d := by
    intro n d hn
    rw [ht] at hn
    rcases Parking.table_eq_some hn with rfl | rfl | rfl | rfl | hn
    · exact ⟨0, hkeep 0 _ (without_eq_some hk.base0)⟩
    · exact ⟨1, hkeep 1 _ (without_eq_some hk.base1)⟩
    · cases prevfd with
      | none => exact ⟨0, hkeep 0 _ (by rw [show k.inner0 = k.outer0 from hdenotes]; exact hzero)⟩
      | some m => exact ⟨m, hkeep m _ hdenotes⟩
    · exact hinner1
    · exact ⟨n, hkeep n d (without_eq_some hn)⟩
  have hmoved : Quiet io { io.purge with fds := t } := Quiet.of_fds _ _ hleads
  have hall : Quiet s.io s₁.io := by
    rw [hs₁]
    exact hquiet.trans hmoved
  exact {
    valid := hk
    table := by rw [hs₁]; exact ht
    denotes := hdenotes
    ready := by
      refine ⟨⟨hall.valid h.sound.toValid, fun n d hn => ?_⟩, fun n => ?_, fun n hn => ?_⟩
      · rw [hs₁] at hn ⊢
        obtain ⟨m, hm⟩ := hleads n d hn
        exact hsound.fds m d hm
      · rw [hall.creatable]
        exact h.tmp n
      · rw [hs₁]
        show 1 < n ∧ t.get n ≠ none
        rw [ht]
        have hcopy0 := hk.copy0_ne
        have hcopy1 := hk.copy1_ne
        rcases List.mem_cons.mp hn with rfl | hn
        · rw [hk.table_copy0]
          exact ⟨by omega, by simp⟩
        rcases List.mem_cons.mp hn with rfl | hn
        · rw [hk.table_copy1]
          exact ⟨by omega, by simp⟩
        · obtain ⟨hnot0, hnot1⟩ := h.copies_not_mem hk
          obtain ⟨hlt, hopen⟩ := h.isOpen n hn
          rw [Parking.table_of_ne hlt (fun heq => hnot0 (heq ▸ hn)) (fun heq => hnot1 (heq ▸ hn)),
            h.without_held hn]
          exact ⟨hlt, hopen⟩
    quiet := hall
    remain := fun d desc hd => ⟨desc, by rw [hs₁]; exact hdescs d desc hd, rfl, rfl⟩
    idle := by rw [hs₁]; exact idle_purge io
    stdout := by rw [hs₁]; exact hstdout
    descs := fun d desc hd => by rw [hs₁]; exact hdescs d desc hd
    kept := fun ino bs hsealed => by
      rw [hs₁]
      exact (hkept ino bs hsealed).quiet hsound.toValid hmoved (hkept ino bs hsealed).names }

/-- The last stage is entered. -/
theorem enter_last (h : Joint held outer0 outer1 prevfd s) :
    ∃ k s₁, beginStage prevfd true s = (.ok ⟨some (Parking.copy0 k), some k.copy1, none⟩, s₁) ∧
      Entered held prevfd s k s₁ ∧ k.outer0 = outer0 ∧ k.outer1 = outer1 ∧ k.inner1 = outer1 ∧
      s₁.io.names = s.io.names := by
  obtain ⟨inner0, hinner⟩ := h.between.denotes outer0
  obtain ⟨copy0, copy1, t, hbegin, hvalid, ht⟩ :=
    beginStage_last h.between h.without_zero h.without_one hinner
  refine ⟨⟨copy0, copy1, outer0, outer1, inner0, outer1⟩, _, hbegin, ?_, rfl, rfl, rfl, rfl⟩
  exact h.entered rfl hvalid ht hinner h.sound (Quiet.refl s.io) (fun _ _ hn => hn) ⟨1, h.one⟩ rfl
    (fun _ _ hd => hd) fun _ _ hsealed => hsealed

/-- A stage with another one after it is entered, if its name is free. -/
theorem enter_more (h : Joint held outer0 outer1 prevfd s) (hfree : s.io.names (nextTmp s) = none) :
    ∃ k s₁, beginStage prevfd false s =
        (.ok ⟨some (Parking.copy0 k), some k.copy1, some (nextTmp s)⟩, s₁) ∧
      Entered held prevfd s k s₁ ∧ k.outer0 = outer0 ∧ k.outer1 = outer1 ∧
      k.inner1 = s.io.descs.length ∧
      s₁.io.names = Function.update s.io.names (nextTmp s) (some s.io.data.length) ∧
      s₁.io.descs = s.io.descs ++ [⟨s.io.data.length, 0, wronlyTrunc, []⟩] ∧
      s₁.pipeseq = (s.pipeseq + 1) % 2 ^ 32 ∧ Fed s₁.io s.io.descs.length s.io.data.length := by
  obtain ⟨inner0, hinner⟩ := h.between.denotes outer0
  have hsome := Io.openFile_isSome (h.tmp ((s.pipeseq + 1) % 2 ^ 32))
    (rfl : wronlyTrunc.creates = true)
  obtain ⟨⟨outfd, io⟩, hopen⟩ := Option.isSome_iff_exists.mp hsome
  have hcreated := created h.sound.toValid (reserved_capturePath .pipe _) rfl hfree hopen
  obtain ⟨hfd, hfds, -, hstdout, -⟩ := Io.openFile_cases hopen
  obtain ⟨copy0, copy1, t, hbegin, hvalid, ht⟩ :=
    beginStage_more h.between h.without_zero h.without_one hinner hopen
  -- `open` takes a descriptor that was free
  have hkeep : ∀ n d, s.io.fds.get n = some d → io.fds.get n = some d := by
    intro n d hn
    rw [hfds, Table.get_set_of_ne, hn]
    rintro rfl
    rw [hfd, Table.get_lowest] at hn
    cases hn
  have hsound : io.Sound := by
    refine ⟨hcreated.quiet.valid h.sound.toValid, fun n d hn => ?_⟩
    rw [hcreated.descs, List.length_append, List.length_singleton]
    rw [hfds, Table.get_set] at hn
    split_ifs at hn
    · obtain rfl := Option.some.inj hn
      exact Nat.lt_succ_self _
    · exact (h.sound.fds n d hn).trans (Nat.lt_succ_self _)
  refine ⟨⟨copy0, copy1, outer0, outer1, inner0, s.io.descs.length⟩, _, hbegin, ?_, rfl, rfl, rfl,
    hcreated.names, hcreated.descs, rfl, hcreated.fed.writer, hcreated.fed.only, hcreated.fed.names⟩
  exact h.entered rfl hvalid ht hinner hsound hcreated.quiet hkeep
    ⟨outfd, by rw [hfds, Table.get_set_self]⟩ hstdout
    (fun d desc hd => by
      rw [hcreated.descs, List.getElem?_append_left (List.getElem?_eq_some_iff.mp hd).1, hd])
    fun _ _ hsealed => hcreated.sealed h.sound.toValid hsealed

end Joint

/-! ## Leaving a stage -/

section

variable {held : List ℕ} {prevfd : Option ℕ} {k : Parking} {s s₁ s₂ : Ash}

/-- The copies are as they were when the stage is left. -/
theorem Entered.copies (h : Entered held prevfd s k s₁)
    (hstage : Respects (k.copy0 :: k.copy1 :: held) s₁ s₂) :
    s₂.io.fds.get k.copy0 = some k.outer0 ∧ s₂.io.fds.get k.copy1 = some k.outer1 := by
  constructor
  · rw [hstage.held _ List.mem_cons_self, h.table, h.valid.table_copy0]
  · rw [hstage.held _ (List.mem_cons_of_mem _ List.mem_cons_self), h.table, h.valid.table_copy1]

/-- The table when the copies have been moved back. -/
theorem Entered.back_get (h : Entered held prevfd s k s₁)
    (hstage : Respects (k.copy0 :: k.copy1 :: held) s₁ s₂) :
    (k.back s₂.io).fds.get 0 = some k.outer0 ∧ (k.back s₂.io).fds.get 1 = some k.outer1 ∧
      (k.back s₂.io).fds.get k.copy0 = none ∧ (k.back s₂.io).fds.get k.copy1 = none ∧
      ∀ n, 1 < n → n ≠ k.copy0 → n ≠ k.copy1 → (k.back s₂.io).fds.get n = s₂.io.fds.get n := by
  obtain ⟨hcopy0, hcopy1⟩ := h.copies hstage
  have hne0 := h.valid.copy0_ne
  have hne1 := h.valid.copy1_ne
  have hne := h.valid.ne
  have hfirst : s₂.io.fflushAll.fds.get k.copy0 = some k.outer0 := by rw [Io.fflushAll_fds, hcopy0]
  have hsecond : (s₂.io.fflushAll.moveFd (some k.copy0) 0).fds.get k.copy1 = some k.outer1 := by
    rw [Io.moveFd_get hfirst, Function.update_of_ne hne.symm, Function.update_of_ne hne1.1,
      Io.fflushAll_fds, hcopy1]
  have hback : (k.back s₂.io).fds.get = Function.update (Function.update (Function.update
      (Function.update s₂.io.fds.get 0 (some k.outer0)) k.copy0 none) 1 (some k.outer1))
        k.copy1 none := by
    rw [Parking.back, Io.moveFd_get hsecond, Io.moveFd_get hfirst, Io.fflushAll_fds]
  rw [hback]
  refine ⟨?_, ?_, ?_, ?_, fun n hn hn0 hn1 => ?_⟩
  · rw [Function.update_of_ne hne1.1.symm, Function.update_of_ne (by decide),
      Function.update_of_ne hne0.1.symm, Function.update_self]
  · rw [Function.update_of_ne hne1.2.symm, Function.update_self]
  · rw [Function.update_of_ne hne, Function.update_of_ne hne0.2, Function.update_self]
  · rw [Function.update_self]
  · rw [Function.update_of_ne hn1, Function.update_of_ne (by omega), Function.update_of_ne hn0,
      Function.update_of_ne (by omega)]

/-- What the stage has not changed is what it was before it. -/
theorem Entered.back_same (h : Entered held prevfd s k s₁)
    (hstage : Respects (k.copy0 :: k.copy1 :: held) s₁ s₂) {n : ℕ}
    (hn : n ≤ 1 ∨ s₂.io.fds.get n = s₁.io.fds.get n) :
    (k.back s₂.io).fds.get n = without s.io.fds.get prevfd n := by
  obtain ⟨hzero, hone, hcopy0, hcopy1, hother⟩ := h.back_get hstage
  by_cases hle : n ≤ 1
  · rcases Nat.le_one_iff_eq_zero_or_eq_one.mp hle with rfl | rfl
    · rw [hzero, h.valid.base0]
    · rw [hone, h.valid.base1]
  by_cases hn0 : n = k.copy0
  · rw [hn0, hcopy0, h.valid.free0]
  by_cases hn1 : n = k.copy1
  · rw [hn1, hcopy1, h.valid.free1]
  have hlt : 1 < n := by omega
  rw [hother n hlt hn0 hn1, hn.resolve_left hle, h.table, Parking.table_of_ne hlt hn0 hn1]

/-- What a descriptor leads to then, some descriptor led to when the stage was left. -/
theorem Entered.back_leads (h : Entered held prevfd s k s₁)
    (hstage : Respects (k.copy0 :: k.copy1 :: held) s₁ s₂) {n d : ℕ}
    (hn : (k.back s₂.io).fds.get n = some d) : ∃ m, s₂.io.fds.get m = some d := by
  obtain ⟨hzero, hone, hcopy0, hcopy1, hother⟩ := h.back_get hstage
  obtain ⟨hheld0, hheld1⟩ := h.copies hstage
  by_cases hle : n ≤ 1
  · rcases Nat.le_one_iff_eq_zero_or_eq_one.mp hle with rfl | rfl
    · exact ⟨k.copy0, by rw [hheld0, ← hn, hzero]⟩
    · exact ⟨k.copy1, by rw [hheld1, ← hn, hone]⟩
  by_cases hn0 : n = k.copy0
  · rw [hn0, hcopy0] at hn
    cases hn
  by_cases hn1 : n = k.copy1
  · rw [hn1, hcopy1] at hn
    cases hn
  exact ⟨n, by rw [← hn, hother n (by omega) hn0 hn1]⟩

theorem Parking.back_eq (k : Parking) (io : Io) :
    k.back io = { io.fflushAll with fds := (k.back io).fds } := by
  rw [Parking.back, Io.moveFd_eq, Io.moveFd_eq io.fflushAll]

/-- Moving the copies back respects what was held before the stage. -/
theorem Entered.back (h : Entered held prevfd s k s₁)
    (hstage : Respects (k.copy0 :: k.copy1 :: held) s₁ s₂) :
    Quiet s₂.io (k.back s₂.io) ∧ Quiet s.io (k.back s₂.io) ∧ Remain s.io (k.back s₂.io) ∧
      (k.back s₂.io).Sound := by
  have hsound := hstage.sound h.ready.sound
  have hquiet : Quiet s₂.io (k.back s₂.io) := by
    rw [Parking.back_eq]
    refine (Quiet.fflushAll s₂.io).trans (Quiet.of_fds _ _ fun n d hn => ?_)
    obtain ⟨m, hm⟩ := h.back_leads hstage hn
    exact ⟨m, by rw [Io.fflushAll_fds, hm]⟩
  have hremain : Remain s₂.io (k.back s₂.io) := by
    rw [Parking.back_eq]
    exact (Remain.fflushAll s₂.io).trans (Remain.of_descs rfl)
  exact ⟨hquiet, (h.quiet.trans hstage.quiet).trans hquiet,
    (h.remain.trans hstage.remain).trans hremain,
    hsound.of_leads (hquiet.valid hsound.toValid) hremain fun _ _ => h.back_leads hstage⟩

theorem Parking.back_names (k : Parking) (io : Io) : (k.back io).names = io.names := by
  rw [Parking.back_eq]
  exact Io.fflushAll_names io

/-- The descriptors that are held are back where they were. -/
theorem Entered.back_held {outer0 outer1 : ℕ} (hjoint : Joint held outer0 outer1 prevfd s)
    (h : Entered held prevfd s k s₁) (hstage : Respects (k.copy0 :: k.copy1 :: held) s₁ s₂) {n : ℕ}
    (hn : n ∈ held) : (k.back s₂.io).fds.get n = s.io.fds.get n := by
  rw [h.back_same hstage, hjoint.without_held hn]
  exact Or.inr (hstage.held n (List.mem_cons_of_mem _ (List.mem_cons_of_mem _ hn)))

end

namespace Joint

variable {held : List ℕ} {outer0 outer1 : ℕ} {prevfd : Option ℕ} {k : Parking} {s s₁ s₂ : Ash}

/-- The last stage is left. -/
theorem leave_last (h : Joint held outer0 outer1 prevfd s) (henter : Entered held prevfd s k s₁)
    (hnames : s₁.io.names = s.io.names)
    (hstage : Respects (k.copy0 :: k.copy1 :: held) s₁ s₂) :
    Respects held s { s₂ with io := k.back s₂.io } := by
  obtain ⟨-, hquiet, hremain, hsound⟩ := henter.back hstage
  refine ⟨fun n hn => henter.back_held h hstage hn, fun _ => hsound, hquiet, hremain,
    fun path hpath => ?_⟩
  show (k.back s₂.io).names path = s.io.names path
  rw [Parking.back_names, hstage.names path hpath, hnames]

end Joint

/-- What opening the file of a stage again, and unlinking it, gives. -/
structure Reopened (io : Io) (tmp : Text) (ino fd : ℕ) (io' : Io) : Prop where
  free : io.fds.get fd = none
  fds : io'.fds.get = Function.update io.fds.get fd (some io.descs.length)
  descs : io'.descs = io.descs ++ [⟨ino, 0, rdonly, []⟩]
  names : io'.names = Function.update io.names tmp none
  stdout : io'.stdout = io.stdout
  sound : io.Sound → io'.Sound
  quiet : Quiet io io'
  remain : Remain io io'

theorem Reopened.without {io io' : Io} {tmp : Text} {ino fd : ℕ} (h : Reopened io tmp ino fd io') :
    without io'.fds.get (some fd) = io.fds.get := by
  rw [Shell.without, h.fds, Function.update_idem]
  exact Function.update_eq_self_iff.mpr h.free.symm

theorem reopened {io : Io} {tmp : Text} {ino : ℕ} (h : io.names tmp = some ino) :
    ∃ fd io', io.reopen tmp = (some fd, io') ∧ Reopened io tmp ino fd io' := by
  have hopen : io.openFile tmp rdonly = some (io.fds.lowest 0, (io.install ino rdonly).2) := by
    simp only [Io.openFile, h]
    rfl
  refine ⟨io.fds.lowest 0, (io.install ino rdonly).2.unlink tmp, by rw [Io.reopen, hopen], ?_⟩
  have hquiet : Quiet io ((io.install ino rdonly).2.unlink tmp) :=
    (Quiet.openFile hopen fun _ => Or.inr ⟨rfl, rfl⟩).trans (Quiet.unlink _ _)
  exact {
    free := io.fds.get_lowest 0
    fds := Table.get_set_eq_update ..
    descs := rfl
    names := rfl
    stdout := rfl
    sound := by
      refine fun hsound => ⟨hquiet.valid hsound.toValid, fun n d hn => ?_⟩
      show d < (io.descs ++ [(⟨ino, 0, rdonly, []⟩ : Description)]).length
      rw [List.length_append, List.length_singleton]
      change (io.fds.set (io.fds.lowest 0) (some io.descs.length)).get n = some d at hn
      rw [Table.get_set] at hn
      split_ifs at hn
      · obtain rfl := Option.some.inj hn
        exact Nat.lt_succ_self _
      · exact (hsound.fds n d hn).trans (Nat.lt_succ_self _)
    quiet := hquiet
    remain := (Remain.openFile hopen).trans (Remain.of_descs rfl) }

namespace Joint

variable {held : List ℕ} {outer0 outer1 : ℕ} {prevfd : Option ℕ} {k : Parking} {s s₁ s₂ : Ash}

/-- No descriptor leads to the file of the stage any more. -/
theorem back_detached (h : Joint held outer0 outer1 prevfd s) (henter : Entered held prevfd s k s₁)
    (hinner1 : k.inner1 = s.io.descs.length)
    (hstage : Respects (k.copy0 :: k.copy1 :: held) s₁ s₂) (hcopy : NoCopyLeft s₁ s₂) :
    Detached (k.back s₂.io) s.io.descs.length := by
  obtain ⟨hzero, hone, hcopy0, hcopy1, hother⟩ := henter.back_get hstage
  have hout : s₁.io.fds.get 1 = some s.io.descs.length := by
    rw [henter.table, Parking.table, Function.update_self, hinner1]
  -- what descriptors 0 and 1 led to is older than the file
  have holder : ∀ n d, without s.io.fds.get prevfd n = some d → d ≠ s.io.descs.length := by
    intro n d hn
    exact (h.sound.fds n d (without_eq_some hn)).ne
  intro n hn
  by_cases hle : n ≤ 1
  · rcases Nat.le_one_iff_eq_zero_or_eq_one.mp hle with rfl | rfl
    · exact holder 0 k.outer0 henter.valid.base0 (Option.some.inj (hzero.symm.trans hn))
    · exact holder 1 k.outer1 henter.valid.base1 (Option.some.inj (hone.symm.trans hn))
  by_cases hn0 : n = k.copy0
  · rw [hn0, hcopy0] at hn
    cases hn
  by_cases hn1 : n = k.copy1
  · rw [hn1, hcopy1] at hn
    cases hn
  have hlt : 1 < n := by omega
  rw [hother n hlt hn0 hn1] at hn
  exact hcopy n hlt (hn.trans hout.symm)

/-- The file of the stage still has its name. -/
theorem back_tmp (hnames : s₁.io.names = Function.update s.io.names (nextTmp s) (some s.io.data.length))
    (hstage : Respects (k.copy0 :: k.copy1 :: held) s₁ s₂) :
    (k.back s₂.io).names (nextTmp s) = some s.io.data.length := by
  have hreserved : reserved (nextTmp s) = true := reserved_capturePath .pipe _
  rw [Parking.back_names, hstage.names _ hreserved, hnames, Function.update_self]

/-- Reserved names are as they were before the stage. -/
theorem reopen_names {fd : ℕ} {io : Io} (hfree : s.io.names (nextTmp s) = none)
    (hnames : s₁.io.names = Function.update s.io.names (nextTmp s) (some s.io.data.length))
    (hstage : Respects (k.copy0 :: k.copy1 :: held) s₁ s₂)
    (hio : Reopened (k.back s₂.io) (nextTmp s) s.io.data.length fd io) : SameReserved s.io io := by
  intro path hpath
  rw [hio.names, Function.update_apply]
  split_ifs with heq
  · rw [heq, hfree]
  · rw [Parking.back_names, hstage.names path hpath, hnames, Function.update_of_ne heq]

/-- **The file of a stage** is offered to the next one, and holds what the stage has written. -/
theorem reopen_offers {fd : ℕ} {io : Io} (h : Joint held outer0 outer1 prevfd s)
    (henter : Entered held prevfd s k s₁) (hinner1 : k.inner1 = s.io.descs.length)
    (hfree : s.io.names (nextTmp s) = none)
    (hnames : s₁.io.names = Function.update s.io.names (nextTmp s) (some s.io.data.length))
    (hfed : Fed s₁.io s.io.descs.length s.io.data.length)
    (hstage : Respects (k.copy0 :: k.copy1 :: held) s₁ s₂) (hcopy : NoCopyLeft s₁ s₂)
    (hio : Reopened (k.back s₂.io) (nextTmp s) s.io.data.length fd io) :
    Offers io fd (writtenBy s₂.io s.io.descs.length) := by
  obtain ⟨hback, -, -, hsound⟩ := henter.back hstage
  -- the file has been fed by the stage and by nothing else
  have hfedback : Fed (k.back s₂.io) s.io.descs.length s.io.data.length :=
    hback.fed (hstage.sound henter.ready.sound).toValid _ _
      (hstage.quiet.fed henter.ready.sound.toValid _ _ hfed)
  obtain ⟨desc, hd, -⟩ := hfedback.writer
  have hflush : s₂.io.fflushAll.descs[s.io.descs.length]? = some desc := by
    rw [← hd, Parking.back_eq]
  obtain ⟨hd', hdetached⟩ := hio.quiet.detached _ desc hd
    (h.back_detached henter hinner1 hstage hcopy)
  have hfed' := hio.quiet.fed hsound.toValid _ _ hfedback
  refine ⟨(k.back s₂.io).descs.length, s.io.data.length, ?_, ?_, ⟨_, desc, hd', ?_, hfed', hdetached⟩,
    fun path hpath => ?_⟩
  · rw [hio.fds, Function.update_self]
  · rw [hio.descs]
    exact List.getElem?_concat_length
  · rw [writtenBy, hflush]
    rfl
  · have hold := reopen_names hfree hnames hstage hio path (hfed'.names path hpath)
    rw [hpath] at hold
    exact absurd (h.sound.names path _ hold.symm) (lt_irrefl _)

/-- A stage with another one after it is left. -/
theorem leave_more {fd : ℕ} {io : Io} (h : Joint held outer0 outer1 prevfd s)
    (henter : Entered held prevfd s k s₁) (hfree : s.io.names (nextTmp s) = none)
    (hnames : s₁.io.names = Function.update s.io.names (nextTmp s) (some s.io.data.length))
    (hstage : Respects (k.copy0 :: k.copy1 :: held) s₁ s₂)
    (hio : Reopened (k.back s₂.io) (nextTmp s) s.io.data.length fd io) :
    Respects held s { s₂ with io := io } ∧ Joint held outer0 outer1 (some fd) { s₂ with io := io } := by
  obtain ⟨-, hquiet, hremain, hsound⟩ := henter.back hstage
  obtain ⟨hzero, hone, -, -, -⟩ := henter.back_get hstage
  -- the descriptor was free
  have hne : ∀ n, (k.back s₂.io).fds.get n ≠ none → n ≠ fd := by
    rintro n hn rfl
    exact hn hio.free
  have hheld : ∀ n ∈ held, n ≠ fd ∧ io.fds.get n = s.io.fds.get n := by
    intro n hn
    have hback := henter.back_held h hstage hn
    have hnfd := hne n (by rw [hback]; exact (h.isOpen n hn).2)
    exact ⟨hnfd, by rw [hio.fds, Function.update_of_ne hnfd, hback]⟩
  have hzerofd := hne 0 (by rw [hzero]; simp)
  have honefd := hne 1 (by rw [hone]; simp)
  have hrespects : Respects held s { s₂ with io := io } :=
    ⟨fun n hn => (hheld n hn).2, fun _ => hio.sound hsound, hquiet.trans hio.quiet,
      hremain.trans hio.remain, reopen_names hfree hnames hstage hio⟩
  refine ⟨hrespects, hrespects.ready h.toReady, ?_, ?_, fun n hn => ?_⟩
  · rw [hio.fds, Function.update_of_ne hzerofd, hzero]
    exact henter.valid.base0.symm.trans h.without_zero
  · rw [hio.fds, Function.update_of_ne honefd, hone]
    exact henter.valid.base1.symm.trans h.without_one
  · obtain rfl := Option.some.inj hn
    refine ⟨by omega, fun hmem => (hheld fd hmem).1 rfl, (k.back s₂.io).descs.length, ?_⟩
    rw [hio.fds, Function.update_self]

end Joint

/-! ## One round -/

theorem Parking.table_zero (k : Parking) (base : ℕ → Option ℕ) :
    k.table base 0 = some k.inner0 ∧ k.table base 1 = some k.inner1 := by
  constructor
  · rw [Parking.table, Function.update_of_ne (by decide), Function.update_self]
  · rw [Parking.table, Function.update_self]

/-- With nothing to flush, what has been written is what is recorded. -/
theorem writtenBy_of_flushed {io : Io} (h : io.stdout = []) (d : ℕ) :
    writtenBy io d = (io.descs[d]?).elim [] Description.wrote := by
  rw [writtenBy, Io.fflushAll, h, Io.write]
  split
  · rfl
  · rename_i e desc hdesc
    split
    · obtain ⟨-, he⟩ := description_eq_some hdesc
      have hlt : e < io.descs.length := (List.getElem?_eq_some_iff.mp he).1
      by_cases hed : e = d
      · subst hed
        simp only [List.getElem?_set_self hlt, he, Option.elim_some, List.append_nil]
      · simp only [List.getElem?_set_ne hed]
    · rfl

/-- A round of the loop, from between two stages to between two stages. -/
structure Round (held : List ℕ) (outer0 outer1 : ℕ) (prevfd : Option ℕ) (s : Ash) (last : Bool)
    (stage : Sh UInt8) (frame : Stage) (s₁ : Ash) (status : UInt8) (s₂ : Ash) (prevfd' : Option ℕ)
    (s₃ : Ash) : Prop where
  begins : beginStage prevfd last s = (.ok frame, s₁)
  returns : stage s₁ = (.ok status, s₂)
  ends : endStage frame s₂ = (.ok prevfd', s₃)
  respects : Respects held s s₃
  joint : Joint held outer0 outer1 prevfd' s₃
  status : s₃.exitstatus = s₂.exitstatus
  stdout : s₁.io.stdout = s.io.stdout
  flushed : s₃.io.stdout = []
  outer : prevfd = none → s₁.io.fds.get 0 = some outer0
  reads : ∀ n bs, prevfd = some n → Offers s.io n bs → Reads s₁.io s₂.io bs
  same : ∀ n, n ≤ 1 ∨ s₂.io.fds.get n = s₁.io.fds.get n →
    without s₃.io.fds.get prevfd' n = without s.io.fds.get prevfd n
  isLast : last = true → prevfd' = none ∧ s₁.io.fds.get 1 = some outer1
  isNotLast : last = false → ∃ fd, prevfd' = some fd ∧
    s₁.io.fds.get 1 = some s.io.descs.length ∧
    (s.io.stdout = [] → writtenBy s₁.io s.io.descs.length = []) ∧
    Offers s₃.io fd (writtenBy s₂.io s.io.descs.length)

/-- What the stage reads is not disturbed while it runs. -/
theorem Entered.reads {held : List ℕ} {prevfd : Option ℕ} {k : Parking} {s s₁ s₂ : Ash}
    (h : Entered held prevfd s k s₁) (hstage : Respects (k.copy0 :: k.copy1 :: held) s₁ s₂) {n : ℕ}
    {bs : Bytes} (hprev : prevfd = some n) (hoffers : Offers s.io n bs) : Reads s₁.io s₂.io bs := by
  obtain ⟨dp, ino, hn, hd, hsealed⟩ := hoffers
  subst hprev
  have hinner : k.inner0 = dp := Option.some.inj (h.denotes.symm.trans hn)
  have hkept := h.kept ino bs hsealed
  refine ⟨h.idle, dp, ino, ?_, h.descs dp _ hd, hkept, hkept.respects h.ready.sound.toValid hstage⟩
  rw [h.table, (k.table_zero _).1, hinner]

theorem Parking.back_stdout (k : Parking) (io : Io) : (k.back io).stdout = [] := by
  rw [Parking.back_eq]
  rfl

namespace Joint

variable {held : List ℕ} {outer0 outer1 : ℕ} {prevfd : Option ℕ} {s : Ash} {stage : Sh UInt8}

/-- The round of the last stage. -/
theorem round_last (h : Joint held outer0 outer1 prevfd s)
    (hstage : ∀ frame s₁, beginStage prevfd true s = (.ok frame, s₁) →
      Ready (frame.copies ++ held) s₁ → ∃ status s₂, stage s₁ = (.ok status, s₂) ∧
        Respects (frame.copies ++ held) s₁ s₂) :
    ∃ frame s₁ status s₂ prevfd' s₃,
      Round held outer0 outer1 prevfd s true stage frame s₁ status s₂ prevfd' s₃ := by
  obtain ⟨k, s₁, hbegin, henter, hzero, hone, hinner1, hnames⟩ := h.enter_last
  obtain ⟨status, s₂, hreturns, hrespects⟩ := hstage _ s₁ hbegin henter.ready
  refine ⟨⟨some k.copy0, some k.copy1, none⟩, s₁, status, s₂, none, { s₂ with io := k.back s₂.io }, ?_⟩
  have hback := h.leave_last henter hnames hrespects
  obtain ⟨hback0, hback1, -⟩ := henter.back_get hrespects
  exact {
    begins := hbegin
    returns := hreturns
    ends := endStage_last k s₂
    respects := hback
    joint := ⟨hback.ready h.toReady, by rw [hback0, hzero], by rw [hback1, hone], by simp⟩
    status := rfl
    stdout := henter.stdout
    flushed := Parking.back_stdout k s₂.io
    outer := by
      rintro rfl
      rw [henter.table, (k.table_zero _).1, show k.inner0 = k.outer0 from henter.denotes, hzero]
    reads := fun n bs => henter.reads hrespects
    same := fun n hn => henter.back_same hrespects hn
    isLast := fun _ => ⟨rfl, by rw [henter.table, (k.table_zero _).2, hinner1]⟩
    isNotLast := by simp }

/-- The round of a stage with another one after it. -/
theorem round_more (h : Joint held outer0 outer1 prevfd s) (hfree : s.io.names (nextTmp s) = none)
    (hstage : ∀ frame s₁, beginStage prevfd false s = (.ok frame, s₁) →
      Ready (frame.copies ++ held) s₁ → ∃ status s₂, stage s₁ = (.ok status, s₂) ∧
        Respects (frame.copies ++ held) s₁ s₂ ∧ NoCopyLeft s₁ s₂) :
    ∃ frame s₁ status s₂ prevfd' s₃,
      Round held outer0 outer1 prevfd s false stage frame s₁ status s₂ prevfd' s₃ := by
  obtain ⟨k, s₁, hbegin, henter, hzero, hone, hinner1, hnames, hdescs, -, hfed⟩ := h.enter_more hfree
  obtain ⟨status, s₂, hreturns, hrespects, hcopy⟩ := hstage _ s₁ hbegin henter.ready
  -- the stage leaves the name of the file alone, so it opens again
  obtain ⟨fd, io, hreopen, hio⟩ := reopened (back_tmp hnames hrespects)
  refine ⟨⟨some k.copy0, some k.copy1, some (nextTmp s)⟩, s₁, status, s₂, some fd,
    { s₂ with io := io }, ?_⟩
  obtain ⟨hback, hjoint⟩ := h.leave_more henter hfree hnames hrespects hio
  exact {
    begins := hbegin
    returns := hreturns
    ends := by rw [endStage_more, hreopen]
    respects := hback
    joint := hjoint
    status := rfl
    stdout := henter.stdout
    flushed := by
      rw [← Parking.back_stdout k s₂.io]
      exact hio.stdout
    outer := by
      rintro rfl
      rw [henter.table, (k.table_zero _).1, show k.inner0 = k.outer0 from henter.denotes, hzero]
    reads := fun n bs => henter.reads hrespects
    same := fun n hn => (congrFun hio.without n).trans (henter.back_same hrespects hn)
    isLast := by simp
    isNotLast := fun _ => by
      refine ⟨fd, rfl, ?_, fun hflushed => ?_, ?_⟩
      · rw [henter.table, (k.table_zero _).2, hinner1]
      · rw [writtenBy_of_flushed (by rw [henter.stdout, hflushed]), hdescs,
          List.getElem?_concat_length]
        rfl
      · exact h.reopen_offers henter hinner1 hfree hnames hfed hrespects hcopy hio }

end Joint

/-! ## Substitutions -/

/-- A new description may be rewound: nothing that was fed or detached before is touched. -/
theorem Quiet.rewind {io io' : Io} (h : Quiet io io') {fd d : ℕ} (hfd : io'.fds.get fd = some d)
    (hnew : io.descs.length ≤ d) : Quiet io (io'.rewind fd) := by
  rw [Io.rewind]
  split
  · exact h
  · rename_i e desc hdesc
    obtain ⟨hfd', he⟩ := description_eq_some hdesc
    obtain rfl := Option.some.inj (hfd.symm.trans hfd')
    have hold : ∀ d' desc', io.descs[d']? = some desc' → d ≠ d' := by
      intro d' desc' hd'
      have hlt := (List.getElem?_eq_some_iff.mp hd').1
      omega
    refine ⟨h.creatable, fun hvalid => ?_, fun hvalid d' ino hfed => ?_, fun d' desc' hd' hdet => ?_⟩
    · refine ⟨(h.valid hvalid).names, fun d' desc' hd' => ?_⟩
      rcases getElem?_set_descs he hd' with ⟨rfl, rfl⟩ | ⟨-, hd'⟩
      · exact (h.valid hvalid).descs d desc he
      · exact (h.valid hvalid).descs d' desc' hd'
    · obtain ⟨desc₀, hd₀, -⟩ := hfed.writer
      have hfed' := h.fed hvalid d' ino hfed
      obtain ⟨desc', hd', hwriter⟩ := hfed'.writer
      refine ⟨⟨desc', (List.getElem?_set_ne (hold d' desc₀ hd₀)).trans hd', hwriter⟩, ?_, hfed'.names⟩
      intro d'' desc'' hne hd'' hino
      rcases getElem?_set_descs he hd'' with ⟨rfl, rfl⟩ | ⟨-, hd''⟩
      · exact hfed'.only d desc hne he hino
      · exact hfed'.only d'' desc'' hne hd'' hino
    · obtain ⟨hd'', hdet'⟩ := h.detached d' desc' hd' hdet
      exact ⟨(List.getElem?_set_ne (hold d' desc' hd')).trans hd'', hdet'⟩

/-- What the command of a substitution finds: the copy of descriptor 1 and the file, in descriptors
that were free. -/
structure Nested (held : List ℕ) (s : Ash) : Prop where
  parked : s.io.fds.get (parkedFd s) = none
  capture : s.io.fds.get (captureFd s) = none
  fds : (nestedState s).io.fds.get = Function.update (Function.update (Function.update s.io.fds.get
    (parkedFd s) (s.io.fds.get 1)) (captureFd s) (some s.io.descs.length)) 1 (some s.io.descs.length)
  quiet : Quiet s.io (nestedState s).io
  remain : Remain s.io (nestedState s).io
  names : ∀ path, path ≠ capturePath .subst s.depth →
    (nestedState s).io.names path = s.io.names path
  ready : Ready (captureFd s :: parkedFd s :: held) (nestedState s)

theorem nested {held : List ℕ} {s : Ash} (hs : Ready held s) (hzero : s.io.fds.get 0 ≠ none)
    (h : Capturable s) (hfree : s.io.names (capturePath .subst s.depth) = none) : Nested held s := by
  obtain ⟨hone, hparked⟩ := captureFd_ne h
  obtain ⟨d, io, hd, hopen⟩ := (capturable_iff s).mp h
  have hstate : (nestedState s).io = (io.dup2 (captureFd s) 1).2 := by
    rw [nestedState, beginCapture_of_open hd hopen]
    rfl
  -- the two descriptors of the substitution come from free places
  have hparkedfree : s.io.fds.get (parkedFd s) = none := s.io.fds.get_lowest 10
  have hdup := dupfd_stdout hd
  obtain ⟨hfd, hfds, -, -, -⟩ := Io.openFile_cases hopen
  have hquiet : Quiet s.io (s.io.fflushAll.dupfd 1 10).2 :=
    (Quiet.fflushAll s.io).trans (Quiet.dupfd _ 1 10)
  have hcreated : Created (s.io.fflushAll.dupfd 1 10).2 (capturePath .subst s.depth) rdwrTrunc io := by
    apply created (hquiet.valid hs.sound.toValid) (reserved_capturePath .subst _) rfl _ hopen
    rw [hdup]
    exact (congrFun (Io.fflushAll_names s.io) _).trans hfree
  have hlen : (s.io.fflushAll.dupfd 1 10).2.descs.length = s.io.descs.length := by
    rw [hdup]
    exact fflushAll_descs_length s.io
  have hcapturefree : s.io.fds.get (captureFd s) = none := by
    have hlowest := (s.io.fflushAll.dupfd 1 10).2.fds.get_lowest 0
    rw [← hfd, hdup, Table.get_set_of_ne _ hparked] at hlowest
    exact hlowest
  have hget : io.fds.get = Function.update (Function.update s.io.fds.get (parkedFd s)
      (s.io.fds.get 1)) (captureFd s) (some s.io.descs.length) := by
    rw [hfds, hlen, Table.get_set_eq_update, hdup, Table.get_set_eq_update, hd]
  have hcapture : io.fds.get (captureFd s) = some s.io.descs.length := by
    rw [hget, Function.update_self]
  have hdup2 : (io.dup2 (captureFd s) 1).2 =
      { io with fds := io.fds.set 1 (some s.io.descs.length) } := by
    rw [Io.dup2_of_open hcapture]
  have hnested : Quiet s.io (nestedState s).io := by
    rw [hstate]
    exact (hquiet.trans hcreated.quiet).trans (Quiet.dup2 io _ 1)
  -- the table inside: the copy of 1, the file, and 1 pointing to the file
  have htable : (nestedState s).io.fds.get = Function.update (Function.update (Function.update
      s.io.fds.get (parkedFd s) (s.io.fds.get 1)) (captureFd s) (some s.io.descs.length)) 1
        (some s.io.descs.length) := by
    rw [hstate, hdup2, ← hget]
    exact Table.get_set_eq_update ..
  refine ⟨hparkedfree, hcapturefree, htable, hnested, ?_, fun path hne => ?_, ⟨⟨?_, fun n d' hn => ?_⟩,
    fun n => ?_, fun n hn => ?_⟩⟩
  · rw [hstate]
    exact ((Remain.fflushAll s.io).trans (Remain.dupfd _ 1 10)).trans
      ((Remain.openFile hopen).trans (Remain.dup2 io _ 1))
  · rw [hstate, hdup2]
    show io.names path = s.io.names path
    rw [hcreated.names, Function.update_of_ne hne, hdup]
    exact congrFun (Io.fflushAll_names s.io) path
  · exact hnested.valid hs.sound.toValid
  · have hmore : (nestedState s).io.descs.length = s.io.descs.length + 1 := by
      rw [hstate, hdup2, ← hlen]
      show io.descs.length = _
      rw [hcreated.descs, List.length_append, List.length_singleton]
    rw [hmore]
    simp only [htable, Function.update_apply] at hn
    split_ifs at hn
    · obtain rfl := Option.some.inj hn
      exact Nat.lt_succ_self _
    · obtain rfl := Option.some.inj hn
      exact Nat.lt_succ_self _
    · exact (hs.sound.fds 1 d' hn).trans (Nat.lt_succ_self _)
    · exact (hs.sound.fds n d' hn).trans (Nat.lt_succ_self _)
  · rw [hnested.creatable]
    exact hs.tmp n
  · rw [htable]
    have hne0 : captureFd s ≠ 0 := by
      intro heq
      exact hzero (by rw [← heq, hcapturefree])
    have hle : 10 ≤ parkedFd s := s.io.fds.le_lowest 10
    rcases List.mem_cons.mp hn with rfl | hn
    · rw [Function.update_of_ne hone, Function.update_self]
      exact ⟨by omega, by simp⟩
    rcases List.mem_cons.mp hn with rfl | hn
    · rw [Function.update_of_ne (by omega), Function.update_of_ne hparked.symm, Function.update_self]
      exact ⟨by omega, h.1⟩
    · obtain ⟨hlt, hopen'⟩ := hs.isOpen n hn
      -- a copy that an outer pipeline holds is open, hence neither of the two
      have hnp : n ≠ parkedFd s := by
        rintro rfl
        exact hopen' hparkedfree
      have hnc : n ≠ captureFd s := by
        rintro rfl
        exact hopen' hcapturefree
      rw [Function.update_of_ne (by omega), Function.update_of_ne hnc, Function.update_of_ne hnp]
      exact ⟨hlt, hopen'⟩

/-- The name of the file is gone, and the others are as the command left them. -/
theorem afterNested_names (s : Ash) (status : UInt8) (t : Ash) :
    (afterNested s status t).io.names =
      Function.update t.io.names (capturePath .subst s.depth) none := by
  have hrewind : ∀ (io : Io) (fd : ℕ), (io.rewind fd).names = io.names := by
    intro io fd
    rw [Io.rewind]
    split
    · rfl
    · rfl
  have hdup2 : ∀ (io : Io) (old new : ℕ), (io.dup2 old new).2.names = io.names := by
    intro io old new
    rw [Io.dup2]
    split
    · rfl
    · rfl
  rw [afterNested, Io.unlink, hrewind, Io.close, hdup2, Io.fflushAll_names]

/-- Descriptors lead to nothing that they did not lead to when the command ended. -/
theorem afterNested_leads {s t : Ash} {status : UInt8} {n d : ℕ}
    (h : (afterNested s status t).io.fds.get n = some d) : ∃ m, t.io.fds.get m = some d := by
  by_cases hone : n = 1
  · rw [hone, afterNested_stdout] at h
    cases hcopy : t.io.fds.get (parkedFd s) with
    | none => exact ⟨1, by rwa [hcopy] at h⟩
    | some d' => exact ⟨parkedFd s, by rwa [hcopy] at h ⊢⟩
  by_cases hparked : n = parkedFd s
  · rw [hparked, afterNested, Io.unlink, Io.rewind_fds, Io.close, Table.get_set_self] at h
    cases h
  · exact ⟨n, by rwa [afterNested_get hone hparked] at h⟩

/-- **After the command** of a substitution, what was held before it is as it was. -/
theorem Nested.after {held : List ℕ} {s t : Ash} (h : Nested held s) (hs : Ready held s)
    (hfree : s.io.names (capturePath .subst s.depth) = none) (hcapture : Capturable s)
    (hrun : Respects (captureFd s :: parkedFd s :: held) (nestedState s) t) (status : UInt8) :
    Respects held s (afterNested s status t) := by
  obtain ⟨hone, hparked⟩ := captureFd_ne hcapture
  have hopen : ∀ n ∈ held, n ≠ 1 ∧ n ≠ parkedFd s ∧ n ≠ captureFd s := by
    intro n hn
    obtain ⟨hlt, hopen⟩ := hs.isOpen n hn
    refine ⟨by omega, ?_, ?_⟩
    · rintro rfl
      exact hopen h.parked
    · rintro rfl
      exact hopen h.capture
  have hcopy : t.io.fds.get (captureFd s) = some s.io.descs.length := by
    rw [hrun.held _ List.mem_cons_self, h.fds, Function.update_of_ne hone, Function.update_self]
  -- up to the rewinding nothing is disturbed
  obtain ⟨io, hio, hclosed, hclosed'⟩ : ∃ io, (afterNested s status t).io =
      (io.rewind (captureFd s)).unlink (capturePath .subst s.depth) ∧ Quiet t.io io ∧ Remain t.io io :=
    ⟨_, rfl, ((Quiet.fflushAll t.io).trans (Quiet.dup2 _ (parkedFd s) 1)).trans
      (Quiet.close _ (parkedFd s)),
      ((Remain.fflushAll t.io).trans (Remain.dup2 _ (parkedFd s) 1)).trans (Remain.of_descs rfl)⟩
  have hcopy' : io.fds.get (captureFd s) = some s.io.descs.length := by
    rw [← hcopy, ← afterNested_get hone hparked status t, hio]
    exact congrArg (Table.get · (captureFd s)) (Io.rewind_fds io (captureFd s)).symm
  have hquiet : Quiet s.io (afterNested s status t).io := by
    rw [hio]
    exact (((h.quiet.trans hrun.quiet).trans hclosed).rewind hcopy' le_rfl).trans (Quiet.unlink _ _)
  have hremain : Remain t.io (afterNested s status t).io := by
    rw [hio]
    exact hclosed'.trans ((Remain.rewind io (captureFd s)).trans (Remain.of_descs rfl))
  refine ⟨fun n hn => ?_, fun hsound => ?_, hquiet, (h.remain.trans hrun.remain).trans hremain,
    fun path hpath => ?_⟩
  · obtain ⟨hne, hnp, hnc⟩ := hopen n hn
    rw [afterNested_get hne hnp, hrun.held n (List.mem_cons_of_mem _ (List.mem_cons_of_mem _ hn)),
      h.fds, Function.update_of_ne hne, Function.update_of_ne hnc, Function.update_of_ne hnp]
  · exact (hrun.sound h.ready.sound).of_leads (hquiet.valid hsound.toValid) hremain
      fun _ _ => afterNested_leads
  · rw [afterNested_names, Function.update_apply]
    split_ifs with heq
    · rw [heq, hfree]
    · rw [hrun.names path hpath, h.names path heq]

/-- **A substitution** respects what its command respects. -/
theorem respects_expbackq {held : List ℕ} {n : Sh UInt8} {s t : Ash} {r : Except Exn UInt8}
    (hs : Ready held s) (hzero : s.io.fds.get 0 ≠ none) (hcapture : Capturable s)
    (hfree : s.io.names (capturePath .subst s.depth) = none)
    (hends : setjmp n (nestedState s) = (.ok r, t))
    (hrun : Respects (captureFd s :: parkedFd s :: held) (nestedState s) t) :
    Respects held s (expbackq n s).2 := by
  have hnested := nested hs hzero hcapture hfree
  have hafter := hnested.after hs hfree hcapture hrun (bqStatusOf t r)
  generalize hu : afterNested s (bqStatusOf t r) t = u at hafter
  -- the loop that reads the file
  obtain ⟨bs, io, hloop, hreads⟩ := readLoop_keeps
    (fun io n (h : Quiet u.io io ∧ Remain u.io io ∧ io.fds = u.io.fds ∧ io.names = u.io.names) =>
      ⟨h.1.trans (Quiet.read io _ n), h.2.1.trans (Remain.read io _ n),
        (Io.read_fds io (captureFd s) n).trans h.2.2.1,
        (Io.read_names io (captureFd s) n).trans h.2.2.2⟩) (u.io.remaining (captureFd s) + 1) [] u
  obtain ⟨hquiet, hremain, hfds, hnames⟩ := hreads ⟨Quiet.refl _, Remain.of_descs rfl, rfl, rfl⟩
  have heval : (expbackq n s).2 =
      { u with io := io.close (captureFd s), backExitstatus := u.bqStatus } := by
    rw [expbackq, Program.bind_ok (osdEvalbackcmdInproc_of_setjmp hcapture hends), hu,
      Program.read_bind, Program.bind_ok hloop]
    rfl
  have hclose : Quiet u.io (io.close (captureFd s)) := hquiet.trans (Quiet.close io _)
  have hclose' : Remain u.io (io.close (captureFd s)) := hremain.trans (Remain.of_descs rfl)
  rw [heval]
  refine hafter.trans ⟨fun m hm => ?_, fun hsound => ?_, hclose, hclose', fun path hpath => ?_⟩
  · have hne : m ≠ captureFd s := by
      rintro rfl
      exact (hs.isOpen _ hm).2 hnested.capture
    exact (Table.get_set_of_ne _ hne _).trans (by rw [hfds])
  · apply hsound.of_leads (hclose.valid hsound.toValid) hclose'
    intro m d hm
    change (io.fds.set (captureFd s) none).get m = some d at hm
    rw [Table.get_set, hfds] at hm
    split_ifs at hm
    exact ⟨m, hm⟩
  · exact congrFun hnames path

/-! ## Orderly runs respect what is held -/

/-- A round of orderly stages, when the stage respects what is held. -/
theorem Joint.round {held : List ℕ} {outer0 outer1 : ℕ} {prevfd : Option ℕ} {s : Ash}
    {stage : Sh UInt8} {rest : List (Sh UInt8)} (h : Joint held outer0 outer1 prevfd s)
    (hfree : rest ≠ [] → s.io.names (nextTmp s) = none)
    (hrespects : ∀ frame s₁, beginStage prevfd rest.isEmpty s = (.ok frame, s₁) →
      Ready (frame.copies ++ held) s₁ → Respects (frame.copies ++ held) s₁ (stage s₁).2)
    (hreturns : ∀ frame s₁, beginStage prevfd rest.isEmpty s = (.ok frame, s₁) →
      ∃ status s₂, stage s₁ = (.ok status, s₂) ∧ (rest ≠ [] → NoCopyLeft s₁ s₂)) :
    ∃ frame s₁ status s₂ prevfd' s₃,
      Round held outer0 outer1 prevfd s rest.isEmpty stage frame s₁ status s₂ prevfd' s₃ := by
  cases rest with
  | nil =>
    apply h.round_last
    intro frame s₁ hbegin hready
    obtain ⟨status, s₂, hstage, -⟩ := hreturns frame s₁ hbegin
    have hrun := hrespects frame s₁ hbegin hready
    rw [hstage] at hrun
    exact ⟨status, s₂, hstage, hrun⟩
  | cons next rest =>
    apply h.round_more (hfree (List.cons_ne_nil next rest))
    intro frame s₁ hbegin hready
    obtain ⟨status, s₂, hstage, hcopy⟩ := hreturns frame s₁ hbegin
    have hrun := hrespects frame s₁ hbegin hready
    rw [hstage] at hrun
    exact ⟨status, s₂, hstage, hrun, hcopy (List.cons_ne_nil next rest)⟩

theorem setjmp_snd {α : Type} (m : Sh α) (s : Ash) : (setjmp m s).2 = (m s).2 := by
  rw [setjmp]
  rcases m s with ⟨(e | status) | a, s'⟩
  · rfl
  · rfl
  · rfl

/-- What runs after a program respects what it respects. -/
theorem respects_bind {α β : Type} {held : List ℕ} {m : Sh α} {f : α → Sh β} {s : Ash}
    (hm : Respects held s (m s).2)
    (hf : ∀ a s', m s = (.ok a, s') → Respects held s s' → Respects held s' (f a s').2) :
    Respects held s ((m >>= f) s).2 := by
  rcases hrun : m s with ⟨e | a, s'⟩
  · rw [hrun] at hm
    rw [Program.bind_error hrun]
    exact hm
  · rw [hrun] at hm
    rw [Program.bind_ok hrun]
    exact hm.trans (hf a s' hrun hm)

mutual

/-- **Orderly runs** respect what is held, to any depth. -/
theorem Orderly.respects {α : Type} {held : List ℕ} {m : Sh α} {s : Ash} :
    Orderly held m s → Ready held s → Respects held s (m s).2
  | .command h, _ => h
  | .bind hm hf, hs =>
    respects_bind (hm.respects hs) fun a s' hrun hfirst => (hf a s' hrun).respects (hfirst.ready hs)
  | .setjmp h, hs => by
    rw [setjmp_snd]
    exact h.respects hs
  | .subst hzero hcapture hfree hends h, hs => by
    have hrun := h.respects (nested hs hzero hcapture hfree).ready
    obtain ⟨r, t, hends⟩ := hends
    have hend := congrArg Prod.snd hends
    rw [setjmp_snd] at hend
    rw [hend] at hrun
    exact respects_expbackq hs hzero hcapture hfree hends hrun
  | .pipe hzero hone h, hs => by
    obtain ⟨outer0, hzero⟩ := Option.ne_none_iff_exists'.mp hzero
    obtain ⟨outer1, hone⟩ := Option.ne_none_iff_exists'.mp hone
    obtain ⟨st, s', heval, hrespects⟩ := h.respects ⟨hs, hzero, hone, by simp⟩ 0
    rw [evalpipe, heval]
    exact hrespects

theorem OrderlyStages.respects {held : List ℕ} {prevfd : Option ℕ} {s : Ash}
    {stages : List (Sh UInt8)} {outer0 outer1 : ℕ} : OrderlyStages held prevfd s stages →
    Joint held outer0 outer1 prevfd s → ∀ status : UInt8,
      ∃ st s', evalstages prevfd status stages s = (.ok st, s') ∧ Respects held s s'
  | .nil, _, status => ⟨status, s, rfl, Respects.of_io rfl⟩
  | .cons hfree hstage hreturns hrest, hs, status => by
    have hrespects := fun frame s₁ hbegin hready => (hstage frame s₁ hbegin).respects hready
    obtain ⟨frame, s₁, status', s₂, prevfd', s₃, hround⟩ := hs.round hfree hrespects hreturns
    obtain ⟨st, s', heval, hrespects'⟩ := (hrest _ _ _ _ _ _ hround.begins hround.returns
      hround.ends).respects hround.joint s₂.exitstatus
    rw [evalstages_cons hround.begins hround.returns hround.ends]
    exact ⟨st, s', heval, hround.respects.trans hrespects'⟩

end

/-! ## Orderly pipelines -/

/-- What the next stage is going to read. -/
def Pending (input : Option Bytes) (prevfd : Option ℕ) (io : Io) : Prop :=
  input.elim (prevfd = none) fun bs => ∃ fd, prevfd = some fd ∧ Offers io fd bs

/-- **The loop**: data flow from stage to stage, and descriptors are put back. -/
theorem flows_of_orderly {held : List ℕ} {outer0 outer1 : ℕ} {stages : List (Sh UInt8)}
    {prevfd : Option ℕ} {s : Ash} (h : OrderlyStages held prevfd s stages)
    (hs : Joint held outer0 outer1 prevfd s) (hflushed : s.io.stdout = []) (input : Option Bytes)
    (hinput : stages ≠ [] → Pending input prevfd s.io) (hprev : stages = [] → prevfd = none)
    (status : UInt8) :
    ∃ st s', evalstages prevfd status stages s = (.ok st, s') ∧ Respects held s s' ∧
      Flows outer0 outer1 st input prevfd s stages ∧
      ∀ n, n ≤ 1 ∨ StagesLeave n prevfd s stages →
        s'.io.fds.get n = without s.io.fds.get prevfd n := by
  induction stages generalizing prevfd s input status with
  | nil =>
    refine ⟨status, s, rfl, Respects.of_io rfl, trivial, fun n _ => ?_⟩
    rw [hprev rfl]
    rfl
  | cons stage rest ih =>
    cases h with
    | cons hfree hstage hreturns hrest =>
      have hrespects := fun frame s₁ hbegin hready => (hstage frame s₁ hbegin).respects hready
      obtain ⟨frame, s₁, status', s₂, prevfd', s₃, hround⟩ := hs.round hfree hrespects hreturns
      have hnext := hrest _ _ _ _ _ _ hround.begins hround.returns hround.ends
      -- the descriptor that the stage writes to, and what the next one gets
      obtain ⟨out, hout, hlast, hmore, hoffers, hnone⟩ : ∃ out, s₁.io.fds.get 1 = some out ∧
          (rest = [] → out = outer1) ∧ (rest ≠ [] → writtenBy s₁.io out = []) ∧
          (rest ≠ [] → Pending (some (writtenBy s₂.io out)) prevfd' s₃.io) ∧
          (rest = [] → prevfd' = none) := by
        cases rest with
        | nil =>
          obtain ⟨hprev', hout⟩ := hround.isLast rfl
          exact ⟨outer1, hout, fun _ => rfl, fun hne => absurd rfl hne, fun hne => absurd rfl hne,
            fun _ => hprev'⟩
        | cons next rest =>
          obtain ⟨fd, hprev', hout, hwritten, hoffers⟩ := hround.isNotLast rfl
          exact ⟨s.io.descs.length, hout, by simp, fun _ => hwritten hflushed,
            fun _ => ⟨fd, hprev', hoffers⟩, by simp⟩
      obtain ⟨st, s', heval, hrespects', hflows, htable⟩ :=
        ih hnext hround.joint hround.flushed (some (writtenBy s₂.io out)) hoffers hnone s₂.exitstatus
      refine ⟨st, s', ?_, hround.respects.trans hrespects', ?_, fun n hn => ?_⟩
      · rw [evalstages_cons hround.begins hround.returns hround.ends, heval]
      · refine ⟨frame, s₁, status', s₂, prevfd', s₃, out, hround.begins, hround.returns, hround.ends,
          by rw [hround.stdout, hflushed], ?_, hout, fun hnil => ⟨hlast hnil, ?_⟩, hmore, hflows⟩
        · have hpending := hinput (List.cons_ne_nil stage rest)
          cases input with
          | none => exact hround.outer hpending
          | some bs =>
            obtain ⟨fd, hfd, hoffered⟩ := hpending
            exact hround.reads fd bs hfd hoffered
        · subst hnil
          cases heval
          rfl
      · rcases hn with hn | hn
        · rw [htable n (Or.inl hn), hround.same n (Or.inl hn)]
        · obtain ⟨hsame, hleave⟩ := hn _ _ _ _ _ _ hround.begins hround.returns hround.ends
          rw [htable n (Or.inr hleave), hround.same n (Or.inr hsame)]

/-! ## Pipelines of programs -/

/-- What streams and files are used for, and no reserved name. -/
theorem respects_runAll {held : List ℕ} {ops : List Op} {s s' : Ash}
    (h : ops.all Op.tidy = true) (hio : s'.io = s.io.runAll ops) : Respects held s s' := by
  have hget : ∀ n, s'.io.fds.get n = s.io.fds.get n := by
    intro n
    rw [hio]
    exact Io.runAll_fds s.io ops n
  obtain ⟨hquiet, hnames⟩ := @runAll_quiet s.io ops h
  have hremain : Remain s.io s'.io := by
    rw [hio]
    exact Remain.runAll s.io ops
  rw [← hio] at hquiet hnames
  exact ⟨fun n _ => hget n, fun hs => hs.of_leads (hquiet.valid hs.toValid) hremain
    fun n d hn => ⟨n, by rwa [hget n] at hn⟩, hquiet, hremain, hnames⟩

/-- A program that succeeds is all that its command is. -/
theorem wp_external (tested : Bool) (ops : List Op) (s : Ash) :
    (evaltree tested (simpleCommand (.external ops 0))).wp
      (fun _ s' => s'.io = s.io.runAll ops ∧ s'.pipeseq = s.pipeseq) (fun _ _ => False) s := by
  simp only [simpleCommand, evaltree, expand, evaltrees, expandargs, Command.info, evalfound,
    evalcommand, redirectsafe, wp_catching, redirect, pushredir, runCommand, leaveCommand,
    popredirIf, unwindredir, unwindfiles, setstatus, checkexit, Program.wp_bind, Program.wp_read,
    Program.wp_modify, Program.wp_pure, Bool.false_eq_true, if_true, if_false, List.length_cons,
    Nat.sub_self, List.foldl_nil]
  simp

/-- A pipeline of programs. -/
def programs (tested : Bool) (l : List (List Op)) : List (Sh UInt8) :=
  l.map fun ops => evaltree tested (simpleCommand (.external ops 0))

/-- A stage that leaves descriptors as it finds them leaves no copy of its output. -/
theorem Joint.noCopyLeft {held : List ℕ} {outer0 outer1 : ℕ} {prevfd : Option ℕ} {s s₁ s₂ : Ash}
    {frame : Stage} (h : Joint held outer0 outer1 prevfd s) (hfree : s.io.names (nextTmp s) = none)
    (hbegin : beginStage prevfd false s = (.ok frame, s₁)) (hsame : s₂.io.fds.get = s₁.io.fds.get) :
    NoCopyLeft s₁ s₂ ∧ s₁.pipeseq = (s.pipeseq + 1) % 2 ^ 32 := by
  obtain ⟨k, s₀, hbegin', henter, hzero, hone, hinner1, -, -, hseq, -⟩ := h.enter_more hfree
  cases hbegin'.symm.trans hbegin
  refine ⟨fun n hn heq => ?_, hseq⟩
  rw [hsame, henter.table, (k.table_zero _).2, hinner1] at heq
  -- what else the stage has open is older than its file
  by_cases hn0 : n = k.copy0
  · rw [hn0, henter.valid.table_copy0, hzero] at heq
    exact absurd (h.sound.fds 0 _ h.zero) (by rw [Option.some.inj heq]; exact lt_irrefl _)
  by_cases hn1 : n = k.copy1
  · rw [hn1, henter.valid.table_copy1, hone] at heq
    exact absurd (h.sound.fds 1 _ h.one) (by rw [Option.some.inj heq]; exact lt_irrefl _)
  rw [Parking.table_of_ne hn hn0 hn1] at heq
  exact absurd (h.sound.fds n _ (without_eq_some heq)) (lt_irrefl _)

/-- **Programs** that leave reserved names alone are orderly stages, while the names of the stages
that are left are free. -/
theorem orderly_programs {held : List ℕ} {outer0 outer1 : ℕ} (tested : Bool) {l : List (List Op)}
    (htidy : ∀ ops ∈ l, ops.all Op.tidy = true) {prevfd : Option ℕ} {s : Ash}
    (hs : Joint held outer0 outer1 prevfd s) (hfree : ∀ i, i + 1 < l.length →
      s.io.names (capturePath .pipe ((s.pipeseq + 1 + i) % 2 ^ 32)) = none) :
    OrderlyStages held prevfd s (programs tested l) := by
  induction l generalizing prevfd s with
  | nil => exact .nil
  | cons ops l ih =>
    have hrun : ∀ s₁, ∃ status s₂,
        evaltree tested (simpleCommand (.external ops 0)) s₁ = (.ok status, s₂) ∧
          s₂.io = s₁.io.runAll ops ∧ s₂.pipeseq = s₁.pipeseq :=
      fun s₁ => Program.wp_returns.mpr (wp_external tested ops s₁)
    have hrespects : ∀ held' s₁, Respects held' s₁
        (evaltree tested (simpleCommand (.external ops 0)) s₁).2 := by
      intro held' s₁
      obtain ⟨status, s₂, hstage, hio, -⟩ := hrun s₁
      rw [hstage]
      exact respects_runAll (htidy ops List.mem_cons_self) hio
    have hname : programs tested l ≠ [] → s.io.names (nextTmp s) = none := by
      intro hne
      have hpos := List.length_pos_iff.mpr hne
      rw [programs, List.length_map] at hpos
      exact hfree 0 (by rw [List.length_cons]; omega)
    have hreturns : ∀ frame s₁, beginStage prevfd (programs tested l).isEmpty s = (.ok frame, s₁) →
        ∃ status s₂, evaltree tested (simpleCommand (.external ops 0)) s₁ = (.ok status, s₂) ∧
          (programs tested l ≠ [] → NoCopyLeft s₁ s₂) := by
      intro frame s₁ hbegin
      obtain ⟨status, s₂, hstage, hio, -⟩ := hrun s₁
      refine ⟨status, s₂, hstage, fun hne => ?_⟩
      rw [List.isEmpty_eq_false_iff.mpr hne] at hbegin
      apply (hs.noCopyLeft (hname hne) hbegin _).1
      funext n
      rw [hio]
      exact Io.runAll_fds s₁.io ops n
    refine .cons hname (fun frame s₁ _ => .command (hrespects _ s₁)) hreturns ?_
    intro frame s₁ status s₂ prevfd' s₃ hbegin hstage hend
    obtain ⟨frame', s₁', status', s₂', prevfd'', s₃', hround⟩ :=
      hs.round hname (fun _ s₁ _ _ => hrespects _ s₁) hreturns
    cases hround.begins.symm.trans hbegin
    cases hround.returns.symm.trans hstage
    cases hround.ends.symm.trans hend
    apply ih (fun ops' hmem => htidy ops' (List.mem_cons_of_mem _ hmem)) hround.joint
    intro i hi
    have hne : programs tested l ≠ [] := by
      rw [programs, Ne, List.map_eq_nil_iff]
      rintro rfl
      exact absurd hi (by simp)
    rw [hround.respects.names _ (reserved_capturePath .pipe _)]
    -- the next stage has the next number
    have hseq : s₃.pipeseq = (s.pipeseq + 1) % 2 ^ 32 := by
      obtain ⟨_, io, hend'⟩ := endStage_returns frame s₂
      cases hend'.symm.trans hend
      obtain ⟨status', s₂', hstage', -, hsame⟩ := hrun s₁
      cases hstage'.symm.trans hstage
      change beginStage prevfd (programs tested l).isEmpty s = _ at hbegin
      rw [List.isEmpty_eq_false_iff.mpr hne] at hbegin
      exact hsame.trans (hs.noCopyLeft (hname hne) hbegin rfl).2
    have hnumber : (s₃.pipeseq + 1 + i) % 2 ^ 32 = (s.pipeseq + 1 + (i + 1)) % 2 ^ 32 := by
      rw [hseq]
      omega
    rw [hnumber]
    exact hfree (i + 1) (by rw [List.length_cons]; omega)

/-- A pipeline in a tree. -/
theorem orderly_npipe {held : List ℕ} {tested : Bool} {cmdlist : Nodes} {s : Ash}
    (hzero : s.io.fds.get 0 ≠ none) (hone : s.io.fds.get 1 ≠ none)
    (h : OrderlyStages held none s (evaltrees tested cmdlist)) :
    Orderly held (evaltree tested (.npipe cmdlist)) s := by
  rw [evaltree]
  refine .bind (.pipe hzero hone h) fun status s' _ => .command (Respects.of_io ?_)
  -- setting and checking the status leaves the system alone
  have hwp : (setstatus status >>= checkexit tested).wp (fun _ t => t.io = s'.io)
      (fun _ t => t.io = s'.io) s' := by
    simp only [setstatus, checkexit, Program.wp_bind, Program.wp_modify, Program.wp_pure,
      Program.wp_read]
    split_ifs
    · rfl
    · rfl
  exact wp_snd hwp

/-- Every session begins sound. -/
theorem ready_start (input : Bytes) (files : List (Text × Bytes)) :
    Ready [] (Ash.start (Io.start input files)) := by
  refine ⟨⟨⟨fun path ino hname => ?_, fun d desc hd => ?_⟩, fun n d hn => ?_⟩, fun _ => rfl, by simp⟩
  · obtain ⟨i, hi, rfl⟩ := Option.map_eq_some_iff.mp hname
    have hlt := (List.findIdx?_eq_some_iff_findIdx_eq.mp hi).1
    show i + 2 < (input :: [] :: files.map Prod.snd).length
    rw [List.length_cons, List.length_cons, List.length_map]
    omega
  · have hmem := List.mem_of_getElem? hd
    show desc.ino < (input :: [] :: files.map Prod.snd).length
    rw [List.length_cons, List.length_cons]
    rcases List.mem_pair.mp hmem with rfl | rfl
    · exact Nat.succ_pos _
    · exact Nat.succ_lt_succ (Nat.succ_pos _)
  · show d < 2
    match n, hn with
    | 0, hn => cases hn; decide
    | 1, hn => cases hn; decide
    | 2, hn => cases hn; decide

/-- **Data flow**: an orderly pipeline that begins with nothing left to flush is piped from stage to
stage, to any depth. -/
theorem piped_of_orderly (stage : Sh UInt8) (rest : List (Sh UInt8)) (s : Ash) (hs : Ready [] s)
    (hzero : s.io.fds.get 0 ≠ none) (hone : s.io.fds.get 1 ≠ none) (hflushed : s.io.stdout = [])
    (h : OrderlyStages [] none s (stage :: rest)) : Piped (stage :: rest) s := by
  obtain ⟨outer0, hzero⟩ := Option.ne_none_iff_exists'.mp hzero
  obtain ⟨outer1, hone⟩ := Option.ne_none_iff_exists'.mp hone
  obtain ⟨st, s', heval, hrespects, hflows, htable⟩ := flows_of_orderly h
    ⟨hs, hzero, hone, by simp⟩ hflushed none (fun _ => rfl) (fun _ => rfl) 0
  refine ⟨outer0, outer1, st, s', hzero, hone, heval, hflows, ?_, ?_, fun n hn => ?_, fun n => ?_⟩
  · rw [htable 0 (Or.inl (Nat.zero_le 1)), without, hzero]
  · rw [htable 1 (Or.inl le_rfl), without, hone]
  · rw [htable n (Or.inr hn), without]
  · exact hrespects.names _ (reserved_capturePath .pipe n)

/-- `echo hi | cat`, in a stage of a pipeline. -/
def nestedCat : Nodes :=
  .cons (.npipe echoCat) (.cons (simpleCommand (.external [.getc, .getc] 0)) .nil)

theorem piped_nestedCat :
    Piped (evaltrees false nestedCat) (Ash.start (Io.start [] [])) := by
  let s : Ash := Ash.start (Io.start [] [])
  let inner : Sh UInt8 := evaltree false (.npipe echoCat)
  have hs : Ready [] s := ready_start [] []
  have hjoint : Joint [] 0 1 none s := ⟨hs, rfl, rfl, by simp⟩
  have hname : s.io.names (nextTmp s) = none := rfl
  -- the first stage is entered, and the pipeline in it is orderly
  have horderly : ∀ frame s₁, beginStage none false s = (.ok frame, s₁) →
      Orderly (frame.copies ++ []) inner s₁ := by
    intro frame s₁ hbegin
    obtain ⟨k, s₀, hbegin', henter, hzero, hone, hinner1, hnames, -, hseq, -⟩ :=
      hjoint.enter_more hname
    cases hbegin'.symm.trans hbegin
    have h0 : s₁.io.fds.get 0 = some k.inner0 := by rw [henter.table, (k.table_zero _).1]
    have h1 : s₁.io.fds.get 1 = some k.inner1 := by rw [henter.table, (k.table_zero _).2]
    apply orderly_npipe (by rw [h0]; simp) (by rw [h1]; simp)
    apply orderly_programs false (l := [[.put [104, 105, 10], .flush], [.getc]]) (by decide)
      ⟨henter.ready, h0, h1, by simp⟩
    intro i hi
    obtain rfl : i = 0 := by
      rw [List.length_cons, List.length_singleton] at hi
      omega
    rw [hnames, hseq, Function.update_of_ne]
    · rfl
    · intro heq
      exact absurd (capturePath_inj.mp heq).2 (by decide)
  -- it returns, with descriptor 1 the only one that leads to the file of the stage
  have hreturns : ∀ frame s₁, beginStage none false s = (.ok frame, s₁) →
      ∃ status s₂, inner s₁ = (.ok status, s₂) ∧ NoCopyLeft s₁ s₂ := by
    intro frame s₁ hbegin
    have hs₁ : s₁ = (beginStage none false s).2 := by rw [hbegin]
    have hok : (inner (beginStage none false s).2).1.isOk = true := by decide +kernel
    have hslots : (inner (beginStage none false s).2).2.io.fds.slots.drop 2 =
        [some 1, none, none, none, none, none, none, none, some 0, some 1, none, none] := by
      decide +kernel
    have hout : (beginStage none false s).2.io.fds.get 1 = some 2 := by decide +kernel
    rw [← hs₁] at hok hslots hout
    rcases hrun : inner s₁ with ⟨e | status, s₂⟩
    · rw [hrun] at hok
      cases hok
    · refine ⟨status, s₂, rfl, fun n hn heq => ?_⟩
      rw [hrun] at hslots
      rw [hout, Table.get, Option.join_eq_some_iff] at heq
      have hmem : some 2 ∈ s₂.io.fds.slots.drop 2 := by
        apply List.mem_of_getElem? (i := n - 2)
        rw [List.getElem?_drop, show 2 + (n - 2) = n by omega, heq]
      rw [hslots] at hmem
      exact absurd hmem (by decide)
  apply piped_of_orderly inner (programs false [[.getc, .getc]]) s hs (by decide) (by decide) rfl
  refine .cons (fun _ => hname) horderly (fun frame s₁ hbegin => ?_) ?_
  · obtain ⟨status, s₂, hrun, hcopy⟩ := hreturns frame s₁ hbegin
    exact ⟨status, s₂, hrun, fun _ => hcopy⟩
  · intro frame s₁ status s₂ prevfd' s₃ hbegin hstage hend
    obtain ⟨frame', s₁', status', s₂', prevfd'', s₃', hround⟩ := hjoint.round_more hname
      fun frame s₁ hbegin hready => by
        obtain ⟨status, s₂, hrun, hcopy⟩ := hreturns frame s₁ hbegin
        have hrespects := (horderly frame s₁ hbegin).respects hready
        rw [hrun] at hrespects
        exact ⟨status, s₂, hrun, hrespects, hcopy⟩
    cases hround.begins.symm.trans hbegin
    cases hround.returns.symm.trans hstage
    cases hround.ends.symm.trans hend
    exact orderly_programs false (by decide) hround.joint fun i hi => absurd hi (by simp)

/-- `echo $(exit 3 | cat) | cat`. -/
def exitSubst : Nodes :=
  .cons (.ncmd (.mk (.cons (.npipe exitCat) .nil) false) (.mk .nil false) (.mk .nil false) [] []
    (.external [.put [10], .flush] 0)) (.cons (simpleCommand (.external [.getc] 0)) .nil)

/-- Both stages return, but the pipeline in the substitution is left by `exit`: its file keeps its
name. -/
theorem not_piped_exitSubst :
    StagesReturn none (Ash.start (Io.start [] [])) (evaltrees false exitSubst) ∧
      ¬ Piped (evaltrees false exitSubst) (Ash.start (Io.start [] [])) ∧
      (evalpipe (evaltrees false exitSubst) (Ash.start (Io.start [] []))).2.io.names
        (capturePath .pipe 2) = some 4 := by
  have hreturns : (evalpipe (evaltrees false exitSubst)
      (Ash.start (Io.start [] []))).1.isOk = true := by
    decide +kernel
  have hlinked : (evalpipe (evaltrees false exitSubst)
      (Ash.start (Io.start [] []))).2.io.names (capturePath .pipe 2) = some 4 := by
    decide +kernel
  refine ⟨?_, ?_, hlinked⟩
  · rcases heval : evalpipe (evaltrees false exitSubst) (Ash.start (Io.start [] [])) with ⟨e | st, s'⟩
    · rw [heval] at hreturns
      cases hreturns
    · exact stagesReturn_of_ok heval
  · rintro ⟨outer0, outer1, status, s', -, -, heval, -, -, -, -, hnames⟩
    rw [heval, hnames 2] at hlinked
    cases hlinked

end OsMoap.Shell
