import OsMoap.Shell.Captures
import OsMoap.Shell.Io

/-!
# Files That Are Not Disturbed

What the calls of `OsMoap.Shell.Io` leave alone.  A file is *fed* by a description when nothing else
writes to it: it then holds what was written through the description, in order and from the
beginning.  The files of stages and of substitutions are fed for as long as no command opens them
by name, and a description that no descriptor leads to is never touched again.
-/

namespace OsMoap.Shell

open OsMoap.Lib OsMoap.Pack

/-- The names under which stages and substitutions keep their files. -/
def reserved (path : Text) : Bool :=
  Kind.pipe.stem.isPrefixOf path || Kind.subst.stem.isPrefixOf path

theorem reserved_capturePath (kind : Kind) (n : ℕ) : reserved (capturePath kind n) = true := by
  have hprefix : kind.stem.isPrefixOf (capturePath kind n) = true :=
    List.isPrefixOf_iff_prefix.mpr (List.prefix_append ..)
  cases kind with
  | pipe => rw [reserved, hprefix, Bool.true_or]
  | subst => rw [reserved, hprefix, Bool.or_true]

/-- Names and descriptions lead to files. -/
structure Io.Valid (io : Io) : Prop where
  names : ∀ path ino, io.names path = some ino → ino < io.data.length
  descs : ∀ (d : ℕ) (desc : Description), io.descs[d]? = some desc → desc.ino < io.data.length

/-- The file holds what has been written through the description, and nothing else writes to it. -/
structure Fed (io : Io) (d ino : ℕ) : Prop where
  writer : ∃ desc : Description, io.descs[d]? = some desc ∧ desc.ino = ino ∧ desc.access.appends = false ∧
    desc.offset = (io.contents ino).length ∧ desc.wrote = io.contents ino
  only : ∀ (d' : ℕ) (desc : Description), d' ≠ d → io.descs[d']? = some desc → desc.ino = ino →
    desc.access.writes = false
  names : ∀ path, io.names path = some ino → reserved path = true

/-- No descriptor leads to the description. -/
def Detached (io : Io) (d : ℕ) : Prop := ∀ n, io.fds.get n ≠ some d

/-- Nothing that is fed is disturbed, and nothing that is detached is touched. -/
structure Quiet (io io' : Io) : Prop where
  creatable : io'.creatable = io.creatable
  valid : io.Valid → io'.Valid
  fed : io.Valid → ∀ d ino, Fed io d ino → Fed io' d ino
  detached : ∀ (d : ℕ) (desc : Description), io.descs[d]? = some desc → Detached io d →
    io'.descs[d]? = some desc ∧ Detached io' d

namespace Quiet

variable {io io' io'' : Io}

theorem refl (io : Io) : Quiet io io :=
  ⟨rfl, fun h => h, fun _ _ _ h => h, fun _ _ hd h => ⟨hd, h⟩⟩

theorem trans (h : Quiet io io') (h' : Quiet io' io'') : Quiet io io'' where
  creatable := h'.creatable.trans h.creatable
  valid hvalid := h'.valid (h.valid hvalid)
  fed hvalid d ino hfed := h'.fed (h.valid hvalid) d ino (h.fed hvalid d ino hfed)
  detached d desc hd hdetached := by
    obtain ⟨hd', hdetached'⟩ := h.detached d desc hd hdetached
    exact h'.detached d desc hd' hdetached'

/-- Only descriptors and streams change, and descriptors lead where some led before. -/
theorem of_fds {t : Table ℕ} (stdin : Stdin) (stdout : Bytes)
    (h : ∀ n d, t.get n = some d → ∃ m, io.fds.get m = some d) :
    Quiet io { io with fds := t, stdin := stdin, stdout := stdout } where
  creatable := rfl
  valid hvalid := ⟨hvalid.names, hvalid.descs⟩
  fed _ _ _ hfed := ⟨hfed.writer, hfed.only, hfed.names⟩
  detached d desc hd hdetached := by
    refine ⟨hd, fun n hn => ?_⟩
    obtain ⟨m, hm⟩ := h n d hn
    exact hdetached m hm

theorem dupfd (io : Io) (fd min : ℕ) : Quiet io (io.dupfd fd min).2 := by
  cases hfd : io.fds.get fd with
  | none =>
    rw [Io.dupfd_of_closed hfd]
    exact refl io
  | some d =>
    rw [Io.dupfd_of_open hfd]
    apply of_fds
    intro n d' hn
    rw [Table.get_set] at hn
    split_ifs at hn with heq
    · obtain rfl := Option.some.inj hn
      exact ⟨fd, hfd⟩
    · exact ⟨n, hn⟩

theorem dup2 (io : Io) (old new : ℕ) : Quiet io (io.dup2 old new).2 := by
  cases hold : io.fds.get old with
  | none =>
    rw [Io.dup2_of_closed hold]
    exact refl io
  | some d =>
    rw [Io.dup2_of_open hold]
    apply of_fds
    intro n d' hn
    rw [Table.get_set] at hn
    split_ifs at hn with heq
    · obtain rfl := Option.some.inj hn
      exact ⟨old, hold⟩
    · exact ⟨n, hn⟩

theorem close (io : Io) (fd : ℕ) : Quiet io (io.close fd) := by
  apply of_fds
  intro n d hn
  rw [Table.get_set] at hn
  split_ifs at hn with heq
  exact ⟨n, hn⟩

theorem streams (io : Io) (stdin : Stdin) (stdout : Bytes) :
    Quiet io { io with stdin := stdin, stdout := stdout } := of_fds _ _ fun n _ hn => ⟨n, hn⟩

end Quiet

/-! ## Reading and writing -/

theorem description_eq_some {io : Io} {fd d : ℕ} {desc : Description}
    (h : io.description fd = some (d, desc)) :
    io.fds.get fd = some d ∧ io.descs[d]? = some desc := by
  rw [Io.description, Option.bind_eq_some_iff] at h
  obtain ⟨d', hfd, hdesc⟩ := h
  rw [Option.map_eq_some_iff] at hdesc
  obtain ⟨desc', hdesc', heq⟩ := hdesc
  cases heq
  exact ⟨hfd, hdesc'⟩

/-- What is read from a file that is fed is read at its end. -/
theorem Fed.read_nil {io : Io} {d ino n : ℕ} {desc : Description} (h : Fed io d ino)
    (hd : io.descs[d]? = some desc) : ((io.contents desc.ino).drop desc.offset).take n = [] := by
  obtain ⟨desc', hd', rfl, -, hoffset, -⟩ := h.writer
  obtain rfl := Option.some.inj (hd.symm.trans hd')
  rw [hoffset, List.drop_length, List.take_nil]

/-- The description that `e` is replaced by, and the others. -/
theorem getElem?_set_descs {io : Io} {e d : ℕ} {desc new desc' : Description}
    (he : io.descs[e]? = some desc) (hd : (io.descs.set e new)[d]? = some desc') :
    (e = d ∧ desc' = new) ∨ (e ≠ d ∧ io.descs[d]? = some desc') := by
  have hlt : e < io.descs.length := (List.getElem?_eq_some_iff.mp he).1
  by_cases hed : e = d
  · subst hed
    rw [List.getElem?_set_self hlt] at hd
    exact Or.inl ⟨rfl, (Option.some.inj hd).symm⟩
  · rw [List.getElem?_set_ne hed] at hd
    exact Or.inr ⟨hed, hd⟩

/-- An open description, and perhaps its file, are changed: what this means for what is fed. -/
theorem Quiet.of_description {io : Io} {fd e : ℕ} {desc new : Description} {data : List Bytes}
    (h : io.description fd = some (e, desc)) (hino : new.ino = desc.ino)
    (haccess : new.access = desc.access) (hlen : data.length = io.data.length)
    (hdata : ∀ ino, ino ≠ desc.ino → data[ino]? = io.data[ino]?)
    (hself : io.Valid → Fed io e desc.ino →
      Fed { io with data := data, descs := io.descs.set e new } e desc.ino)
    (hother : desc.access.writes = false → data[desc.ino]? = io.data[desc.ino]?) :
    Quiet io { io with data := data, descs := io.descs.set e new } := by
  obtain ⟨hfd, he⟩ := description_eq_some h
  refine ⟨rfl, fun hvalid => ⟨?_, fun d desc' hd => ?_⟩, fun hvalid d ino hfed => ?_,
    fun d desc' hd hdetached => ⟨?_, hdetached⟩⟩
  · rw [hlen]
    exact hvalid.names
  · rw [hlen]
    rcases getElem?_set_descs he hd with ⟨rfl, rfl⟩ | ⟨hne, hd⟩
    · rw [hino]
      exact hvalid.descs e desc he
    · exact hvalid.descs d desc' hd
  · obtain ⟨desc', hd', rfl, hwriter⟩ := hfed.writer
    by_cases hed : e = d
    · subst hed
      obtain rfl := Option.some.inj (he.symm.trans hd')
      exact hself hvalid hfed
    · -- the file is another one, or is not written to
      have hsame : data[desc'.ino]? = io.data[desc'.ino]? := by
        by_cases heq : desc'.ino = desc.ino
        · rw [heq]
          exact hother (hfed.only e desc hed he heq.symm)
        · exact hdata desc'.ino heq
      refine ⟨⟨desc', (List.getElem?_set_ne hed).trans hd', rfl, ?_⟩, ?_, hfed.names⟩
      · rw [show ({ io with data := data, descs := io.descs.set e new } : Io).contents desc'.ino =
          io.contents desc'.ino from congrArg (Option.getD · []) hsame]
        exact hwriter
      · intro d' desc'' hne hd'' hino'
        rcases getElem?_set_descs he hd'' with ⟨rfl, rfl⟩ | ⟨-, hd''⟩
        · rw [haccess]
          exact hfed.only e desc hne he (hino.symm.trans hino')
        · exact hfed.only d' desc'' hne hd'' hino'
  · have hne : e ≠ d := by
      rintro rfl
      exact hdetached fd hfd
    exact (List.getElem?_set_ne hne).trans hd

theorem Quiet.read (io : Io) (fd n : ℕ) : Quiet io (io.read fd n).2 := by
  rw [Io.read]
  split
  · exact Quiet.refl io
  · rename_i e desc hdesc
    split_ifs
    · refine Quiet.of_description hdesc ?_ ?_ rfl (fun _ _ => rfl) (fun hvalid hfed => ?_)
        fun _ => rfl
      · rfl
      · rfl
      obtain ⟨-, he⟩ := description_eq_some hdesc
      have hlt : e < io.descs.length := (List.getElem?_eq_some_iff.mp he).1
      have hset : io.descs.set e { desc with
          offset := desc.offset + (((io.contents desc.ino).drop desc.offset).take n).length } =
          io.descs := by
        apply List.ext_getElem?
        intro d
        by_cases hed : e = d
        · subst hed
          rw [List.getElem?_set_self hlt, hfed.read_nil he, he]
          rfl
        · exact List.getElem?_set_ne hed
      rw [hset]
      exact hfed
    · exact Quiet.refl io

theorem Quiet.write (io : Io) (fd : ℕ) (bs : Bytes) : Quiet io (io.write fd bs) := by
  rw [Io.write]
  split
  · exact Quiet.refl io
  · rename_i e desc hdesc
    obtain ⟨-, he⟩ := description_eq_some hdesc
    split
    · rename_i hwrites
      refine Quiet.of_description hdesc ?_ ?_ (List.length_set ..) (fun ino hne => ?_)
        (fun hvalid hfed => ?_) fun hnot => ?_
      · rfl
      · rfl
      · exact List.getElem?_set_ne (Ne.symm hne)
      · have hlt : e < io.descs.length := (List.getElem?_eq_some_iff.mp he).1
        have hino : desc.ino < io.data.length := hvalid.descs e desc he
        obtain ⟨desc', he', -, happends, hoffset, hwrote⟩ := hfed.writer
        obtain rfl := Option.some.inj (he.symm.trans he')
        -- the only writer of a file stands at its end
        have hover : overwrite (io.contents desc.ino) desc.offset bs =
            io.contents desc.ino ++ bs := by
          rw [hoffset, overwrite_length]
        simp only [happends, Bool.false_eq_true, if_false, hover]
        have hcontents : ((io.data.set desc.ino (io.contents desc.ino ++ bs))[desc.ino]?).getD [] =
            io.contents desc.ino ++ bs := by
          rw [List.getElem?_set_self hino]
          rfl
        refine ⟨⟨_, List.getElem?_set_self hlt, rfl, happends, ?_, ?_⟩, ?_, hfed.names⟩
        · exact (by rw [Io.contents, hcontents, List.length_append, hoffset])
        · exact (by rw [Io.contents, hcontents, hwrote])
        · intro d' desc'' hne hd'' hino'
          rcases getElem?_set_descs he hd'' with ⟨rfl, -⟩ | ⟨-, hd''⟩
          · exact absurd rfl hne
          · exact hfed.only d' desc'' hne hd'' hino'
      · exact absurd hwrites (by rw [hnot]; decide)
    · exact Quiet.refl io

theorem Quiet.fflushAll (io : Io) : Quiet io io.fflushAll :=
  (Quiet.write io 1 io.stdout).trans (Quiet.streams _ _ _)

theorem Quiet.getc (io : Io) : Quiet io io.getc.2 := by
  obtain ⟨stdin, h | h⟩ := Io.getc_eq io
  · rw [h]
    exact Quiet.streams io stdin io.stdout
  · rw [h]
    exact (Quiet.read io 0 Io.bufsiz).trans (Quiet.streams _ _ _)

/-! ## Opening and unlinking -/

/-- A new description comes after the others. -/
theorem install_descs {io : Io} {ino d : ℕ} {access : Access} {desc : Description} :
    (io.install ino access).2.descs[d]? = some desc ↔
      io.descs[d]? = some desc ∨ (d = io.descs.length ∧ desc = ⟨ino, 0, access, []⟩) := by
  show (io.descs ++ [⟨ino, 0, access, []⟩])[d]? = some desc ↔ _
  constructor
  · intro hd
    rw [List.getElem?_append] at hd
    split_ifs at hd with hlt
    · exact Or.inl hd
    · rw [List.getElem?_singleton] at hd
      split_ifs at hd with hzero
      exact Or.inr ⟨by omega, (Option.some.inj hd).symm⟩
  · rintro (hd | ⟨rfl, rfl⟩)
    · rw [List.getElem?_append_left (List.getElem?_eq_some_iff.mp hd).1, hd]
    · exact List.getElem?_concat_length

theorem Io.Valid.install {io : Io} {ino : ℕ} (hvalid : io.Valid) (hino : ino < io.data.length)
    (access : Access) : (io.install ino access).2.Valid := by
  refine ⟨hvalid.names, fun d desc hd => ?_⟩
  rcases install_descs.mp hd with hd | ⟨-, rfl⟩
  · exact hvalid.descs d desc hd
  · exact hino

theorem Fed.install {io : Io} {d ino ino' : ℕ} {access : Access} (hfed : Fed io d ino)
    (hwrites : ino' = ino → access.writes = false) : Fed (io.install ino' access).2 d ino := by
  obtain ⟨desc, hd, hwriter⟩ := hfed.writer
  refine ⟨⟨desc, install_descs.mpr (Or.inl hd), hwriter⟩, fun d' desc' hne hd' hino => ?_,
    hfed.names⟩
  rcases install_descs.mp hd' with hd' | ⟨-, rfl⟩
  · exact hfed.only d' desc' hne hd' hino
  · exact hwrites hino

theorem Detached.install {io : Io} {d : ℕ} {desc : Description} (hd : io.descs[d]? = some desc)
    (hdetached : Detached io d) (ino : ℕ) (access : Access) :
    (io.install ino access).2.descs[d]? = some desc ∧ Detached (io.install ino access).2 d := by
  refine ⟨install_descs.mpr (Or.inl hd), fun n hn => ?_⟩
  rw [Io.install, Table.get_set] at hn
  split_ifs at hn
  · obtain rfl := Option.some.inj hn
    rw [List.getElem?_eq_none le_rfl] at hd
    cases hd
  · exact hdetached n hn

theorem Quiet.truncate {io : Io} {ino : ℕ} (h : ∀ d, ¬ Fed io d ino) :
    Quiet io { io with data := io.data.set ino [] } := by
  refine ⟨rfl, fun hvalid => ⟨?_, ?_⟩, fun hvalid d ino' hfed => ?_, fun _ _ hd hdet => ⟨hd, hdet⟩⟩
  · rw [List.length_set]
    exact hvalid.names
  · rw [List.length_set]
    exact hvalid.descs
  · have hne : ino ≠ ino' := by
      rintro rfl
      exact h d hfed
    have hcontents : ({ io with data := io.data.set ino [] } : Io).contents ino' =
        io.contents ino' := congrArg (Option.getD · []) (List.getElem?_set_ne hne)
    refine ⟨?_, hfed.only, hfed.names⟩
    rw [hcontents]
    exact hfed.writer

/-- A new file. -/
theorem Quiet.create (io : Io) (path : Text) :
    Quiet io { io with
      data := io.data ++ [[]]
      names := Function.update io.names path (some io.data.length) } := by
  have hlen : (io.data ++ [[]]).length = io.data.length + 1 := List.length_append
  refine ⟨rfl, fun hvalid => ⟨fun path' ino hname => ?_, fun d desc hd => ?_⟩,
    fun hvalid d ino hfed => ?_, fun _ _ hd hdet => ⟨hd, hdet⟩⟩
  · show ino < (io.data ++ [[]]).length
    simp only [Function.update_apply] at hname
    split_ifs at hname
    · obtain rfl := Option.some.inj hname
      omega
    · have hlt := hvalid.names path' ino hname
      omega
  · show desc.ino < (io.data ++ [[]]).length
    have hlt := hvalid.descs d desc hd
    omega
  · obtain ⟨desc, hd, rfl, hwriter⟩ := hfed.writer
    -- the new file has a number of its own
    have hlt := hvalid.descs d desc hd
    have hcontents : ({ io with
        data := io.data ++ [[]]
        names := Function.update io.names path (some io.data.length) } : Io).contents desc.ino =
        io.contents desc.ino := congrArg (Option.getD · []) (List.getElem?_append_left hlt)
    refine ⟨⟨desc, hd, rfl, ?_⟩, hfed.only, fun path' hname => ?_⟩
    · rw [hcontents]
      exact hwriter
    · simp only [Function.update_apply] at hname
      split_ifs at hname
      · exact absurd (Option.some.inj hname) (by omega)
      · exact hfed.names path' hname

/-- A file that is opened by name is not one that is fed, or is not written to. -/
theorem Quiet.openFile {io io' : Io} {path : Text} {access : Access} {fd : ℕ}
    (h : io.openFile path access = some (fd, io'))
    (hpath : reserved path = true → io.names path = none ∨
      (access.writes = false ∧ access.truncates = false)) : Quiet io io' := by
  rw [Io.openFile] at h
  split at h
  · rename_i ino hname
    cases h
    -- if the file is fed it has a reserved name only
    have hfed : ∀ d, Fed io d ino → access.writes = false ∧ access.truncates = false := by
      intro d hfed
      apply (hpath (hfed.names path hname)).resolve_left
      rw [hname]
      simp
    have hdata : Quiet io { io with
        data := if access.truncates then io.data.set ino [] else io.data } := by
      split_ifs with htrunc
      · apply Quiet.truncate
        intro d hd
        exact absurd htrunc (by rw [(hfed d hd).2]; decide)
      · exact Quiet.refl io
    refine ⟨rfl, fun hvalid => ?_, fun hvalid d ino' hd => ?_, fun d desc hd hdetached => ?_⟩
    · exact (hdata.valid hvalid).install ((hdata.valid hvalid).names path ino hname) access
    · apply (hdata.fed hvalid d ino' hd).install
      rintro rfl
      exact (hfed d hd).1
    · exact hdetached.install hd ino access
  · split_ifs at h
    cases h
    have hdata := Quiet.create io path
    refine ⟨rfl, fun hvalid => ?_, fun hvalid d ino hd => ?_, fun d desc hd hdetached => ?_⟩
    · apply (hdata.valid hvalid).install
      exact (hdata.valid hvalid).names path io.data.length (Function.update_self ..)
    · apply (hdata.fed hvalid d ino hd).install
      rintro rfl
      -- a file that is fed exists
      obtain ⟨desc, hdesc, hino, -⟩ := hd.writer
      have hlt := hvalid.descs d desc hdesc
      omega
    · exact hdetached.install hd io.data.length access

/-- Only the name that is opened is touched. -/
theorem openFile_names {io io' : Io} {path : Text} {access : Access} {fd : ℕ}
    (h : io.openFile path access = some (fd, io')) {path' : Text} (hne : path' ≠ path) :
    io'.names path' = io.names path' := by
  rw [Io.openFile] at h
  split at h
  · cases h
    rfl
  · split_ifs at h
    cases h
    exact Function.update_of_ne hne ..

theorem Quiet.unlink (io : Io) (path : Text) : Quiet io (io.unlink path) := by
  have hnames : ∀ path' ino, (io.unlink path).names path' = some ino → io.names path' = some ino := by
    intro path' ino hname
    simp only [Io.unlink, Function.update_apply] at hname
    split_ifs at hname
    exact hname
  exact {
    creatable := rfl
    valid := fun hvalid =>
      ⟨fun path' ino hname => hvalid.names path' ino (hnames path' ino hname), hvalid.descs⟩
    fed := fun _ d ino hfed =>
      ⟨hfed.writer, hfed.only, fun path' hname => hfed.names path' (hnames path' ino hname)⟩
    detached := fun _ _ hd hdetached => ⟨hd, hdetached⟩ }

/-! ## Commands that leave reserved names alone -/

/-- The names that stages and substitutions use lead where they led. -/
def SameReserved (io io' : Io) : Prop := ∀ path, reserved path = true → io'.names path = io.names path

def Op.tidy : Op → Bool
  | .create path _ => !reserved path
  | .unlink path => !reserved path
  | _ => true

theorem Quiet.run {io : Io} {op : Op} (h : op.tidy = true) : Quiet io (io.run op) := by
  cases op with
  | getc => exact Quiet.getc io
  | put bs => exact Quiet.streams io io.stdin (io.stdout ++ bs)
  | flush => exact Quiet.fflushAll io
  | read fd n => exact Quiet.read io fd n
  | write fd bs => exact Quiet.write io fd bs
  | create path bs =>
    rw [Io.run]
    split
    · exact Quiet.refl io
    · rename_i fd io' hopen
      have hquiet := Quiet.openFile hopen fun hreserved => absurd h (by simp [Op.tidy, hreserved])
      exact hquiet.trans ((Quiet.write io' fd bs).trans (Quiet.close _ fd))
  | unlink path => exact Quiet.unlink io path

@[simp]
theorem Io.write_names (io : Io) (fd : ℕ) (bs : Bytes) : (io.write fd bs).names = io.names := by
  rw [Io.write]
  split
  · rfl
  · split
    · rfl
    · rfl

@[simp]
theorem Io.read_names (io : Io) (fd n : ℕ) : (io.read fd n).2.names = io.names := by
  rw [Io.read]
  split
  · rfl
  · split_ifs
    · rfl
    · rfl

@[simp]
theorem Io.fflushAll_names (io : Io) : io.fflushAll.names = io.names := Io.write_names ..

theorem SameReserved.run {io : Io} {op : Op} (h : op.tidy = true) : SameReserved io (io.run op) := by
  intro path hpath
  cases op with
  | getc =>
    obtain ⟨stdin, heq | heq⟩ := Io.getc_eq io
    · rw [Io.run, heq]
    · rw [Io.run, heq]
      exact congrFun (Io.read_names io 0 Io.bufsiz) path
  | put bs => rfl
  | flush => exact congrFun (Io.fflushAll_names io) path
  | read fd n => exact congrFun (Io.read_names io fd n) path
  | write fd bs => exact congrFun (Io.write_names io fd bs) path
  | create path' bs =>
    rw [Io.run]
    split
    · rfl
    · rename_i fd io' hopen
      rw [Io.close, Io.write_names, openFile_names hopen]
      rintro rfl
      simp [Op.tidy, hpath] at h
  | unlink path' =>
    apply Function.update_of_ne
    rintro rfl
    simp [Op.tidy, hpath] at h

theorem runAll_quiet {io : Io} {ops : List Op} (h : ops.all Op.tidy = true) :
    Quiet io (io.runAll ops) ∧ SameReserved io (io.runAll ops) := by
  induction ops generalizing io with
  | nil => exact ⟨Quiet.refl io, fun _ _ => rfl⟩
  | cons op ops ih =>
    rw [List.all_cons, Bool.and_eq_true] at h
    obtain ⟨hquiet, hsame⟩ := @ih (io.run op) h.2
    rw [Io.runAll, List.foldl_cons]
    exact ⟨(Quiet.run h.1).trans hquiet,
      fun path hpath => (hsame path hpath).trans (SameReserved.run h.1 path hpath)⟩

end OsMoap.Shell
