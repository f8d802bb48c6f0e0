import OsMoap.Apk.Effects
import OsMoap.Apk.RoundTrip
import OsMoap.Apk.Files

/-!
# `apk`: Truncated Archives

`tar_extract` tells three ends apart: a header that cannot be read whole and a header of zeros end
the archive, and data that cannot be read whole is fatal.  So an archive that was cut short is
noticed where the cut is in the data of a member (`CutInData`), and taken for a complete, shorter
archive where it is in a header, in the padding behind the data, or between two members.

`unregistered_iff` says when `install_tar_file` refuses what is left of an archive.
-/

namespace OsMoap.Apk

open OsMoap.Lib OsMoap.Pack

/-! ## Where the data is -/

/-- The size in the header at an offset. -/
def sizeAt (content : Bytes) (off : ℕ) : ℕ :=
  oct ((((content.drop off).take 512).drop 124).take 12)

/-- Where the loop goes on. -/
def TarStep.next : TarStep → Option ℕ
  | .stop | .truncated => none
  | .skip next | .pkginfo _ next | .member _ _ next => some next

/-- Where the data of each member starts and how long it is, from an offset on. -/
def dataSpansFrom (content : Bytes) : ℕ → ℕ → List (ℕ × ℕ)
  | 0, _ => []
  | fuel + 1, off =>
    match tarStep content off with
    | .stop => []
    | step => (off + 512, sizeAt content off) ::
      match step.next with
      | none => []
      | some next => dataSpansFrom content fuel next

/-- Where the data of each member of an archive starts and how long it is. -/
def dataSpans (content : Bytes) : List (ℕ × ℕ) :=
  dataSpansFrom content (content.length / 512 + 1) 0

/-- A cut behind `n` bytes leaves a whole header and not the whole of the data it announces.  No
data of `2 ^ 32 - 1` bytes can be read. -/
def CutsSpan (n : ℕ) (span : ℕ × ℕ) : Prop :=
  span.1 ≤ n ∧ (n < span.1 + span.2 ∨ span.2 + 1 = 2 ^ 32)

instance (n : ℕ) (span : ℕ × ℕ) : Decidable (CutsSpan n span) :=
  inferInstanceAs (Decidable (_ ∧ _))

/-- The cut behind `n` bytes is in the data of a member. -/
def CutInData (tar : Bytes) (n : ℕ) : Prop := ∃ span ∈ dataSpans tar, CutsSpan n span

instance (tar : Bytes) (n : ℕ) : Decidable (CutInData tar n) :=
  inferInstanceAs (Decidable (∃ _ ∈ _, _))

/-! ## One header of a cut archive -/

/-- The header at an offset, or what is left of it. -/
def headerAt (content : Bytes) (off : ℕ) : Bytes := (content.drop off).take 512

/-- What the loop makes of a header whose data was read. -/
def readMember (hdr data : Bytes) (next : ℕ) : TarStep :=
  if hdr[156]? ≠ some 48 ∧ hdr[156]? ≠ some 0 then .skip next
  else if cstr (hdr.take 100) = ascii ".PKGINFO" then .pkginfo (cstr data) next
  else .member (cstr (hdr.take 100)) data next

theorem next_readMember (hdr data : Bytes) (next : ℕ) :
    (readMember hdr data next).next = some next := by
  unfold readMember
  split_ifs <;> rfl

/-- The end of the archive, data that is missing, or a member. -/
theorem tarStep_eq (content : Bytes) (off : ℕ) : tarStep content off =
    if (headerAt content off).length ≠ 512 ∨ (headerAt content off).head? = some 0 then .stop
    else if content.length < off + 512 + sizeAt content off ∨ sizeAt content off + 1 = 2 ^ 32 then
      .truncated
    else readMember (headerAt content off)
      ((content.drop (off + 512)).take (sizeAt content off))
      (off + 512 + sizeAt content off + (512 - sizeAt content off % 512) % 512) := by
  have hunfold : tarStep content off =
      if (headerAt content off).length ≠ 512 then .stop
      else if (headerAt content off).head? = some 0 then .stop
      else if sizeAt content off + 1 = 2 ^ 32 ∨
          ((content.drop (off + 512)).take (sizeAt content off)).length ≠ sizeAt content off then
        .truncated
      else readMember (headerAt content off)
        ((content.drop (off + 512)).take (sizeAt content off))
        (off + 512 + sizeAt content off + (512 - sizeAt content off % 512) % 512) := rfl
  by_cases hlen : (headerAt content off).length ≠ 512
  · rw [hunfold, if_pos hlen, if_pos (Or.inl hlen)]
  · by_cases hhead : (headerAt content off).head? = some 0
    · rw [hunfold, if_neg hlen, if_pos hhead, if_pos (Or.inr hhead)]
    · have hoff : off + 512 ≤ content.length := by
        rw [headerAt, List.length_take, List.length_drop] at hlen
        omega
      -- a short read of the data, said with the length of the archive
      have hdata : (sizeAt content off + 1 = 2 ^ 32 ∨
          ((content.drop (off + 512)).take (sizeAt content off)).length ≠ sizeAt content off) ↔
          content.length < off + 512 + sizeAt content off ∨ sizeAt content off + 1 = 2 ^ 32 := by
        rw [List.length_take, List.length_drop]
        omega
      rw [hunfold, if_neg hlen, if_neg hhead, if_neg (not_or.mpr ⟨hlen, hhead⟩)]
      simp only [hdata]

/-- A header that the cut went through ends the archive. -/
theorem tarStep_of_cut_header {content : Bytes} {off : ℕ} (h : content.length < off + 512) :
    tarStep content off = .stop := by
  have hlen : (headerAt content off).length ≠ 512 := by
    rw [headerAt, List.length_take, List.length_drop]
    omega
  rw [tarStep_eq, if_pos (Or.inl hlen)]

/-- What is before the cut is read as it was, and data that the cut went through is found
missing. -/
theorem tarStep_cut {content pre : Bytes} (hpre : pre <+: content) {off : ℕ}
    (hthere : off + 512 ≤ pre.length) : tarStep pre off =
      match tarStep content off with
      | .stop => .stop
      | step => if CutsSpan pre.length (off + 512, sizeAt content off) then .truncated else step := by
  obtain ⟨rest, rfl⟩ := hpre
  -- the header is there in full, and only the data may be missing
  have hhdr : headerAt (pre ++ rest) off = headerAt pre off := by
    rw [headerAt, List.drop_append_of_le_length (by omega), List.take_append_of_le_length, headerAt]
    rw [List.length_drop]
    omega
  have hsize : sizeAt (pre ++ rest) off = sizeAt pre off := by
    have h : ∀ b, sizeAt b off = oct (((headerAt b off).drop 124).take 12) := fun _ => rfl
    rw [h, hhdr, h]
  have hcuts : CutsSpan pre.length (off + 512, sizeAt pre off) ↔
      pre.length < off + 512 + sizeAt pre off ∨ sizeAt pre off + 1 = 2 ^ 32 :=
    and_iff_right hthere
  rw [tarStep_eq pre, tarStep_eq (pre ++ rest), hhdr, hsize]
  by_cases hstop : (headerAt pre off).length ≠ 512 ∨ (headerAt pre off).head? = some 0
  · simp only [if_pos hstop]
  rw [if_neg hstop, if_neg hstop]
  by_cases hcut : CutsSpan pre.length (off + 512, sizeAt pre off)
  · rw [if_pos (hcuts.mp hcut)]
    split_ifs with hfull
    · rfl
    · unfold readMember
      split_ifs <;> rfl
  · have hread : ((pre ++ rest).drop (off + 512)).take (sizeAt pre off)
        = (pre.drop (off + 512)).take (sizeAt pre off) := by
      have hle : off + 512 + sizeAt pre off ≤ pre.length := by
        by_contra hlt
        exact hcut (hcuts.mpr (Or.inl (by omega)))
      rw [List.drop_append_of_le_length (by omega), List.take_append_of_le_length]
      rw [List.length_drop]
      omega
    have hfull : ¬ ((pre ++ rest).length < off + 512 + sizeAt pre off ∨
        sizeAt pre off + 1 = 2 ^ 32) := by
      rw [List.length_append]
      intro h
      refine hcut (hcuts.mpr ?_)
      rcases h with h | h
      · exact Or.inl (by omega)
      · exact Or.inr h
    rw [if_neg fun h => hcut (hcuts.mpr h), if_neg hfull, hread]
    unfold readMember
    split_ifs <;> rfl

/-! ## The headers of a cut archive -/

theorem next_tarStep {content : Bytes} {off : ℕ} (hstop : tarStep content off ≠ .stop) :
    ((tarStep content off).next = none ∧ tarStep content off = .truncated ∧
      (content.length < off + 512 + sizeAt content off ∨ sizeAt content off + 1 = 2 ^ 32)) ∨
    ∃ next, (tarStep content off).next = some next ∧ off + 512 ≤ next := by
  rw [tarStep_eq] at hstop ⊢
  split_ifs at hstop ⊢ with hend hcut
  · exact absurd rfl hstop
  · exact Or.inl ⟨rfl, rfl, hcut⟩
  · refine Or.inr ⟨_, next_readMember _ _ _, ?_⟩
    omega

theorem snd_membersFrom_of_next {content : Bytes} {fuel off next : ℕ}
    (h : (tarStep content off).next = some next) :
    (membersFrom content (fuel + 1) off).2 = (membersFrom content fuel next).2 := by
  rw [membersFrom]
  cases hstep : tarStep content off <;> rw [hstep] at h <;> simp_all [TarStep.next]

theorem dataSpansFrom_of_ne_stop {content : Bytes} {fuel off : ℕ}
    (h : tarStep content off ≠ .stop) : dataSpansFrom content (fuel + 1) off =
      (off + 512, sizeAt content off) :: match (tarStep content off).next with
        | none => []
        | some next => dataSpansFrom content fuel next := by
  rw [dataSpansFrom]
  cases hstep : tarStep content off with
  | stop => exact absurd hstep h
  | _ => rfl

/-- The data behind an offset starts behind the header there. -/
theorem le_of_mem_dataSpansFrom {content : Bytes} {fuel off : ℕ} {span : ℕ × ℕ}
    (h : span ∈ dataSpansFrom content fuel off) : off + 512 ≤ span.1 := by
  induction fuel generalizing off with
  | zero => simp [dataSpansFrom] at h
  | succ fuel ih =>
    by_cases hstop : tarStep content off = .stop
    · rw [dataSpansFrom, hstop] at h
      simp at h
    · rw [dataSpansFrom_of_ne_stop hstop] at h
      rcases List.mem_cons.mp h with rfl | h
      · exact Nat.le_refl _
      · rcases next_tarStep hstop with ⟨hnone, -, -⟩ | ⟨next, hnext, hle⟩
        · rw [hnone] at h
          simp at h
        · rw [hnext] at h
          have := ih h
          omega

/-- A cut archive is read to its end exactly when the cut is in the data of no member. -/
theorem snd_membersFrom_cut {content pre : Bytes} (hpre : pre <+: content) {fuel fuel' off : ℕ}
    (hfuel : fuel' ≤ fuel) (hlen : pre.length < off + 512 * fuel') :
    (membersFrom pre fuel' off).2 = true ↔
      ∀ span ∈ dataSpansFrom content fuel off, ¬ CutsSpan pre.length span := by
  have hbehind : pre.length < off + 512 → ∀ span ∈ dataSpansFrom content fuel off,
      ¬ CutsSpan pre.length span := by
    intro hcut span hspan hin
    have h1 := le_of_mem_dataSpansFrom hspan
    have h2 := hin.1
    omega
  induction fuel' generalizing fuel off with
  | zero =>
    rw [membersFrom]
    exact iff_of_true rfl (hbehind (by omega))
  | succ fuel' ih =>
    obtain ⟨fuel, rfl⟩ : ∃ n, fuel = n + 1 := ⟨fuel - 1, by omega⟩
    by_cases hcut : pre.length < off + 512
    · rw [membersFrom, tarStep_of_cut_header hcut]
      exact iff_of_true rfl (hbehind hcut)
    have hstep := tarStep_cut hpre (show off + 512 ≤ pre.length by omega)
    by_cases hstop : tarStep content off = .stop
    · rw [hstop] at hstep
      rw [membersFrom, hstep, dataSpansFrom, hstop]
      simp
    rw [dataSpansFrom_of_ne_stop hstop, List.forall_mem_cons]
    have hstep' : tarStep pre off =
        if CutsSpan pre.length (off + 512, sizeAt content off) then .truncated
        else tarStep content off := by
      rw [hstep]
      cases h : tarStep content off with
      | stop => exact absurd h hstop
      | _ => rfl
    by_cases hin : CutsSpan pre.length (off + 512, sizeAt content off)
    · rw [membersFrom, hstep', if_pos hin]
      simp [hin]
    · rw [if_neg hin] at hstep'
      rcases next_tarStep hstop with ⟨-, -, hmissing⟩ | ⟨next, hnext, hle⟩
      · -- what is missing in the whole archive is missing in the cut one
        refine absurd ⟨by omega, ?_⟩ hin
        have := hpre.length_le
        rcases hmissing with h | h
        · exact Or.inl (by omega)
        · exact Or.inr h
      · rw [snd_membersFrom_of_next (hstep' ▸ hnext), hnext]
        simp only [hin, not_false_eq_true, true_and]
        refine ih (by omega) (by omega) fun hlt span hspan hc => ?_
        have h1 := le_of_mem_dataSpansFrom hspan
        have h2 := hc.1
        omega

/-- **A cut archive is found incomplete** exactly when the cut is in the data of a member. -/
theorem complete_cut_iff {tar pre : Bytes} (hpre : pre <+: tar) :
    Complete pre ↔ ¬ CutInData tar pre.length := by
  have hlen := hpre.length_le
  have hfuel : pre.length / 512 + 1 ≤ tar.length / 512 + 1 :=
    Nat.add_le_add_right (Nat.div_le_div_right hlen) 1
  rw [Complete, snd_membersFrom_cut hpre hfuel (by omega), CutInData, dataSpans]
  simp

/-! ## The data of packed entries -/

/-- Where the data of packed entries is, the first block starting at an offset. -/
def entrySpans (off : ℕ) : List TarEntry → List (ℕ × ℕ)
  | [] => []
  | e :: es => (off + 512, e.2.length) ::
    entrySpans (off + 512 + e.2.length + (512 - e.2.length % 512) % 512) es

theorem sizeAt_block {content rest : Bytes} {off : ℕ} {e : TarEntry} {block : Bytes}
    (hblock : addfile e = some block) (hat : content.drop off = block ++ rest) :
    sizeAt content off = e.2.length % 2 ^ 32 := by
  obtain ⟨pfx, name, sizeField, -, hsize, rfl⟩ := addfile_spec hblock
  have hlen12 := length_itn (by decide) hsize
  rw [sizeAt, hat, List.append_assoc, List.append_assoc,
    List.take_left' (length_ustarHeader (utf8 pfx) (utf8 name) hlen12),
    size_field_ustarHeader (utf8 pfx) (utf8 name) hlen12, oct_itn hsize]

theorem dataSpansFrom_blocks {content : Bytes} {es : List TarEntry} {blocks : List Bytes}
    (hes : ∀ e ∈ es, IsArc e.1 ∧ e.2.length + 1 < 2 ^ 32)
    (hblocks : es.mapM addfile = some blocks) {off fuel n : ℕ} (hn : 512 ≤ n)
    (hat : content.drop off = blocks.flatten ++ List.replicate n 0) (hfuel : es.length < fuel) :
    dataSpansFrom content fuel off = entrySpans off es := by
  induction es generalizing blocks off fuel with
  | nil =>
    obtain rfl : blocks = [] := by simpa using hblocks.symm
    obtain ⟨fuel, rfl⟩ : ∃ n, fuel = n + 1 := ⟨fuel - 1, by simp at hfuel; omega⟩
    rw [dataSpansFrom, tarStep_zeros hn (by simpa using hat)]
    rfl
  | cons e es ih =>
    obtain ⟨fuel, rfl⟩ : ∃ n, fuel = n + 1 := ⟨fuel - 1, by simp at hfuel; omega⟩
    rw [List.mapM_cons] at hblocks
    simp only [Option.bind_eq_bind, Option.bind_eq_some_iff, Option.pure_def,
      Option.some.injEq] at hblocks
    obtain ⟨block, hblock, blocks, hblocks, rfl⟩ := hblocks
    obtain ⟨harc, hsize⟩ := hes e List.mem_cons_self
    obtain ⟨pfx, name, -, hname, -, -⟩ := addfile_spec hblock
    have hmod : e.2.length % 2 ^ 32 = e.2.length := Nat.mod_eq_of_lt (by omega)
    rw [List.flatten_cons, List.append_assoc] at hat
    have hstep := tarStep_block harc hname hblock hat
    rw [hmod, if_neg (by omega)] at hstep
    -- the same offset for `.PKGINFO` and for a member
    have hnext : (tarStep content off).next
        = some (off + 512 + e.2.length + (512 - e.2.length % 512) % 512) := by
      rw [hstep]
      split_ifs <;> rfl
    have hstop : tarStep content off ≠ .stop := by
      intro h
      simp [h, TarStep.next] at hnext
    have hat' : content.drop (off + 512 + e.2.length + (512 - e.2.length % 512) % 512)
        = blocks.flatten ++ List.replicate n 0 := by
      have hlen := length_addfile hblock
      rw [Nat.add_assoc, Nat.add_assoc, ← Nat.add_assoc 512, ← hlen, ← List.drop_drop, hat,
        List.drop_left]
    rw [dataSpansFrom_of_ne_stop hstop, hnext, sizeAt_block hblock hat, hmod, entrySpans]
    exact congrArg _ (ih (fun e' he' => hes e' (List.mem_cons_of_mem _ he')) hblocks hat'
      (Nat.lt_of_succ_lt_succ hfuel))

/-- The data of an archive is that of its entries, in the order they are packed in, each behind a
header and before its padding. -/
theorem dataSpans_buildTar {entries : List TarEntry} {tar : Bytes}
    (hes : ∀ e ∈ entries, IsArc e.1 ∧ e.2.length + 1 < 2 ^ 32)
    (htar : buildTar entries = some tar) : dataSpans tar = entrySpans 0 (sortEntries entries) := by
  obtain ⟨blocks, n, hblocks, hn, rfl⟩ := buildTar_spec htar
  refine dataSpansFrom_blocks (fun e he => hes e (mem_sortEntries.mp he)) hblocks hn rfl ?_
  have hlen := length_le_flatten hblocks
  rw [List.length_append]
  omega

/-! ## Extraction -/

/-- The members up to the first one that is written over the archive. -/
def upTo (tar : List Bytes) : List (Bytes × Bytes) → List (Bytes × Bytes)
  | [] => []
  | m :: ms => if keyOf (absPath m.1) = some tar then [m] else m :: upTo tar ms

/-- A member is written over the archive. -/
def Overwritten (tar : List Bytes) (ms : List (Bytes × Bytes)) : Prop :=
  ∃ m ∈ ms, keyOf (absPath m.1) = some tar

/-- Behind the end of the archive there is nothing more to read. -/
theorem tarLoop_of_length_le {tar : FileRef Bytes} {fuel off : ℕ} {s : State} {files : Bytes}
    {pkginfo : Option Bytes} (h : (archiveNow tar s).length ≤ off) :
    tarLoop tar fuel s off files pkginfo = (some (files, pkginfo), s) := by
  cases fuel with
  | zero => rfl
  | succ fuel => rw [tarLoop, tarStep_of_length_le h]

section Loop

variable {tar : FileRef Bytes} {content : Bytes} {fuel off : ℕ} {s : State} {files : Bytes}
  {pkginfo : Option Bytes} (hnow : archiveNow tar s = content)

include hnow

/-- **What extraction comes to**: it returns, with the members up to the one that is written over
the archive in place, exactly when they can be written and either there is such a member or no
data is missing. -/
theorem tarLoop_outcome :
    match writeMembers s.tree (upTo tar.key (membersFrom content fuel off).1) with
    | none => (tarLoop tar fuel s off files pkginfo).1 = none
    | some t =>
      ((membersFrom content fuel off).2 = true ∨
          Overwritten tar.key (membersFrom content fuel off).1 →
        ∃ out, tarLoop tar fuel s off files pkginfo = (some out, { s with tree := t })) ∧
      (¬ ((membersFrom content fuel off).2 = true ∨
          Overwritten tar.key (membersFrom content fuel off).1) →
        (tarLoop tar fuel s off files pkginfo).1 = none) := by
  induction fuel generalizing s off files pkginfo with
  | zero => simp [membersFrom, upTo, writeMembers, tarLoop]
  | succ fuel ih =>
    rw [membersFrom, tarLoop, hnow]
    cases hstep : tarStep content off with
    | stop => simp [upTo, writeMembers]
    | truncated => simp [upTo, writeMembers, Overwritten, die]
    | skip next => exact ih hnow
    | pkginfo data next => exact ih hnow
    | member name data next =>
      simp only [extractMember_eq]
      by_cases hself : keyOf (absPath name) = some tar.key
      · -- the archive is replaced, and the next header lies behind its end
        rw [upTo, if_pos hself, writeMembers]
        cases hput : putPath (s.tree.mkdirs (dirname (absPath name))) (absPath name)
            fun _ => data with
        | none => simp [cantOpen, die]
        | some t =>
          obtain ⟨k, hk, -, hfile, -⟩ := putPath_eq_some hput
          obtain rfl : tar.key = k := Option.some.inj (hself.symm.trans hk)
          have hend : (archiveNow tar { s with tree := t }).length ≤ next := by
            rw [archiveNow, hfile, Function.update_self, Option.getD_some]
            exact (length_le_of_tarStep hstep).1
          simp only [Option.bind_some, writeMembers, tarLoop_of_length_le hend]
          refine ⟨fun _ => ⟨_, rfl⟩, fun hno => absurd (Or.inr ?_) hno⟩
          exact ⟨_, List.mem_cons_self, hself⟩
      · rw [upTo, if_neg hself, writeMembers]
        cases hput : putPath (s.tree.mkdirs (dirname (absPath name))) (absPath name)
            fun _ => data with
        | none => simp [cantOpen, die]
        | some t =>
          have hnow' := (archiveNow_of_put hself hput).trans hnow
          have hover : Overwritten tar.key ((name, data) :: (membersFrom content fuel next).1) ↔
              Overwritten tar.key (membersFrom content fuel next).1 := by
            simp [Overwritten, hself]
          have hih := @ih next { s with tree := t } (files ++ (fileLine name ++ [nl])) pkginfo hnow'
          simp only [Option.bind_some, hover]
          exact hih

end Loop

/-! ## Registration -/

/-- The database can be opened once the archive is extracted and gone. -/
def DbOpens (t : FileTree Bytes Bytes) : Prop :=
  ((unlinkPath t tartmp).mkdirs dbRef.dir).Open dbRef

/-- `install_tar_file` dies, and the database and the world are as `tar_extract` left them: no
stanza and no line were appended. -/
structure Unregistered (name : Bytes) (recordWorld : Bool) (s : State) : Prop where
  dies : (installTarFile name recordWorld s).1 = none
  db : (installTarFile name recordWorld s).2.tree.file dbRef.key
    = (tarExtract tartmp s).2.tree.file dbRef.key
  world : (installTarFile name recordWorld s).2.tree.file worldRef.key
    = (tarExtract tartmp s).2.tree.file worldRef.key

theorem appendFile_isSome_iff {path text : Bytes} {ref : FileRef Bytes} {s : State}
    (href : fileRef path = some ref) (hdir : dirname path = ref.dir) :
    (appendFile path text s).1 = some () ↔ (s.tree.mkdirs ref.dir).Open ref := by
  constructor
  · intro h
    have hopen : ∀ t t' : FileTree Bytes Bytes,
        putPath t path (fun old => old.getD [] ++ text) = some t' → t.Open ref := by
      intro t t' ht
      rw [putPath, href, Option.bind_some] at ht
      exact FileTree.open_of_put ht
    unfold appendFile at h
    simp only at h
    split at h
    · rename_i t ht
      have := hopen _ _ ht
      rwa [FileTree.mkdirs_of_open this]
    · split at h
      · rename_i t ht
        rw [hdir] at ht
        exact hopen _ _ ht
      · simp [cantOpen, die] at h
  · intro h
    exact appendFile_isSome href (by rwa [hdir]) text

/-- Recording a name in the world leaves the database alone. -/
theorem file_db_record (name : Bytes) (recordWorld : Bool) (s : State) :
    (if recordWorld = true then recordInWorld name s else (some (), s)).2.tree.file dbRef.key
      = s.tree.file dbRef.key := by
  split_ifs
  · rcases hrec : recordInWorld name s with ⟨_ | ⟨⟩, s'⟩
    · obtain ⟨-, -, hsame, -⟩ := recordInWorld_spec hrec
      rw [hsame rfl]
    · obtain ⟨-, -, -, hdone⟩ := recordInWorld_spec hrec
      rw [hdone rfl]
      unfold recordText appendText
      split_ifs
      · rw [Function.update_of_ne dbRef_ne_worldRef]
      · rfl
  · rfl

/-- An extraction that died is not registered, and one that returned is, unless the database
cannot be opened. -/
theorem unregistered_of_extract (name : Bytes) (recordWorld : Bool) (s : State) :
    Unregistered name recordWorld s ↔ (tarExtract tartmp s).1 = none ∨
      ¬ DbOpens (tarExtract tartmp s).2.tree := by
  rcases hex : tarExtract tartmp s with ⟨_ | ⟨files, pkginfo⟩, s1⟩
  · have hinst : installTarFile name recordWorld s = (none, s1) := by
      rw [installTarFile, hex, Result.andThen_none]
    refine iff_of_true ⟨?_, ?_, ?_⟩ (Or.inl rfl)
    · rw [hinst]
    · rw [hinst, hex]
    · rw [hinst, hex]
  · have hkeep : ∀ k, k ≠ tartmpRef.key → (unlinkPath s1.tree tartmp).file k = s1.tree.file k :=
      fun k hk => file_unlinkPath_of_ne
        (by simpa [keyOf, fileRef_tartmp] using fun h => hk h.symm) _
    obtain ⟨stanza, hstanza⟩ : ∃ stanza, stanza = stanzaText name
        (piGet (pkginfo.getD []) (ascii "pkgver")) (piGet (pkginfo.getD []) (ascii "pkgdesc")) files :=
      ⟨_, rfl⟩
    have hinst := @installTarFile_eq name _ _ recordWorld _ _ hex
    rw [← hstanza] at hinst
    have hopens := @appendFile_isSome_iff dbPath stanza dbRef
      { s1 with tree := unlinkPath s1.tree tartmp } fileRef_db dirname_db
    simp only [reduceCtorEq, false_or, DbOpens]
    rw [← hopens]
    rcases happ : appendFile dbPath stanza { s1 with tree := unlinkPath s1.tree tartmp }
        with ⟨_ | ⟨⟩, s2⟩
    · obtain ⟨-, -, hsame, -⟩ := appendFile_spec fileRef_db happ
      simp only [happ, Result.andThen_none] at hinst
      refine iff_of_true ⟨?_, ?_, ?_⟩ (by simp)
      · rw [hinst]
      · rw [hinst, hsame rfl, hex, hkeep _ dbRef_ne_tartmpRef]
      · rw [hinst, hsame rfl, hex, hkeep _ worldRef_ne_tartmpRef]
    · obtain ⟨-, -, -, hdone⟩ := appendFile_spec fileRef_db happ
      simp only [happ, Result.andThen_some] at hinst
      refine iff_of_false (fun h => ?_) (by simp)
      have hdb := h.db
      rw [hinst, andThen_tree fun _ _ => rfl, file_db_record, hdone rfl, Function.update_self,
        hex, hkeep _ dbRef_ne_tartmpRef] at hdb
      -- the stanza is not empty
      cases hold : s1.tree.file dbRef.key with
      | none =>
        rw [hold] at hdb
        simp at hdb
      | some old =>
        rw [hold, Option.getD_some] at hdb
        simp [hstanza, stanzaText] at hdb

/-- **A truncated archive is not registered** exactly when the cut is in the data of a member, or
the installation fails for another reason: a member before the cut cannot be created, or the
database cannot be opened.  What is left of an archive that a member is written over ends with
that member. -/
theorem unregistered_iff {tar pre : Bytes} (hpre : pre <+: tar) {s : State}
    (hfile : s.tree.file tartmpRef.key = some pre) (name : Bytes) (recordWorld : Bool) :
    Unregistered name recordWorld s ↔
      match writeMembers s.tree (upTo tartmpRef.key (members pre)) with
      | none => True
      | some t => ¬ DbOpens t ∨
        (CutInData tar pre.length ∧ ¬ Overwritten tartmpRef.key (members pre)) := by
  have hnow : archiveNow tartmpRef s = pre := by rw [archiveNow, hfile, Option.getD_some]
  have hex : tarExtract tartmp s = tarLoop tartmpRef (pre.length / 512 + 1) s 0 [] none := by
    rw [tarExtract, fileRef_tartmp, readPath_tartmp, hfile]
  have houtcome := @tarLoop_outcome tartmpRef pre (pre.length / 512 + 1) 0 s [] none hnow
  have hcut : (membersFrom pre (pre.length / 512 + 1) 0).2 = true ↔ ¬ CutInData tar pre.length :=
    complete_cut_iff hpre
  rw [← members, hcut, ← hex] at houtcome
  rw [unregistered_of_extract]
  cases hwrite : writeMembers s.tree (upTo tartmpRef.key (members pre)) with
  | none =>
    rw [hwrite] at houtcome
    simp only [iff_true]
    exact Or.inl houtcome
  | some t =>
    rw [hwrite] at houtcome
    obtain ⟨hret, hdied⟩ := houtcome
    -- an archive that a member overwrites ends there, before the cut is noticed
    by_cases hread : ¬ CutInData tar pre.length ∨ Overwritten tartmpRef.key (members pre)
    · obtain ⟨out, hout⟩ := hret hread
      rw [hout]
      simp only [reduceCtorEq, false_or]
      refine (or_iff_left fun h => ?_).symm
      rcases hread with hno | hover
      · exact hno h.1
      · exact h.2 hover
    · refine iff_of_true (Or.inl (hdied hread)) (Or.inr ?_)
      rw [not_or, not_not] at hread
      exact hread

/-! ## An archive of two members -/

def pairEntries : List TarEntry := [("bin/less".toList, [1, 2, 3]), ("bin/more".toList, [4])]

def pairTar : Bytes := closeTar (pairEntries.flatMap fun e => (addfile e).getD [])

/-- A host that delivers the first `n` bytes of it. -/
def cutHost (n : ℕ) : Host where
  index := fun _ => .ok []
  fetch := fun _ _ => .ok (pairTar.take n)
  cwd := [slash]

/-- They are at `/tmp/.apk.tar`. -/
def cutState (n : ℕ) : State := (osdPkgFetch (cutHost n) (ascii "pair") tartmp bareState).2

theorem sortEntries_pairEntries : sortEntries pairEntries = pairEntries :=
  List.mergeSort_of_pairwise (by decide)

theorem buildTar_pairEntries : buildTar pairEntries = some pairTar := by
  obtain ⟨less, hless⟩ : ∃ block, addfile ("bin/less".toList, [1, 2, 3]) = some block :=
    Option.isSome_iff_exists.mp (by decide)
  obtain ⟨more, hmore⟩ : ∃ block, addfile ("bin/more".toList, [4]) = some block :=
    Option.isSome_iff_exists.mp (by decide)
  rw [buildTar, sortEntries_pairEntries, pairTar]
  simp only [pairEntries, List.mapM_cons, List.mapM_nil, List.flatMap_cons, List.flatMap_nil, hless,
    hmore, Option.bind_eq_bind, Option.bind_some, Option.pure_def, Option.getD_some,
    List.flatten_cons, List.flatten_nil]

theorem isArc_pairEntries : ∀ e ∈ pairEntries, IsArc e.1 ∧ e.2.length + 1 < 2 ^ 32 := by
  intro e he
  rcases List.mem_pair.mp he with rfl | rfl
  · exact ⟨⟨["bin".toList, "less".toList], by decide, by decide, by decide⟩, by decide⟩
  · exact ⟨⟨["bin".toList, "more".toList], by decide, by decide, by decide⟩, by decide⟩

theorem dataSpans_pairTar : dataSpans pairTar = [(512, 3), (1536, 1)] := by
  rw [dataSpans_buildTar isArc_pairEntries buildTar_pairEntries, sortEntries_pairEntries]
  decide

/-- Cut behind the first byte of `bin/less`, the archive is refused. -/
theorem unregistered_pair : pairTar.take 513 <+: pairTar ∧
    Unregistered (ascii "pair") true (cutState 513) := by
  have hpre : pairTar.take 513 <+: pairTar := List.take_prefix _ _
  have hfile : (cutState 513).tree.file tartmpRef.key = some (pairTar.take 513) := by
    decide +kernel
  refine ⟨hpre, (unregistered_iff hpre hfile _ _).mpr ?_⟩
  have hmembers : members (pairTar.take 513) = [] := by decide +kernel
  rw [hmembers]
  refine Or.inr ⟨⟨(512, 3), by rw [dataSpans_pairTar]; simp, ?_⟩, ?_⟩
  · decide +kernel
  · simp [Overwritten]

/-- Cut between the two members, the archive is registered as one of `bin/less` alone. -/
theorem registered_between_members : buildTar pairEntries = some pairTar ∧
    (installTarFile (ascii "pair") true (cutState 1024)).1 = some 0 ∧
    readFileOrEmpty (installTarFile (ascii "pair") true (cutState 1024)).2 dbPath
      = ascii "P:pair\nV:?\nT:?\nF:/bin/less\n\n" ∧
    readFileOrEmpty (installTarFile (ascii "pair") true (cutState 1024)).2 worldPath
      = ascii "pair\n" ∧
    ¬ Unregistered (ascii "pair") true (cutState 1024) := by
  have hret : (installTarFile (ascii "pair") true (cutState 1024)).1 = some 0 := by
    decide +kernel
  refine ⟨buildTar_pairEntries, hret, by decide +kernel, by decide +kernel, fun h => ?_⟩
  have hdies := h.dies
  rw [hret] at hdies
  simp at hdies

end OsMoap.Apk
