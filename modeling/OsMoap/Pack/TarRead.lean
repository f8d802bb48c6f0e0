import OsMoap.Pack.Stage

/-!
# The USTAR Reader of Python

How `tarfile` reads back the archives `build_tar` writes: a header block is accepted when its
checksum is right, its name is `prefix + '/' + name`, and the data of a regular member follows
in whole blocks; the listing ends at the first block that is no header.

`tarMembers_buildTar` is the round trip: every member is read with its archive name and its
bytes, in the order they were written.
-/

namespace OsMoap.Pack

/-! ## Reading -/

/-- `tarfile.nts`: a string field up to its first NUL. -/
def nts (field : Bytes) : Bytes := field.takeWhile fun b => b ≠ 0

/-- The value of octal digits. -/
def octalValue (digits : Bytes) : Option ℕ :=
  digits.foldlM (fun n d => if 48 ≤ d.toNat ∧ d.toNat < 56 then some (8 * n + (d.toNat - 48))
    else none) 0

/-- `tarfile.nti` of an octal field. -/
def nti (field : Bytes) : Option ℕ := octalValue (nts field)

/-- `buf[start:stop]`. -/
def slice (buf : Bytes) (start stop : ℕ) : Bytes := (buf.take stop).drop start

/-- The sum of all bytes of a header, its checksum field read as blanks. -/
def calcChksum (buf : Bytes) : ℕ :=
  256 + ((slice buf 0 148).map UInt8.toNat).sum + ((slice buf 156 512).map UInt8.toNat).sum

/-- `TarInfo.frombuf` for a regular file: its name and its size; `none` is a block of zeros, a
short block, a wrong checksum or another type of member. -/
def frombuf (buf : Bytes) : Option (Bytes × ℕ) := do
  if buf.length ≠ 512 ∨ buf.all (· = 0) then none
  let chksum ← nti (slice buf 148 156)
  -- `build_tar` writes no other type
  if chksum ≠ calcChksum buf ∨ slice buf 156 157 ≠ [48] then none
  let size ← nti (slice buf 124 136)
  let name := nts (slice buf 0 100)
  let pfx := nts (slice buf 345 500)
  some (if pfx = [] then name else pfx ++ 47 :: name, size)

/-- `TarFile.getmembers`: the members with their data. -/
def tarMembers (raw : Bytes) : List (Bytes × Bytes) :=
  match frombuf (raw.take 512) with
  | none => []
  | some (name, size) =>
    if h : 512 ≤ raw.length then
      (name, (raw.drop 512).take size) :: tarMembers (raw.drop (512 + size + (512 - size % 512) % 512))
    else []
termination_by raw.length
decreasing_by simp; omega

/-- `TarFile.extractfile`: the last member of that name. -/
def extractfile (raw : Bytes) (name : Bytes) : Option Bytes :=
  ((tarMembers raw).reverse.find? fun m => m.1 = name).map Prod.snd

/-! ## Fields read back -/

theorem ne_zero_of_not_mem {s : Bytes} (hs : 0 ∉ s) : ∀ b ∈ s, decide (b ≠ 0) = true := by
  intro b hb
  rw [decide_eq_true_eq]
  rintro rfl
  exact hs hb

theorem nts_append_zero {s : Bytes} (hs : 0 ∉ s) (t : Bytes) : nts (s ++ 0 :: t) = s := by
  rw [nts, List.takeWhile_append_of_pos (ne_zero_of_not_mem hs)]
  simp

theorem nts_self {s : Bytes} (hs : 0 ∉ s) : nts s = s := by
  have h := nts_append_zero hs []
  rw [nts, List.takeWhile_append_of_pos (ne_zero_of_not_mem hs)] at h
  rw [nts, ← List.append_nil s, List.takeWhile_append_of_pos (ne_zero_of_not_mem hs)]
  simp

theorem nts_stn {s : Bytes} {n : ℕ} (hs : 0 ∉ s) (hlen : s.length ≤ n) : nts (stn s n) = s := by
  rw [stn, List.take_of_length_le hlen]
  cases hpad : n - s.length with
  | zero => rw [List.replicate_zero, List.append_nil, nts_self hs]
  | succ k => rw [List.replicate_succ, nts_append_zero hs]

theorem zero_not_mem_octal (w n : ℕ) : 0 ∉ octal w n := by
  induction w generalizing n with
  | zero => simp [octal]
  | succ w ih =>
    rw [octal, List.mem_append, List.mem_singleton, not_or]
    refine ⟨ih _, fun h => ?_⟩
    have := congrArg UInt8.toNat h
    rw [UInt8.toNat_ofNat', Nat.mod_eq_of_lt (by omega)] at this
    have hzero : UInt8.toNat 0 = 0 := rfl
    omega

theorem octalValue_octal {w n : ℕ} (hn : n < 8 ^ w) : octalValue (octal w n) = some n := by
  induction w generalizing n with
  | zero =>
    obtain rfl : n = 0 := by simpa using hn
    rfl
  | succ w ih =>
    have hdiv : n / 8 < 8 ^ w := by
      rw [pow_succ] at hn
      exact Nat.div_lt_of_lt_mul (by omega)
    have hdigit : (UInt8.ofNat (48 + n % 8)).toNat = 48 + n % 8 := by
      rw [UInt8.toNat_ofNat', Nat.mod_eq_of_lt (by omega)]
    rw [octal, octalValue, List.foldlM_append]
    rw [show List.foldlM _ 0 (octal w (n / 8)) = some (n / 8) from ih hdiv]
    simp only [List.foldlM_cons, List.foldlM_nil, Option.bind_eq_bind, Option.bind_some, hdigit]
    rw [if_pos (by omega)]
    simp only [Option.pure_def, Option.bind_some, Option.some.injEq]
    omega

theorem nti_octal {w n : ℕ} (hn : n < 8 ^ w) (t : Bytes) :
    nti (octal w n ++ 0 :: t) = some n := by
  rw [nti, nts_append_zero (zero_not_mem_octal w n), octalValue_octal hn]

/-- The fields between the type flag and the prefix. -/
def ownerFields : Bytes :=
  stn [] 100 ++ (posixMagic ++ (stn [] 32 ++ (stn [] 32 ++ (stn [] 8 ++ stn [] 8))))

section Header

variable (pfx name : Bytes) {sizeField : Bytes} (hsize : sizeField.length = 12)

/-- The fields around the checksum. -/
theorem headerFields_eq : headerFields pfx name sizeField
    = (fieldsBeforeSize name ++ (sizeField ++ (octal 11 0 ++ [0]))) ++ (List.replicate 8 32 ++
      (48 :: (ownerFields ++ (stn pfx lengthPrefix ++ List.replicate 12 0)))) := by
  simp only [headerFields, fieldsAfterSize, ownerFields, List.append_assoc, List.cons_append,
    List.nil_append]

include hsize

theorem length_before_chksum :
    (fieldsBeforeSize name ++ (sizeField ++ (octal 11 0 ++ [0]))).length = 148 := by
  simp [length_fieldsBeforeSize, hsize]

theorem drop_headerFields : (headerFields pfx name sizeField).drop 148 = List.replicate 8 32 ++
    (48 :: (ownerFields ++ (stn pfx lengthPrefix ++ List.replicate 12 0))) := by
  rw [headerFields_eq, List.drop_left' (length_before_chksum name hsize)]

/-- Behind the checksum the header is the fields as written. -/
theorem drop_ustarHeader {n : ℕ} (hn : 155 ≤ n) :
    (ustarHeader pfx name sizeField).drop n = (headerFields pfx name sizeField).drop n := by
  have hlen := length_headerFields pfx name hsize
  have hfront : ((headerFields pfx name sizeField).take 148 ++
      (octal 6 ((headerFields pfx name sizeField).map UInt8.toNat).sum ++ [0])).length = 155 := by
    simp [hlen]
  obtain ⟨k, rfl⟩ := Nat.exists_eq_add_of_le hn
  rw [← List.drop_drop, ← List.drop_drop, ustarHeader, List.drop_left' hfront]

/-- The type flag stands behind the checksum. -/
theorem drop_ustarHeader_typeflag : (ustarHeader pfx name sizeField).drop 156
    = 48 :: (ownerFields ++ (stn pfx lengthPrefix ++ List.replicate 12 0)) := by
  rw [drop_ustarHeader pfx name hsize (by decide), show 156 = 148 + 8 from rfl, ← List.drop_drop,
    drop_headerFields pfx name hsize]
  exact List.drop_left' (by simp)

/-- The name field. -/
theorem slice_name : slice (ustarHeader pfx name sizeField) 0 100 = stn name 100 := by
  rw [slice, take_ustarHeader pfx name hsize, List.drop_zero]

/-- The size field. -/
theorem slice_size : slice (ustarHeader pfx name sizeField) 124 136 = sizeField := by
  rw [slice, List.drop_take, size_field_ustarHeader pfx name hsize]

/-- The type flag. -/
theorem slice_typeflag : slice (ustarHeader pfx name sizeField) 156 157 = [48] := by
  rw [slice, List.drop_take, drop_ustarHeader_typeflag pfx name hsize]
  rfl

/-- The checksum field. -/
theorem slice_chksum : slice (ustarHeader pfx name sizeField) 148 156
    = octal 6 ((headerFields pfx name sizeField).map UInt8.toNat).sum ++ 0 :: [32] := by
  have hlen := length_headerFields pfx name hsize
  have hblank : (headerFields pfx name sizeField).drop 155
      = 32 :: (headerFields pfx name sizeField).drop 156 := by
    rw [show 155 = 148 + 7 from rfl, show 156 = 148 + 8 from rfl, ← List.drop_drop,
      ← List.drop_drop, drop_headerFields pfx name hsize]
    rfl
  have hfront : ((headerFields pfx name sizeField).take 148).length = 148 := by simp [hlen]
  rw [slice, List.drop_take, ustarHeader, List.append_assoc, List.drop_left' hfront, hblank,
    List.append_assoc, List.take_append]
  simp

/-- The prefix field. -/
theorem slice_prefix : slice (ustarHeader pfx name sizeField) 345 500 = stn pfx 155 := by
  have howner : (48 :: ownerFields).length = 189 := by simp [ownerFields, posixMagic]
  rw [slice, List.drop_take, show 345 = 156 + 189 from rfl, ← List.drop_drop,
    drop_ustarHeader_typeflag pfx name hsize, ← List.cons_append, List.drop_left' howner]
  exact List.take_left' (by simp [lengthPrefix])

/-- The checksum counts the fields with blanks in its own place. -/
theorem calcChksum_ustarHeader : calcChksum (ustarHeader pfx name sizeField)
    = ((headerFields pfx name sizeField).map UInt8.toNat).sum := by
  have hlen := length_ustarHeader pfx name hsize
  have hback : slice (ustarHeader pfx name sizeField) 156 512
      = 48 :: (ownerFields ++ (stn pfx lengthPrefix ++ List.replicate 12 0)) := by
    rw [slice, List.take_of_length_le (by omega), drop_ustarHeader_typeflag pfx name hsize]
  have hfront : slice (ustarHeader pfx name sizeField) 0 148
      = fieldsBeforeSize name ++ (sizeField ++ (octal 11 0 ++ [0])) := by
    rw [slice, take_ustarHeader_of_le pfx name hsize (by decide), List.drop_zero, headerFields_eq,
      List.take_left' (length_before_chksum name hsize)]
  have hblanks : ((List.replicate 8 (32 : UInt8)).map UInt8.toNat).sum = 256 := by decide
  rw [calcChksum, hfront, hback, headerFields_eq]
  generalize fieldsBeforeSize name ++ (sizeField ++ (octal 11 0 ++ [0])) = front
  generalize 48 :: (ownerFields ++ (stn pfx lengthPrefix ++ List.replicate 12 0)) = back
  rw [List.map_append, List.map_append, List.sum_append, List.sum_append, hblanks]
  omega

end Header

theorem sum_toNat_le (l : Bytes) : (l.map UInt8.toNat).sum ≤ 255 * l.length := by
  induction l with
  | nil => simp
  | cons b l ih =>
    have hb : b.toNat < 256 := b.toNat_lt
    simp only [List.map_cons, List.sum_cons, List.length_cons]
    omega

/-- **A header is read back**: the full name and the size. -/
theorem frombuf_ustarHeader {pfx name : Bytes} {n : ℕ} {sizeField : Bytes}
    (hsize : itn n 12 = some sizeField) (hname : 0 ∉ name) (hnamelen : name.length ≤ 100)
    (hpfx : 0 ∉ pfx) (hpfxlen : pfx.length ≤ 155) :
    frombuf (ustarHeader pfx name sizeField)
      = some (if pfx = [] then name else pfx ++ 47 :: name, n) := by
  have hlen := length_itn (by decide) hsize
  obtain ⟨hn, rfl⟩ := itn_eq_some hsize
  have hnonzero : (ustarHeader pfx name (octal 11 n ++ [0])).all (· = 0) = false := by
    rw [List.all_eq_false]
    exact ⟨48, List.mem_of_getElem? (typeflag_ustarHeader pfx name hlen), by decide⟩
  have hsum : ((headerFields pfx name (octal 11 n ++ [0])).map UInt8.toNat).sum < 8 ^ 6 := by
    have := sum_toNat_le (headerFields pfx name (octal 11 n ++ [0]))
    rw [length_headerFields pfx name hlen] at this
    omega
  have hread : nti (octal 11 n ++ [0]) = some n := nti_octal hn []
  rw [frombuf, if_neg (by simp [length_ustarHeader pfx name hlen, hnonzero]),
    slice_chksum pfx name hlen, nti_octal hsum, calcChksum_ustarHeader pfx name hlen,
    slice_typeflag pfx name hlen, slice_size pfx name hlen, slice_name pfx name hlen,
    slice_prefix pfx name hlen, hread, nts_stn hname hnamelen, nts_stn hpfx hpfxlen]
  simp

/-! ## Archive names -/

/-- A name `stage_entries` gives a file. -/
def IsArc (arc : Text) : Prop := ∃ cs, cs ≠ [] ∧ (∀ c ∈ cs, FileName c) ∧ arc = joinSlash cs

theorem joinSlash_append {as bs : List Text} (ha : as ≠ []) (hb : bs ≠ []) :
    joinSlash (as ++ bs) = joinSlash as ++ '/' :: joinSlash bs := by
  induction as with
  | nil => exact absurd rfl ha
  | cons a as ih =>
    cases as with
    | nil => rw [List.singleton_append, joinSlash_cons hb, joinSlash_singleton]
    | cons a' as =>
      have hne : a' :: as ≠ [] := List.cons_ne_nil _ _
      have hne' : a' :: as ++ bs ≠ [] := by simp
      rw [List.cons_append, joinSlash_cons hne' a, ih hne, joinSlash_cons hne a,
        List.append_assoc, List.cons_append]

theorem mem_joinSlash {cs : List Text} {c : Char} (h : c ∈ joinSlash cs) :
    c = '/' ∨ ∃ t ∈ cs, c ∈ t := by
  induction cs with
  | nil => simp [joinSlash] at h
  | cons a as ih =>
    by_cases has : as = []
    · rw [has, joinSlash_singleton] at h
      exact Or.inr ⟨a, List.mem_cons_self, h⟩
    · rw [joinSlash_cons has, List.mem_append, List.mem_cons] at h
      rcases h with h | h | h
      · exact Or.inr ⟨a, List.mem_cons_self, h⟩
      · exact Or.inl h
      · rcases ih h with h | ⟨t, ht, hc⟩
        · exact Or.inl h
        · exact Or.inr ⟨t, List.mem_cons_of_mem _ ht, hc⟩

theorem joinSlash_ne_nil {cs : List Text} (hne : cs ≠ []) (h : ∀ c ∈ cs, FileName c) :
    joinSlash cs ≠ [] := by
  obtain ⟨c, cs, rfl⟩ := List.exists_cons_of_ne_nil hne
  have hc : c ≠ [] := (h c List.mem_cons_self).1
  by_cases hcs : cs = []
  · rwa [hcs, joinSlash_singleton]
  · rw [joinSlash_cons hcs]
    simp

/-- No archive name holds a NUL. -/
theorem IsArc.nul_not_mem {arc : Text} (h : IsArc arc) : Char.ofNat 0 ∉ arc := by
  obtain ⟨cs, -, hcs, rfl⟩ := h
  intro hmem
  rcases mem_joinSlash hmem with h | ⟨t, ht, hc⟩
  · exact absurd h (by decide)
  · exact (hcs t ht).2.2.1 hc

theorem zero_mem_utf8_iff (t : Text) : 0 ∈ utf8 t ↔ Char.ofNat 0 ∈ t :=
  mem_utf8_iff (c := Char.ofNat 0) (by decide)

/-- **The two halves of a name**: a short name stands in the name field alone, a long one is
split at a slash. -/
theorem ustarName_spec {arc pfx name : Text} (harc : IsArc arc)
    (h : ustarName arc = some (pfx, name)) :
    ((utf8 arc).length ≤ 100 ∧ pfx = [] ∧ name = arc) ∨
    (100 < (utf8 arc).length ∧ pfx ≠ [] ∧ arc = pfx ++ '/' :: name ∧
      (utf8 pfx).length ≤ 155 ∧ (utf8 name).length ≤ 100 ∧ IsArc name) := by
  unfold ustarName at h
  split_ifs at h with hlong
  · refine Or.inr ⟨hlong, ?_⟩
    obtain ⟨cs, hne, hcs, rfl⟩ := harc
    unfold posixSplitName at h
    simp only [splitOn_joinSlash hne hcs] at h
    have hfit := List.find?_some h
    obtain ⟨i, hi, hsplit⟩ := List.mem_map.mp (List.mem_of_find?_eq_some h)
    obtain ⟨rfl, rfl⟩ := Prod.mk.inj hsplit
    rw [List.mem_range'_1] at hi
    simp only [Bool.and_eq_true, decide_eq_true_eq] at hfit
    have htake : cs.take i ≠ [] := by
      rw [ne_eq, List.take_eq_nil_iff, not_or]
      exact ⟨by omega, hne⟩
    have hdrop : cs.drop i ≠ [] := by
      rw [ne_eq, List.drop_eq_nil_iff]
      omega
    refine ⟨joinSlash_ne_nil htake fun c hc => hcs c (List.mem_of_mem_take hc), ?_, hfit.1, hfit.2,
      cs.drop i, hdrop, fun c hc => hcs c (List.mem_of_mem_drop hc), rfl⟩
    rw [← joinSlash_append htake hdrop, List.take_append_drop]
  · obtain ⟨rfl, rfl⟩ := Prod.mk.inj (Option.some.inj h)
    exact Or.inl ⟨by simpa [lengthName] using hlong, rfl, rfl⟩

/-! ## The round trip -/

/-- What `addfile` writes, and what its header says. -/
theorem addfile_spec {e : TarEntry} {block : Bytes} (h : addfile e = some block) :
    ∃ pfx name sizeField, ustarName e.1 = some (pfx, name) ∧
      itn e.2.length 12 = some sizeField ∧
      block = ustarHeader (utf8 pfx) (utf8 name) sizeField ++ e.2 ++ padTo 512 e.2.length := by
  unfold addfile at h
  simp only [Option.bind_eq_bind, Option.bind_eq_some_iff, Option.some.injEq] at h
  obtain ⟨⟨pfx, name⟩, hname, sizeField, hsize, rfl⟩ := h
  exact ⟨pfx, name, sizeField, hname, hsize, rfl⟩

/-- The header of a packed member is read back as its archive name and its size. -/
theorem frombuf_of_arc {arc pfx name : Text} {n : ℕ} {sizeField : Bytes} (harc : IsArc arc)
    (hname : ustarName arc = some (pfx, name)) (hsize : itn n 12 = some sizeField) :
    frombuf (ustarHeader (utf8 pfx) (utf8 name) sizeField) = some (utf8 arc, n) := by
  have hnul : 0 ∉ utf8 arc := fun h => harc.nul_not_mem ((zero_mem_utf8_iff arc).mp h)
  rcases ustarName_spec harc hname with ⟨hlen, rfl, rfl⟩ | ⟨-, hpfx, heq, hplen, hnlen, -⟩
  · rw [frombuf_ustarHeader hsize hnul hlen (by simp [utf8]) (by simp [utf8])]
    rfl
  · have hutf8 : utf8 arc = utf8 pfx ++ 47 :: utf8 name := by
      rw [heq, utf8_append]
      rfl
    rw [hutf8, List.mem_append, List.mem_cons, not_or, not_or] at hnul
    have hne : utf8 pfx ≠ [] := by
      intro hnil
      exact hpfx (utf8_injective (hnil.trans rfl))
    rw [frombuf_ustarHeader hsize hnul.2.2 hnlen hnul.1 hplen, if_neg hne, hutf8]

/-- A packed member is read back, and the listing goes on behind it. -/
theorem tarMembers_addfile {e : TarEntry} {block : Bytes} (harc : IsArc e.1)
    (h : addfile e = some block) (rest : Bytes) :
    tarMembers (block ++ rest) = (utf8 e.1, e.2) :: tarMembers rest := by
  obtain ⟨pfx, name, sizeField, hname, hsize, rfl⟩ := addfile_spec h
  have hlen := length_ustarHeader (utf8 pfx) (utf8 name) (length_itn (by decide) hsize)
  have hread := frombuf_of_arc harc hname hsize
  generalize ustarHeader (utf8 pfx) (utf8 name) sizeField = header at hlen hread
  have hpad : (padTo 512 e.2.length).length = (512 - e.2.length % 512) % 512 := by simp [padTo]
  generalize padTo 512 e.2.length = pad at hpad
  have htake : (header ++ e.2 ++ pad ++ rest).take 512 = header := by
    rw [List.append_assoc, List.append_assoc, List.take_left' hlen]
  have hdata : (header ++ e.2 ++ pad ++ rest).drop 512 = e.2 ++ (pad ++ rest) := by
    rw [List.append_assoc, List.append_assoc, List.drop_left' hlen]
  have hnext : (header ++ e.2 ++ pad ++ rest).drop
      (512 + e.2.length + (512 - e.2.length % 512) % 512) = rest := by
    refine List.drop_left' ?_
    rw [List.length_append, List.length_append, hlen, hpad]
  rw [tarMembers, htake, hread]
  dsimp only
  rw [dif_pos (by simp [hlen]), hdata, List.take_left' rfl, hnext]

/-- The end blocks are no header. -/
theorem tarMembers_zeros (n : ℕ) : tarMembers (List.replicate n 0) = [] := by
  rw [tarMembers]
  have hnone : frombuf ((List.replicate n (0 : UInt8)).take 512) = none := by
    rw [List.take_replicate, frombuf, if_pos (Or.inr (by simp))]
    rfl
  rw [hnone]

theorem tarMembers_blocks {entries : List TarEntry} {blocks : List Bytes}
    (harcs : ∀ e ∈ entries, IsArc e.1) (h : entries.mapM addfile = some blocks) (rest : Bytes) :
    tarMembers (blocks.flatten ++ rest)
      = (entries.map fun e => (utf8 e.1, e.2)) ++ tarMembers rest := by
  induction entries generalizing blocks with
  | nil =>
    obtain rfl : blocks = [] := by simpa using h.symm
    rfl
  | cons e entries ih =>
    rw [List.mapM_cons] at h
    simp only [Option.bind_eq_bind, Option.bind_eq_some_iff, Option.pure_def,
      Option.some.injEq] at h
    obtain ⟨block, hblock, blocks', hblocks, rfl⟩ := h
    rw [List.flatten_cons, List.append_assoc,
      tarMembers_addfile (harcs e List.mem_cons_self) hblock,
      ih (fun e' he' => harcs e' (List.mem_cons_of_mem _ he')) hblocks]
    rfl

/-- **The archive is read back**: its members are the entries, sorted by name. -/
theorem tarMembers_buildTar {entries : List TarEntry} {raw : Bytes}
    (harcs : ∀ e ∈ entries, IsArc e.1) (h : buildTar entries = some raw) :
    tarMembers raw = (sortEntries entries).map fun e => (utf8 e.1, e.2) := by
  unfold buildTar at h
  simp only [Option.bind_eq_bind, Option.bind_eq_some_iff, Option.some.injEq] at h
  obtain ⟨blocks, hblocks, rfl⟩ := h
  have hend : List.replicate 1024 0 ++ padTo 10240 (blocks.flatten.length + 1024)
      = List.replicate (1024 + (10240 - (blocks.flatten.length + 1024) % 10240) % 10240) 0 := by
    rw [padTo, List.replicate_append_replicate]
  rw [closeTar, List.append_assoc, hend, tarMembers_blocks ?_ hblocks, tarMembers_zeros,
    List.append_nil]
  intro e he
  exact harcs e (List.mem_mergeSort.mp he)

/-- A file is found again under its own name. -/
theorem extractfile_buildTar {entries : List TarEntry} {raw : Bytes}
    (harcs : ∀ e ∈ entries, IsArc e.1) (hnodup : (entries.map Prod.fst).Nodup)
    (h : buildTar entries = some raw) {e : TarEntry} (he : e ∈ entries) :
    extractfile raw (utf8 e.1) = some e.2 := by
  rw [extractfile, tarMembers_buildTar harcs h]
  have hmem : (utf8 e.1, e.2) ∈ ((sortEntries entries).map fun e => (utf8 e.1, e.2)).reverse := by
    rw [List.mem_reverse]
    exact List.mem_map_of_mem (List.mem_mergeSort.mpr he)
  cases hfind : ((sortEntries entries).map fun e => (utf8 e.1, e.2)).reverse.find?
      fun m => m.1 = utf8 e.1 with
  | none =>
    rw [List.find?_eq_none] at hfind
    exact absurd (by simp) (hfind _ hmem)
  | some m =>
    have hname : m.1 = utf8 e.1 := by simpa using List.find?_some hfind
    obtain ⟨e', he', rfl⟩ := List.mem_map.mp (List.mem_reverse.mp (List.mem_of_find?_eq_some hfind))
    obtain rfl : e' = e := List.inj_on_of_nodup_map hnodup (List.mem_mergeSort.mp he') he
      (utf8_injective hname)
    rfl

end OsMoap.Pack
