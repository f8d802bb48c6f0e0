import OsMoap.Pack.PyText

/-!
# The USTAR Writer

`build_tar` of `tools/pack_rom.py` over Python's `tarfile` in `USTAR_FORMAT`, as documented:
names longer than 100 bytes are split into `prefix + '/' + name`, sizes are NUL-terminated
octal, data is padded to blocks of 512 bytes and the archive ends in zero blocks up to a
whole record of 10240 bytes.

Every header block has 512 bytes with the name, the size and the type flag at the offsets
the reader looks at (`take_ustarHeader`, `size_field_ustarHeader`, `typeflag_ustarHeader`).
-/

namespace OsMoap.Pack

/-! ## Header fields -/

/-- `str.encode('utf-8')`. -/
def utf8 (t : Text) : Bytes := t.flatMap String.utf8EncodeChar

/-- `tarfile.stn`: a NUL-padded string field. -/
def stn (s : Bytes) (length : ℕ) : Bytes :=
  s.take length ++ List.replicate (length - s.length) 0

/-- `'%0*o' % (width, n)` for `n < 8 ^ width`. -/
def octal : ℕ → ℕ → Bytes
  | 0, _ => []
  | width + 1, n => octal width (n / 8) ++ [UInt8.ofNat (48 + n % 8)]

/-- `tarfile.itn`: an octal number field with its NUL; `none` is the `ValueError` for a
number that does not fit. -/
def itn (n digits : ℕ) : Option Bytes :=
  if n < 8 ^ (digits - 1) then some (octal (digits - 1) n ++ [0]) else none

def lengthName : ℕ := 100

def lengthPrefix : ℕ := 155

/-- `'/'.join(components)`. -/
def joinSlash (components : List Text) : Text := ['/'].intercalate components

/-- `TarInfo._posix_split_name`: the first split of the name at a slash whose two halves fit
their fields, or `none` for the `ValueError`. -/
def posixSplitName (name : Text) : Option (Text × Text) :=
  let components := name.splitOn '/'
  ((List.range' 1 (components.length - 1)).map fun i =>
      (joinSlash (components.take i), joinSlash (components.drop i))).find? fun s =>
    (utf8 s.1).length ≤ lengthPrefix && (utf8 s.2).length ≤ lengthName

/-- The prefix and name fields of `create_ustar_header`. -/
def ustarName (arc : Text) : Option (Text × Text) :=
  if (utf8 arc).length > lengthName then posixSplitName arc else some ([], arc)

/-- `POSIX_MAGIC`, `b"ustar\x0000"`. -/
def posixMagic : Bytes := [117, 115, 116, 97, 114, 0, 48, 48]

/-- The fields before the size: name, mode 0644, uid 0, gid 0. -/
def fieldsBeforeSize (name : Bytes) : Bytes :=
  stn name lengthName ++ (octal 7 0o644 ++ [0]) ++ (octal 7 0 ++ [0]) ++ (octal 7 0 ++ [0])

/-- The fields behind the size: mtime 0, the checksum still blank, the regular-file flag, no
link name, the magic, no owner names, no device numbers, the prefix, and the padding of the
500 bytes of fields to a block. -/
def fieldsAfterSize (pfx : Bytes) : Bytes :=
  (octal 11 0 ++ [0]) ++ List.replicate 8 32 ++ [48] ++ stn [] 100 ++ posixMagic ++
    stn [] 32 ++ stn [] 32 ++ stn [] 8 ++ stn [] 8 ++ stn pfx lengthPrefix ++
    List.replicate 12 0

/-- The header block before its checksum is filled in, with the values `build_tar` sets. -/
def headerFields (pfx name : Bytes) (sizeField : Bytes) : Bytes :=
  fieldsBeforeSize name ++ (sizeField ++ fieldsAfterSize pfx)

/-- `TarInfo._create_header`: the checksum replaces the first seven of its eight spaces. -/
def ustarHeader (pfx name : Bytes) (sizeField : Bytes) : Bytes :=
  let buf := headerFields pfx name sizeField
  let chksum := (buf.map UInt8.toNat).sum
  -- six digits and a NUL; the eighth byte stays a space
  buf.take 148 ++ (octal 6 chksum ++ [0]) ++ buf.drop 155

/-! ## The archive -/

/-- A file to pack: its archive name and its bytes. -/
abbrev TarEntry := Text × Bytes

/-- NULs up to the next multiple of `block`. -/
def padTo (block n : ℕ) : Bytes := List.replicate ((block - n % block) % block) 0

/-- `TarFile.addfile`: header, data and padding of one member. -/
def addfile (e : TarEntry) : Option Bytes := do
  let (pfx, name) ← ustarName e.1
  let size ← itn e.2.length 12
  some (ustarHeader (utf8 pfx) (utf8 name) size ++ e.2 ++ padTo 512 e.2.length)

/-- The members in `sorted(files, key=lambda e: e[1])` order. -/
def sortEntries (files : List TarEntry) : List TarEntry :=
  files.mergeSort fun a b => decide (a.1 ≤ b.1)

theorem mem_sortEntries {files : List TarEntry} {e : TarEntry} :
    e ∈ sortEntries files ↔ e ∈ files := List.mem_mergeSort

/-- `TarFile.close`: two zero blocks, then zeros up to a whole record. -/
def closeTar (members : Bytes) : Bytes :=
  members ++ List.replicate 1024 0 ++ padTo 10240 (members.length + 1024)

/-- `pack_rom.build_tar`: the archive, or `none` when a name or a size does not fit USTAR. -/
def buildTar (files : List TarEntry) : Option Bytes := do
  let members ← (sortEntries files).mapM addfile
  some (closeTar members.flatten)

/-! ## Field lengths and offsets -/

@[simp]
theorem length_stn (s : Bytes) (n : ℕ) : (stn s n).length = n := by
  simp [stn]
  omega

@[simp]
theorem length_octal (w n : ℕ) : (octal w n).length = w := by
  induction w generalizing n with
  | zero => rfl
  | succ w ih => simp [octal, ih]

theorem itn_eq_some {n digits : ℕ} {f : Bytes} (h : itn n digits = some f) :
    n < 8 ^ (digits - 1) ∧ f = octal (digits - 1) n ++ [0] := by
  unfold itn at h
  split_ifs at h with hlt
  exact ⟨hlt, (Option.some.inj h).symm⟩

theorem length_itn {n digits : ℕ} {f : Bytes} (hd : 0 < digits) (h : itn n digits = some f) :
    f.length = digits := by
  obtain ⟨-, rfl⟩ := itn_eq_some h
  rw [List.length_append, length_octal, List.length_singleton]
  omega

theorem length_fieldsBeforeSize (name : Bytes) : (fieldsBeforeSize name).length = 124 := by
  simp [fieldsBeforeSize, lengthName]

theorem length_fieldsAfterSize (pfx : Bytes) : (fieldsAfterSize pfx).length = 376 := by
  simp [fieldsAfterSize, lengthPrefix, posixMagic]

section Header

variable (pfx name : Bytes) {sizeField : Bytes} (hsize : sizeField.length = 12)

include hsize

theorem length_headerFields : (headerFields pfx name sizeField).length = 512 := by
  simp [headerFields, hsize, length_fieldsBeforeSize, length_fieldsAfterSize]

theorem length_ustarHeader : (ustarHeader pfx name sizeField).length = 512 := by
  simp [ustarHeader, length_headerFields pfx name hsize]

/-- The first 148 bytes are the fields as written: the checksum lies behind them. -/
theorem take_ustarHeader_of_le {n : ℕ} (hn : n ≤ 148) :
    (ustarHeader pfx name sizeField).take n = (headerFields pfx name sizeField).take n := by
  rw [ustarHeader, List.append_assoc, List.take_append_of_le_length, List.take_take,
    Nat.min_eq_left hn]
  rw [List.length_take, length_headerFields pfx name hsize]
  omega

/-- The name field. -/
theorem take_ustarHeader : (ustarHeader pfx name sizeField).take 100 = stn name 100 := by
  rw [take_ustarHeader_of_le pfx name hsize (by decide), headerFields, fieldsBeforeSize]
  simp only [List.append_assoc]
  exact List.take_left' (by simp [lengthName])

/-- The size field. -/
theorem size_field_ustarHeader :
    ((ustarHeader pfx name sizeField).drop 124).take 12 = sizeField := by
  calc ((ustarHeader pfx name sizeField).drop 124).take 12
      = ((ustarHeader pfx name sizeField).take 136).drop 124 := by rw [List.drop_take]
    _ = ((headerFields pfx name sizeField).take 136).drop 124 := by
        rw [take_ustarHeader_of_le pfx name hsize (by decide)]
    _ = ((headerFields pfx name sizeField).drop 124).take 12 := by rw [List.drop_take]
    _ = sizeField := by
        rw [headerFields, List.drop_left' (length_fieldsBeforeSize name), List.take_left' hsize]

/-- The type flag: a regular file. -/
theorem typeflag_ustarHeader : (ustarHeader pfx name sizeField)[156]? = some 48 := by
  have hbuf : (headerFields pfx name sizeField)[156]? = some 48 := by
    rw [headerFields, List.getElem?_append_right (by rw [length_fieldsBeforeSize]; decide),
      length_fieldsBeforeSize, List.getElem?_append_right (by rw [hsize]; decide), hsize]
    simp [fieldsAfterSize, List.getElem?_append]
  have hlen := length_headerFields pfx name hsize
  rw [ustarHeader]
  simp only [List.append_assoc]
  rw [List.getElem?_append_right (by simp), List.getElem?_append_right (by simp [hlen]),
    List.getElem?_append_right (by simp [hlen]), List.getElem?_drop, ← hbuf]
  congr 1
  simp [hlen]

end Header

/-! ## UTF-8 -/

theorem utf8_append (s t : Text) : utf8 (s ++ t) = utf8 s ++ utf8 t := List.flatMap_append

/-- `bytes.decode()`. -/
def utf8Decode (b : Bytes) : Option Text := (b.toByteArray.utf8Decode?).map Array.toList

theorem utf8Decode_utf8 (t : Text) : utf8Decode (utf8 t) = some t := by
  have h : (utf8 t).toByteArray = t.utf8Encode := rfl
  rw [utf8Decode, h, List.utf8Decode?_utf8Encode, Option.map_some, List.toList_toArray]

theorem utf8_injective : Function.Injective utf8 := by
  intro s t h
  have hs := utf8Decode_utf8 s
  rw [h, utf8Decode_utf8 t] at hs
  exact (Option.some.inj hs).symm

/-- A byte below 128 in the encoding of a character is that character. -/
theorem eq_of_mem_utf8EncodeChar {c : Char} {b : UInt8} (hb : b.toNat < 128)
    (h : b ∈ String.utf8EncodeChar c) : c.toNat = b.toNat := by
  have hsmall : ∀ k m : ℕ, 128 ≤ k → k + m < 256 → b ≠ UInt8.ofNat (m + k) := by
    rintro k m hk hm rfl
    rw [UInt8.toNat_ofNat', Nat.mod_eq_of_lt (by omega)] at hb
    omega
  unfold String.utf8EncodeChar at h
  simp only at h
  split_ifs at h with h1 h2 h3
  · rw [List.mem_singleton] at h
    subst h
    rw [UInt8.toNat_ofNat', Nat.mod_eq_of_lt (by omega)]
    rfl
  · simp only [List.mem_cons, List.not_mem_nil, or_false] at h
    rcases h with h | h
    · exact absurd h (hsmall _ _ (by omega) (by omega))
    · exact absurd h (hsmall _ _ (by omega) (by omega))
  · simp only [List.mem_cons, List.not_mem_nil, or_false] at h
    rcases h with h | h | h
    · exact absurd h (hsmall _ _ (by omega) (by omega))
    · exact absurd h (hsmall _ _ (by omega) (by omega))
    · exact absurd h (hsmall _ _ (by omega) (by omega))
  · simp only [List.mem_cons, List.not_mem_nil, or_false] at h
    rcases h with h | h | h | h
    · exact absurd h (hsmall _ _ (by omega) (by omega))
    · exact absurd h (hsmall _ _ (by omega) (by omega))
    · exact absurd h (hsmall _ _ (by omega) (by omega))
    · exact absurd h (hsmall _ _ (by omega) (by omega))

/-- An ASCII byte is in the encoding exactly when its character is in the text. -/
theorem mem_utf8_iff {t : Text} {c : Char} (hc : c.toNat < 128) :
    UInt8.ofNat c.toNat ∈ utf8 t ↔ c ∈ t := by
  have hbyte : (UInt8.ofNat c.toNat).toNat = c.toNat := by
    rw [UInt8.toNat_ofNat', Nat.mod_eq_of_lt (by omega)]
  rw [utf8, List.mem_flatMap]
  constructor
  · rintro ⟨d, hd, hmem⟩
    have heq := eq_of_mem_utf8EncodeChar (by rw [hbyte]; exact hc) hmem
    rw [hbyte] at heq
    obtain rfl : d = c := Char.toNat_inj.mp heq
    exact hd
  · intro hmem
    refine ⟨c, hmem, ?_⟩
    have hle : c.val.toNat ≤ 0x7f := by
      have : c.val.toNat = c.toNat := rfl
      omega
    unfold String.utf8EncodeChar
    simp only [if_pos hle]
    exact List.mem_singleton.mpr rfl

end OsMoap.Pack
