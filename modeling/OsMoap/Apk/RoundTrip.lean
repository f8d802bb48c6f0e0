import OsMoap.Lib.FileRoom
import OsMoap.Apk.Tar
import OsMoap.Pack.Published

/-!
# From the Packer to the Package Manager

The archives of `build_tar` as `tar_extract` of `apk.c` reads them.  The writer is Python's
USTAR encoder, the reader looks at the name, the size and the type flag only: it knows nothing
of the prefix field, so of a name over 100 bytes it sees the second half, and it counts sizes
in 32 bits.

`tarStep_block` is what the reader makes of one packed member.  A run over members with short
names and small sizes writes each under its own path (`tarLoop_blocks`); the first member that
is not of this kind spoils the round trip.
-/

namespace OsMoap.Apk

open OsMoap.Lib OsMoap.Pack

/-! ## Numbers -/

/-- `oct` reads a size modulo `2 ^ 32`. -/
theorem foldl_octal (w n : ℕ) (hn : n < 8 ^ w) :
    (octal w n).foldl
      (fun v c => if 48 ≤ c ∧ c ≤ 55 then (v * 8 + (c.toNat - 48)) % 2 ^ 32 else v) 0
      = n % 2 ^ 32 := by
  induction w generalizing n with
  | zero =>
    obtain rfl : n = 0 := by simpa using hn
    rfl
  | succ w ih =>
    have hdiv : n / 8 < 8 ^ w := by
      rw [pow_succ] at hn
      exact Nat.div_lt_of_lt_mul (by omega)
    have hdigit : (UInt8.ofNat (48 + n % 8)).toNat = 48 + n % 8 := by
      rw [UInt8.toNat_ofNat', Nat.mod_eq_of_lt (by omega)]
    have hrange : 48 ≤ UInt8.ofNat (48 + n % 8) ∧ UInt8.ofNat (48 + n % 8) ≤ 55 := by
      constructor
      · rw [UInt8.le_iff_toNat_le, hdigit]
        show 48 ≤ 48 + n % 8
        omega
      · rw [UInt8.le_iff_toNat_le, hdigit]
        show 48 + n % 8 ≤ 55
        omega
    rw [octal, List.foldl_append, ih _ hdiv, List.foldl_cons, List.foldl_nil, if_pos hrange, hdigit]
    omega

theorem oct_itn {n : ℕ} {sizeField : Bytes} (h : itn n 12 = some sizeField) :
    oct sizeField = n % 2 ^ 32 := by
  obtain ⟨hn, rfl⟩ := itn_eq_some h
  have hcstr : cstr (octal 11 n ++ [0]) = octal 11 n :=
    nts_append_zero (zero_not_mem_octal 11 n) []
  rw [oct, hcstr]
  exact foldl_octal 11 n hn

/-! ## One packed member -/

theorem ascii_pkginfo : ascii ".PKGINFO" = utf8 pkginfoName := by decide

/-- The name field of a packed member. -/
theorem nameField_spec {arc pfx name : Text} (harc : IsArc arc)
    (h : ustarName arc = some (pfx, name)) :
    IsArc name ∧ (utf8 name).length ≤ 100 ∧ 0 ∉ utf8 name ∧ utf8 name ≠ [] := by
  have hboth : IsArc name ∧ (utf8 name).length ≤ 100 := by
    rcases ustarName_spec harc h with ⟨hlen, -, rfl⟩ | ⟨-, -, -, -, hlen, hname⟩
    · exact ⟨harc, hlen⟩
    · exact ⟨hname, hlen⟩
  refine ⟨hboth.1, hboth.2, fun h0 => hboth.1.nul_not_mem ((zero_mem_utf8_iff name).mp h0), ?_⟩
  intro hnil
  obtain ⟨cs, hne, hcs, rfl⟩ := hboth.1
  exact joinSlash_ne_nil hne hcs (utf8_injective (hnil.trans rfl))

/-- **One packed member**: the reader sees the name field alone, and the size modulo
`2 ^ 32`. -/
theorem tarStep_block {content rest : Bytes} {off : ℕ} {e : TarEntry} {block : Bytes}
    {pfx name : Text} (harc : IsArc e.1) (hname : ustarName e.1 = some (pfx, name))
    (hblock : addfile e = some block) (hat : content.drop off = block ++ rest) :
    tarStep content off =
      if e.2.length % 2 ^ 32 + 1 = 2 ^ 32 then .truncated
      else if name = pkginfoName then
        .pkginfo (cstr (e.2.take (e.2.length % 2 ^ 32)))
          (off + 512 + e.2.length % 2 ^ 32 + (512 - e.2.length % 2 ^ 32 % 512) % 512)
      else
        .member (utf8 name) (e.2.take (e.2.length % 2 ^ 32))
          (off + 512 + e.2.length % 2 ^ 32 + (512 - e.2.length % 2 ^ 32 % 512) % 512) := by
  obtain ⟨-, hlen, hnul, hne⟩ := nameField_spec harc hname
  obtain ⟨pfx', name', sizeField, hname', hsize, rfl⟩ := addfile_spec hblock
  obtain ⟨rfl, rfl⟩ := Prod.mk.inj (Option.some.inj (hname.symm.trans hname'))
  have hlen12 := length_itn (by decide) hsize
  have hhdrlen := length_ustarHeader (utf8 pfx) (utf8 name) hlen12
  have htake := take_ustarHeader (utf8 pfx) (utf8 name) hlen12
  have hsz := size_field_ustarHeader (utf8 pfx) (utf8 name) hlen12
  have hflag := typeflag_ustarHeader (utf8 pfx) (utf8 name) hlen12
  generalize ustarHeader (utf8 pfx) (utf8 name) sizeField = hdr at hhdrlen htake hsz hflag hat
  have hhdr : (content.drop off).take 512 = hdr := by
    rw [hat, List.append_assoc, List.append_assoc, List.take_left' hhdrlen]
  have hdata : content.drop (off + 512) = e.2 ++ (padTo 512 e.2.length ++ rest) := by
    rw [← List.drop_drop, hat, List.append_assoc, List.append_assoc, List.drop_left' hhdrlen]
  have hle : e.2.length % 2 ^ 32 ≤ e.2.length := Nat.mod_le _ _
  have hread : (content.drop (off + 512)).take (e.2.length % 2 ^ 32)
      = e.2.take (e.2.length % 2 ^ 32) := by
    rw [hdata, List.take_append_of_le_length hle]
  have hreadlen : (e.2.take (e.2.length % 2 ^ 32)).length = e.2.length % 2 ^ 32 := by
    rw [List.length_take, Nat.min_eq_left hle]
  have hfield : cstr (hdr.take 100) = utf8 name := by
    rw [htake]
    exact nts_stn hnul hlen
  -- the first byte of the header is the first byte of the name
  have hhead : hdr.head? ≠ some 0 := by
    obtain ⟨b, bs, hb⟩ := List.exists_cons_of_ne_nil hne
    have hfirst : hdr.head? = some b := by
      have := congrArg List.head? htake
      rwa [List.head?_take, if_neg (by decide), stn, hb, List.take_succ_cons, List.cons_append,
        List.head?_cons] at this
    rw [hfirst]
    intro h0
    rw [hb, Option.some.inj h0] at hnul
    exact hnul List.mem_cons_self
  have hpi : utf8 name = ascii ".PKGINFO" ↔ name = pkginfoName := by
    rw [ascii_pkginfo]
    exact utf8_injective.eq_iff
  simp only [tarStep, hhdr]
  rw [if_neg (not_not.mpr hhdrlen), if_neg hhead, hsz, oct_itn hsize, hread, hfield, hreadlen,
    hflag]
  simp only [ne_eq, not_true_eq_false, or_false, false_and, if_false, hpi]

/-! ## Paths -/

/-- The place of an archive name. -/
def arcKey (arc : Text) : List Bytes := (arc.splitOn '/').map utf8

theorem utf8_joinSlash (cs : List Text) : utf8 (joinSlash cs) = [slash].intercalate (cs.map utf8) := by
  induction cs with
  | nil => rfl
  | cons c cs ih =>
    by_cases hcs : cs = []
    · simp [hcs, joinSlash_singleton]
    · obtain ⟨d, ds, rfl⟩ := List.exists_cons_of_ne_nil hcs
      rw [joinSlash_cons hcs, utf8_append, List.map_cons, List.map_cons, List.intercalate_cons_cons]
      have hrest : utf8 ('/' :: joinSlash (d :: ds)) = slash :: utf8 (joinSlash (d :: ds)) := rfl
      rw [hrest, ih, List.map_cons, List.append_assoc, List.singleton_append]

theorem slash_not_mem_utf8 {c : Text} (hc : FileName c) : slash ∉ utf8 c := by
  intro h
  exact hc.2.1 ((mem_utf8_iff (c := '/') (by decide)).mp h)

theorem segOf_utf8 {c : Text} (hc : FileName c) : segOf (utf8 c) = .name (utf8 c) := by
  have hnil : utf8 c ≠ [] := fun h => hc.1 (utf8_injective (h.trans rfl))
  have hdot : utf8 c ≠ ascii "." := fun h => hc.2.2.2.1 (utf8_injective (h.trans rfl))
  have hup : utf8 c ≠ ascii ".." := fun h => hc.2.2.2.2 (utf8_injective (h.trans rfl))
  rw [segOf, if_neg (by simp [hnil, hdot]), if_neg hup]

/-- The components of the path a member is written to. -/
theorem splitOn_absPath {cs : List Text} (hne : cs ≠ []) (hcs : ∀ c ∈ cs, FileName c) :
    (absPath (utf8 (joinSlash cs))).splitOn slash = [] :: cs.map utf8 := by
  have hpath : absPath (utf8 (joinSlash cs)) = [slash].intercalate ([] :: cs.map utf8) := by
    obtain ⟨d, ds, rfl⟩ := List.exists_cons_of_ne_nil hne
    rw [List.map_cons, List.intercalate_cons_cons, List.nil_append, List.singleton_append,
      ← List.map_cons, ← utf8_joinSlash]
    rfl
  rw [hpath]
  refine List.splitOn_intercalate slash (fun l hl => ?_) (List.cons_ne_nil _ _)
  rcases List.mem_cons.mp hl with rfl | hl
  · simp
  · obtain ⟨c, hc, rfl⟩ := List.mem_map.mp hl
    exact slash_not_mem_utf8 (hcs c hc)

/-- **The path of a member** leads through its directories to its last name. -/
theorem ref_of_isArc {arc : Text} (h : IsArc arc) : ∃ names last,
    names ++ [last] = arcKey arc ∧ fileRef (absPath (utf8 arc)) = some (plainRef names last) ∧
      dirname (absPath (utf8 arc)) = (plainRef names last).dir := by
  obtain ⟨cs, hne, hcs, rfl⟩ := h
  have hkey : arcKey (joinSlash cs) = cs.map utf8 := by rw [arcKey, splitOn_joinSlash hne hcs]
  have hsplit := splitOn_absPath hne hcs
  obtain ⟨names, last, rfl⟩ : ∃ names last, cs = names ++ [last] :=
    ⟨cs.dropLast, cs.getLast hne, (List.dropLast_append_getLast hne).symm⟩
  have hseg : ∀ l : List Text, (∀ c ∈ l, FileName c) →
      (l.map utf8).map segOf = (l.map utf8).map .name := by
    intro l hl
    rw [List.map_map, List.map_map]
    exact List.map_congr_left fun c hc => segOf_utf8 (hl c hc)
  have hhere : segOf [] = .here := rfl
  have hlast : utf8 last ≠ [] := fun hnil =>
    (hcs last (by simp)).1 (utf8_injective (hnil.trans rfl))
  have hnames := hseg names fun c hc => hcs c (List.mem_append_left _ hc)
  refine ⟨names.map utf8, utf8 last, by rw [hkey, List.map_append]; rfl, ?_, ?_⟩
  · have hsegs : ((absPath (utf8 (joinSlash (names ++ [last])))).splitOn slash).map segOf
        = (.here :: (names.map utf8).map .name) ++ [.name (utf8 last)] := by
      rw [hsplit, List.map_cons, hhere, hseg _ hcs, List.map_append, List.map_append]
      rfl
    simp only [fileRef, hsegs, List.getLast?_concat, List.dropLast_concat]
    rfl
  · rw [dirname, hsplit, List.map_append, List.map_singleton, ← List.cons_append,
      List.reverse_append, List.reverse_singleton, List.singleton_append,
      List.dropWhile_cons_of_neg (by simpa using hlast), List.drop_succ_cons, List.drop_zero,
      List.reverse_reverse, List.map_cons, hhere, hnames]
    rfl

theorem keyOf_arc {arc : Text} (h : IsArc arc) : keyOf (absPath (utf8 arc)) = some (arcKey arc) := by
  obtain ⟨names, last, hkey, href, -⟩ := ref_of_isArc h
  rw [keyOf, href, Option.map_some, key_plainRef, hkey]

theorem readPath_arc {arc : Text} (h : IsArc arc) (t : FileTree Bytes Bytes) :
    readPath t (absPath (utf8 arc)) = t.file (arcKey arc) := by
  obtain ⟨names, last, hkey, href, -⟩ := ref_of_isArc h
  rw [readPath, href, Option.bind_some, t.read_eq_file (up_not_mem_plainRef names last),
    key_plainRef, hkey]

/-! ## Writing members -/

/-- What writing the members in turn leaves. -/
theorem writeMembers_spec {t t' : FileTree Bytes Bytes} {ms : List (Bytes × Bytes)}
    (h : writeMembers t ms = some t') : t.Le t' ∧ t'.file = writeAll t.file ms := by
  induction ms generalizing t with
  | nil =>
    obtain rfl : t = t' := Option.some.inj h
    exact ⟨FileTree.Le.refl t, rfl⟩
  | cons m ms ih =>
    obtain ⟨t1, hput, hrest⟩ := Option.bind_eq_some_iff.mp h
    obtain ⟨k, hk, hle, hfile, -⟩ := putPath_eq_some hput
    obtain ⟨hle', hfile'⟩ := ih hrest
    refine ⟨((FileTree.le_mkdirs t _).trans hle).trans hle', ?_⟩
    rw [hfile', hfile, FileTree.file_mkdirs, writeAll_cons hk]

/-- What the member list of packed entries is: the `.PKGINFO` is not written. -/
def membersOf (es : List TarEntry) : List (Bytes × Bytes) :=
  (es.filter fun e => e.1 ≠ pkginfoName).map fun e => (utf8 e.1, e.2)

theorem membersOf_append (as bs : List TarEntry) :
    membersOf (as ++ bs) = membersOf as ++ membersOf bs := by
  simp [membersOf, List.filter_append]

theorem membersOf_cons_pkginfo {e : TarEntry} (h : e.1 = pkginfoName) (es : List TarEntry) :
    membersOf (e :: es) = membersOf es := by
  simp [membersOf, h]

theorem membersOf_cons {e : TarEntry} (h : e.1 ≠ pkginfoName) (es : List TarEntry) :
    membersOf (e :: es) = (utf8 e.1, e.2) :: membersOf es := by
  simp [membersOf, h]

theorem mem_membersOf {es : List TarEntry} {m : Bytes × Bytes} :
    m ∈ membersOf es ↔ ∃ e ∈ es, e.1 ≠ pkginfoName ∧ m = (utf8 e.1, e.2) := by
  rw [membersOf, List.mem_map]
  constructor
  · rintro ⟨e, he, rfl⟩
    obtain ⟨hmem, hne⟩ := List.mem_filter.mp he
    exact ⟨e, hmem, by simpa using hne, rfl⟩
  · rintro ⟨e, he, hne, rfl⟩
    exact ⟨e, List.mem_filter.mpr ⟨he, by simpa using hne⟩, rfl⟩

/-- **Entries that are clear of each other and have room** are all written. -/
theorem writeMembers_of_fits {es : List TarEntry} {t : FileTree Bytes Bytes}
    (harcs : ∀ e ∈ es, IsArc e.1)
    (hclear : es.Pairwise fun a b => a.1 ≠ pkginfoName → b.1 ≠ pkginfoName →
      Clear (arcKey a.1) (arcKey b.1))
    (hfit : ∀ e ∈ es, e.1 ≠ pkginfoName → t.Fits (arcKey e.1)) :
    ∃ t', writeMembers t (membersOf es) = some t' := by
  induction es generalizing t with
  | nil => exact ⟨t, rfl⟩
  | cons e es ih =>
    obtain ⟨hfirst, hclear⟩ := List.pairwise_cons.mp hclear
    have harcs' : ∀ e' ∈ es, IsArc e'.1 := fun e' he' => harcs e' (List.mem_cons_of_mem _ he')
    by_cases hpi : e.1 = pkginfoName
    · rw [membersOf_cons_pkginfo hpi]
      exact ih harcs' hclear fun e' he' => hfit e' (List.mem_cons_of_mem _ he')
    · obtain ⟨names, last, hkey, href, hdir⟩ := ref_of_isArc (harcs e List.mem_cons_self)
      have hroom := hfit e List.mem_cons_self hpi
      rw [← hkey] at hroom
      obtain ⟨t1, hput, hkeep⟩ := FileTree.create_of_fits hroom fun _ => e.2
      obtain ⟨t', ht'⟩ := @ih t1 harcs' hclear fun e' he' hne' => by
        refine hkeep _ ?_ (hfit e' (List.mem_cons_of_mem _ he') hne')
        rw [hkey]
        exact (hfirst e' he' hpi hne').symm
      refine ⟨t', ?_⟩
      rw [membersOf_cons hpi, writeMembers, hdir, putPath, href, Option.bind_some, hput,
        Option.bind_some, ht']

/-- The last writer of a place decides. -/
theorem writeAll_append (f : List Bytes → Option Bytes) (as bs : List (Bytes × Bytes)) :
    writeAll f (as ++ bs) = writeAll (writeAll f as) bs := List.foldl_append

/-- Each of the entries stands at its own place. -/
theorem writeAll_membersOf {es : List TarEntry} (harcs : ∀ e ∈ es, IsArc e.1)
    (hapart : es.Pairwise fun a b => Apart (arcKey a.1) (arcKey b.1))
    (f : List Bytes → Option Bytes) {e : TarEntry} (he : e ∈ es) (hne : e.1 ≠ pkginfoName) :
    writeAll f (membersOf es) (arcKey e.1) = some e.2 := by
  obtain ⟨pre, post, rfl⟩ := List.append_of_mem he
  obtain ⟨-, hpost, -⟩ := List.pairwise_append.mp hapart
  obtain ⟨hafter, -⟩ := List.pairwise_cons.mp hpost
  have hkey := keyOf_arc (harcs e he)
  rw [membersOf_append, membersOf_cons hne, writeAll_append, writeAll_cons hkey]
  rw [writeAll_of_forall_ne, Function.update_self]
  intro m hm
  obtain ⟨e', he', -, rfl⟩ := mem_membersOf.mp hm
  rw [keyOf_arc (harcs e' (by simp [he'])), ne_eq, Option.some.injEq]
  exact (hafter e' he').ne.symm

/-- Places of no entry stay as they are. -/
theorem writeAll_membersOf_other {es : List TarEntry} (harcs : ∀ e ∈ es, IsArc e.1)
    (f : List Bytes → Option Bytes) {k : List Bytes}
    (h : ∀ e ∈ es, e.1 ≠ pkginfoName → arcKey e.1 ≠ k) : writeAll f (membersOf es) k = f k := by
  refine writeAll_of_forall_ne (fun m hm => ?_) f
  obtain ⟨e, he, hne, rfl⟩ := mem_membersOf.mp hm
  rw [keyOf_arc (harcs e he), ne_eq, Option.some.injEq]
  exact h e he hne

/-! ## Running over plain members -/

/-- A name that fits its field, and a size that 32 bits hold. -/
def PlainEntry (e : TarEntry) : Prop := (utf8 e.1).length ≤ 100 ∧ e.2.length + 1 < 2 ^ 32

instance (e : TarEntry) : Decidable (PlainEntry e) := inferInstanceAs (Decidable (_ ∧ _))

/-- The text of the last `.PKGINFO` among entries, or the one given. -/
def infoOf (es : List TarEntry) (pkginfo : Option Bytes) : Option Bytes :=
  es.foldl (fun pi e => if e.1 = pkginfoName then some (cstr e.2) else pi) pkginfo

theorem length_addfile {e : TarEntry} {block : Bytes} (h : addfile e = some block) :
    block.length = 512 + e.2.length + (512 - e.2.length % 512) % 512 := by
  obtain ⟨pfx, name, sizeField, -, hsize, rfl⟩ := addfile_spec h
  rw [List.length_append, List.length_append,
    length_ustarHeader _ _ (length_itn (by decide) hsize)]
  simp [padTo]

/-- What the reader makes of a plain member. -/
theorem tarStep_plain {content rest : Bytes} {off : ℕ} {e : TarEntry} {block : Bytes}
    (harc : IsArc e.1) (hplain : PlainEntry e) (hblock : addfile e = some block)
    (hat : content.drop off = block ++ rest) :
    tarStep content off = if e.1 = pkginfoName then .pkginfo (cstr e.2) (off + block.length)
      else .member (utf8 e.1) e.2 (off + block.length) := by
  obtain ⟨pfx, name, -, hname, -, -⟩ := addfile_spec hblock
  have hmod : e.2.length % 2 ^ 32 = e.2.length := Nat.mod_eq_of_lt (by have := hplain.2; omega)
  have hshort : name = e.1 := by
    rcases ustarName_spec harc hname with ⟨-, -, h⟩ | ⟨hlong, -⟩
    · exact h
    · exact absurd hplain.1 (by omega)
  rw [tarStep_block harc hname hblock hat, hmod, if_neg (by have := hplain.2; omega),
    List.take_length, hshort, length_addfile hblock]
  simp only [Nat.add_assoc]

/-- The `F:` lines of packed entries. -/
def arcLines (es : List TarEntry) : List Bytes := (membersOf es).map fun m => fileLine m.1

/-- **A run over plain members** writes and records each of them and arrives behind them, or
dies at one that cannot be opened. -/
theorem tarLoop_blocks {tar : FileRef Bytes} {content rest : Bytes} {es : List TarEntry}
    {blocks : List Bytes} (harcs : ∀ e ∈ es, IsArc e.1) (hplain : ∀ e ∈ es, PlainEntry e)
    (hblocks : es.mapM addfile = some blocks)
    (hno : ∀ e ∈ es, e.1 ≠ pkginfoName → arcKey e.1 ≠ tar.key) (fuel : ℕ) {s : State} {off : ℕ}
    {files : Bytes} {pkginfo : Option Bytes} (hnow : archiveNow tar s = content)
    (hat : content.drop off = blocks.flatten ++ rest) :
    (∀ t, writeMembers s.tree (membersOf es) = some t →
      tarLoop tar (es.length + fuel) s off files pkginfo
        = tarLoop tar fuel { s with tree := t } (off + blocks.flatten.length)
          (files ++ unlines nl (arcLines es)) (infoOf es pkginfo)) ∧
    (writeMembers s.tree (membersOf es) = none →
      (tarLoop tar (es.length + fuel) s off files pkginfo).1 = none) := by
  -- along the entries: each header is read where the blocks of the entries before it end
  induction es generalizing s off files pkginfo blocks with
  | nil =>
    obtain rfl : blocks = [] := by simpa using hblocks.symm
    refine ⟨fun t ht => ?_, fun h => by simp [membersOf, writeMembers] at h⟩
    obtain rfl : s.tree = t := Option.some.inj ht
    simp [infoOf, arcLines, membersOf]
  | cons e es ih =>
    rw [List.mapM_cons] at hblocks
    simp only [Option.bind_eq_bind, Option.bind_eq_some_iff, Option.pure_def,
      Option.some.injEq] at hblocks
    obtain ⟨block, hblock, blocks, hblocks, rfl⟩ := hblocks
    have harc := harcs e List.mem_cons_self
    rw [List.flatten_cons, List.append_assoc] at hat
    have hstep := tarStep_plain harc (hplain e List.mem_cons_self) hblock hat
    have hat' : content.drop (off + block.length) = blocks.flatten ++ rest := by
      rw [← List.drop_drop, hat, List.drop_left' rfl]
    have hih := fun {s' : State} {files' : Bytes} {pkginfo' : Option Bytes}
        (hnow' : archiveNow tar s' = content) =>
      @ih blocks (fun e' he' => harcs e' (List.mem_cons_of_mem _ he'))
        (fun e' he' => hplain e' (List.mem_cons_of_mem _ he')) hblocks
        (fun e' he' => hno e' (List.mem_cons_of_mem _ he')) s' (off + block.length) files' pkginfo'
        hnow' hat'
    rw [List.length_cons, Nat.add_right_comm, List.flatten_cons, List.length_append,
      ← Nat.add_assoc off]
    simp only [tarLoop, hnow, hstep]
    -- `.PKGINFO` is kept aside, every other entry is written
    by_cases hpi : e.1 = pkginfoName
    · have hinfo : infoOf (e :: es) pkginfo = infoOf es (some (cstr e.2)) := by simp [infoOf, hpi]
      rw [arcLines, membersOf_cons_pkginfo hpi, hinfo]
      simp only [if_pos hpi]
      exact hih hnow
    · have hinfo : infoOf (e :: es) pkginfo = infoOf es pkginfo := by simp [infoOf, hpi]
      have hlines : arcLines (e :: es) = fileLine (utf8 e.1) :: arcLines es := by
        rw [arcLines, membersOf_cons hpi]
        rfl
      rw [hlines, membersOf_cons hpi, writeMembers, hinfo]
      simp only [if_neg hpi, extractMember_eq]
      cases hput : putPath (s.tree.mkdirs (dirname (absPath (utf8 e.1)))) (absPath (utf8 e.1))
          fun _ => e.2 with
      | none => simp [cantOpen, die]
      | some t1 =>
        have hkey : keyOf (absPath (utf8 e.1)) ≠ some tar.key := by
          rw [keyOf_arc harc, ne_eq, Option.some.injEq]
          exact hno e List.mem_cons_self hpi
        have hnow' := (archiveNow_of_put hkey hput).trans hnow
        simp only [Option.bind_some]
        obtain ⟨hsome, hnone⟩ := @hih { s with tree := t1 }
          (files ++ (fileLine (utf8 e.1) ++ [nl])) pkginfo hnow'
        refine ⟨fun t ht => ?_, hnone⟩
        rw [hsome t ht, unlines_cons]
        simp only [List.append_assoc, List.singleton_append]

/-! ## A whole archive -/

theorem writeMembers_append (t : FileTree Bytes Bytes) (as bs : List (Bytes × Bytes)) :
    writeMembers t (as ++ bs) = (writeMembers t as).bind fun t' => writeMembers t' bs := by
  induction as generalizing t with
  | nil => rfl
  | cons a as ih =>
    rw [List.cons_append, writeMembers, writeMembers]
    cases putPath (t.mkdirs (dirname (absPath a.1))) (absPath a.1) fun _ => a.2 with
    | none => rfl
    | some t1 => exact ih t1

theorem infoOf_of_forall_ne {es : List TarEntry} (h : ∀ e ∈ es, e.1 ≠ pkginfoName)
    (pkginfo : Option Bytes) : infoOf es pkginfo = pkginfo := by
  induction es generalizing pkginfo with
  | nil => rfl
  | cons e es ih =>
    have hstep : infoOf (e :: es) pkginfo = infoOf es pkginfo := by
      simp [infoOf, h e List.mem_cons_self]
    rw [hstep, ih fun e' he' => h e' (List.mem_cons_of_mem _ he')]

/-- The one `.PKGINFO` is the one returned. -/
theorem infoOf_of_mem {es : List TarEntry} (hnodup : (es.map Prod.fst).Nodup) {info : Bytes}
    (h : (pkginfoName, info) ∈ es) (pkginfo : Option Bytes) :
    infoOf es pkginfo = some (cstr info) := by
  obtain ⟨pre, post, rfl⟩ := List.append_of_mem h
  rw [List.map_append, List.map_cons, List.nodup_append] at hnodup
  obtain ⟨-, hpost, -⟩ := hnodup
  have hafter : ∀ e ∈ post, e.1 ≠ pkginfoName := by
    intro e he heq
    have hmem : e.1 ∈ post.map Prod.fst := List.mem_map_of_mem he
    rw [heq] at hmem
    exact (List.nodup_cons.mp hpost).1 hmem
  have hsplit : infoOf (pre ++ (pkginfoName, info) :: post) pkginfo
      = infoOf post (some (cstr info)) := by
    simp [infoOf, List.foldl_append]
  rw [hsplit, infoOf_of_forall_ne hafter]

theorem length_le_flatten {es : List TarEntry} {blocks : List Bytes}
    (h : es.mapM addfile = some blocks) : 512 * es.length ≤ blocks.flatten.length := by
  induction es generalizing blocks with
  | nil => simp
  | cons e es ih =>
    rw [List.mapM_cons] at h
    simp only [Option.bind_eq_bind, Option.bind_eq_some_iff, Option.pure_def,
      Option.some.injEq] at h
    obtain ⟨block, hblock, blocks, hblocks, rfl⟩ := h
    have := ih hblocks
    have := length_addfile hblock
    rw [List.flatten_cons, List.length_append, List.length_cons]
    omega

/-- The archive of sorted entries: their blocks and a tail of zeros. -/
theorem buildTar_spec {entries : List TarEntry} {tar : Bytes} (h : buildTar entries = some tar) :
    ∃ blocks n, (sortEntries entries).mapM addfile = some blocks ∧ 512 ≤ n ∧
      tar = blocks.flatten ++ List.replicate n 0 := by
  unfold buildTar at h
  simp only [Option.bind_eq_bind, Option.bind_eq_some_iff, Option.some.injEq] at h
  obtain ⟨blocks, hblocks, rfl⟩ := h
  refine ⟨blocks, 1024 + (10240 - (blocks.flatten.length + 1024) % 10240) % 10240, hblocks,
    by omega, ?_⟩
  rw [closeTar, padTo, List.append_assoc, List.replicate_append_replicate]

theorem tarStep_zeros {content : Bytes} {off n : ℕ} (hn : 512 ≤ n)
    (h : content.drop off = List.replicate n 0) : tarStep content off = .stop := by
  have htake : (content.drop off).take 512 = List.replicate 512 0 := by
    rw [h, List.take_replicate, Nat.min_eq_left hn]
  have hlen : (List.replicate 512 (0 : UInt8)).length = 512 := List.length_replicate
  have hhead : (List.replicate 512 (0 : UInt8)).head? = some 0 := List.head?_replicate
  generalize List.replicate 512 (0 : UInt8) = zeros at htake hlen hhead
  simp only [tarStep, htake]
  rw [if_neg (not_not.mpr hlen), if_pos hhead]

/-- The archive can be opened, and is what the loop reads. -/
theorem tarExtract_eq {tarpath tar : Bytes} {ref : FileRef Bytes} {s : State}
    (href : fileRef tarpath = some ref) (hread : s.tree.read ref = some tar) :
    tarExtract tarpath s = tarLoop ref (tar.length / 512 + 1) s 0 [] none ∧
      archiveNow ref s = tar := by
  constructor
  · rw [tarExtract, readPath, href, Option.bind_some, hread]
  · have hfile : s.tree.file ref.key = some tar := (readFile_eq_some_iff.mp hread).2
    rw [archiveNow, hfile, Option.getD_some]

theorem mapM_addfile_cons {pre post : List TarEntry} {e : TarEntry} {blocks : List Bytes}
    (h : (pre ++ e :: post).mapM addfile = some blocks) :
    ∃ before block after, pre.mapM addfile = some before ∧ addfile e = some block ∧
      blocks = before ++ block :: after := by
  rw [List.mapM_append, List.mapM_cons] at h
  simp only [Option.bind_eq_bind, Option.bind_eq_some_iff, Option.pure_def,
    Option.some.injEq] at h
  obtain ⟨before, hbefore, tail, ⟨block, hblock, after, hafter, rfl⟩, rfl⟩ := h
  exact ⟨before, block, after, hbefore, hblock, rfl⟩

/-- **Arriving at a member** behind plain ones: the archive is as it was, and the member's block
is what comes next; or the run has died before. -/
theorem tarExtract_reaches {entries pre post : List TarEntry} {e : TarEntry}
    {tarpath tar : Bytes} {ref : FileRef Bytes} {s : State}
    (harcs : ∀ e ∈ entries, IsArc e.1) (htar : buildTar entries = some tar)
    (href : fileRef tarpath = some ref) (hread : s.tree.read ref = some tar)
    (hes : sortEntries entries = pre ++ e :: post) (hplain : ∀ e' ∈ pre, PlainEntry e')
    (hno : ∀ e' ∈ pre, e'.1 ≠ pkginfoName → arcKey e'.1 ≠ ref.key) :
    ∃ block rest fuel off, addfile e = some block ∧ tar.drop off = block ++ rest ∧
      (∀ t, writeMembers s.tree (membersOf pre) = some t →
        archiveNow ref { s with tree := t } = tar ∧
        tarExtract tarpath s = tarLoop ref (fuel + 2) { s with tree := t } off
          (unlines nl (arcLines pre)) (infoOf pre none)) ∧
      (writeMembers s.tree (membersOf pre) = none → (tarExtract tarpath s).1 = none) := by
  obtain ⟨hrun, hnow⟩ := tarExtract_eq href hread
  obtain ⟨blocks, n, hblocks, hn, hshape⟩ := buildTar_spec htar
  have hcount := length_le_flatten hblocks
  rw [hes] at hblocks hcount
  have harcs' : ∀ e' ∈ pre, IsArc e'.1 := by
    intro e' he'
    have hmem : e' ∈ sortEntries entries := by
      rw [hes]
      exact List.mem_append_left _ he'
    exact harcs e' (mem_sortEntries.mp hmem)
  obtain ⟨before, block, after, hbefore, hblock, rfl⟩ := mapM_addfile_cons hblocks
  rw [List.flatten_append, List.flatten_cons] at hshape
  have hat : tar.drop 0
      = before.flatten ++ (block ++ (after.flatten ++ List.replicate n 0)) := by
    rw [List.drop_zero, hshape]
    simp only [List.append_assoc]
  -- each entry takes a block at least, so there is fuel for the next header and one more
  obtain ⟨fuel, hfuel⟩ : ∃ fuel, tar.length / 512 + 1 = pre.length + (fuel + 2) := by
    have hlen : (before ++ block :: after).flatten.length ≤ tar.length := by
      rw [hshape]
      simp
    rw [List.length_append, List.length_cons] at hcount
    exact ⟨tar.length / 512 - pre.length - 1, by omega⟩
  obtain ⟨hsome, hnone⟩ := @tarLoop_blocks ref tar _ pre before harcs' hplain hbefore hno
    (fuel + 2) s 0 [] none hnow hat
  refine ⟨block, after.flatten ++ List.replicate n 0, fuel, before.flatten.length, hblock, ?_, ?_, ?_⟩
  · rw [hshape, List.append_assoc, List.drop_left' rfl, List.append_assoc]
  · intro t ht
    -- no entry so far is the archive itself
    have hfile : t.file ref.key = s.tree.file ref.key := by
      rw [(writeMembers_spec ht).2]
      exact writeAll_membersOf_other harcs' _ hno
    refine ⟨by rw [← hnow, archiveNow, archiveNow, hfile], ?_⟩
    rw [hrun, hfuel, hsome t ht, List.nil_append, Nat.zero_add]
  · intro hdead
    rw [hrun, hfuel]
    exact hnone hdead

/-- No entry is packed behind one that has the archive's own path. -/
def ArchiveLast (ref : FileRef Bytes) (es : List TarEntry) : Prop :=
  ∀ pre e post, es = pre ++ e :: post → e.1 ≠ pkginfoName → arcKey e.1 = ref.key → post = []

/-- A plain member that replaces the archive is the last one read. -/
theorem tarLoop_replaces {ref : FileRef Bytes} {tar rest : Bytes} {e : TarEntry} {block : Bytes}
    {s : State} {off fuel : ℕ} {files : Bytes} {pkginfo : Option Bytes}
    {t : FileTree Bytes Bytes} (harc : IsArc e.1) (hplain : PlainEntry e) (hne : e.1 ≠ pkginfoName)
    (hkey : arcKey e.1 = ref.key) (hblock : addfile e = some block)
    (hat : tar.drop off = block ++ rest) (hnow : archiveNow ref s = tar)
    (ht : writeMembers s.tree [(utf8 e.1, e.2)] = some t) :
    tarLoop ref (fuel + 2) s off files pkginfo
      = (some (files ++ (fileLine (utf8 e.1) ++ [nl]), pkginfo), { s with tree := t }) := by
  have hstep := tarStep_plain harc hplain hblock hat
  rw [if_neg hne] at hstep
  have hput : putPath (s.tree.mkdirs (dirname (absPath (utf8 e.1)))) (absPath (utf8 e.1))
      (fun _ => e.2) = some t := by
    simpa [writeMembers] using ht
  have hfile : t.file ref.key = some e.2 := by
    obtain ⟨k, hk, -, hfile, -⟩ := putPath_eq_some hput
    rw [keyOf_arc harc, Option.some.injEq, hkey] at hk
    rw [hfile, ← hk, Function.update_self]
  have hend : tarStep (archiveNow ref { s with tree := t }) (off + block.length) = .stop := by
    refine tarStep_of_length_le ?_
    have hlen := length_addfile hblock
    rw [archiveNow, hfile, Option.getD_some]
    omega
  simp only [tarLoop, hnow, hstep, extractMember_eq, hput, hend]

theorem arcKey_injective {a b : Text} (ha : IsArc a) (hb : IsArc b) (h : arcKey a = arcKey b) :
    a = b := by
  obtain ⟨as, hane, has, rfl⟩ := ha
  obtain ⟨bs, hbne, hbs, rfl⟩ := hb
  rw [arcKey, arcKey, splitOn_joinSlash hane has, splitOn_joinSlash hbne hbs] at h
  rw [List.map_injective_iff.mpr utf8_injective h]

/-- **Extraction of plain entries** that can all be written. -/
theorem tarExtract_plain {entries : List TarEntry} {tarpath tar : Bytes} {ref : FileRef Bytes}
    {s : State} {t : FileTree Bytes Bytes} (harcs : ∀ e ∈ entries, IsArc e.1)
    (hplain : ∀ e ∈ entries, PlainEntry e) (hnodup : ((sortEntries entries).map Prod.fst).Nodup)
    (htar : buildTar entries = some tar) (href : fileRef tarpath = some ref)
    (hread : s.tree.read ref = some tar) (hlast : ArchiveLast ref (sortEntries entries))
    (ht : writeMembers s.tree (membersOf (sortEntries entries)) = some t) :
    tarExtract tarpath s = (some (unlines nl (arcLines (sortEntries entries)),
      infoOf (sortEntries entries) none), { s with tree := t }) := by
  have hmem : ∀ {e}, e ∈ sortEntries entries → e ∈ entries := fun he => mem_sortEntries.mp he
  have harcs' : ∀ e ∈ sortEntries entries, IsArc e.1 := fun e he => harcs e (hmem he)
  have hplain' : ∀ e ∈ sortEntries entries, PlainEntry e := fun e he => hplain e (hmem he)
  by_cases hno : ∀ e ∈ sortEntries entries, e.1 ≠ pkginfoName → arcKey e.1 ≠ ref.key
  · -- the archive is read to its end
    obtain ⟨hrun, hnow⟩ := tarExtract_eq href hread
    obtain ⟨blocks, n, hblocks, hn, hshape⟩ := buildTar_spec htar
    obtain ⟨fuel, hfuel⟩ : ∃ fuel, tar.length / 512 + 1
        = (sortEntries entries).length + (fuel + 1) := by
      have hcount := length_le_flatten hblocks
      have hlen : blocks.flatten.length ≤ tar.length := by
        rw [hshape]
        simp
      exact ⟨tar.length / 512 - (sortEntries entries).length, by omega⟩
    have hat : tar.drop 0 = blocks.flatten ++ List.replicate n 0 := hshape
    rw [hrun, hfuel, (tarLoop_blocks harcs' hplain' hblocks hno (fuel + 1) hnow hat).1 t ht]
    have hend : tarStep tar (0 + blocks.flatten.length) = .stop := by
      refine tarStep_zeros hn ?_
      rw [Nat.zero_add, hshape, List.drop_left' rfl]
    have hnow' : archiveNow ref { s with tree := t } = tar := by
      have hfile : t.file ref.key = s.tree.file ref.key := by
        rw [(writeMembers_spec ht).2]
        exact writeAll_membersOf_other harcs' _ hno
      rw [← hnow, archiveNow, archiveNow, hfile]
    simp only [tarLoop, hnow', hend, List.nil_append]
  · -- the last member replaces the archive, and there is nothing more to read
    push Not at hno
    obtain ⟨e, he, hne, hkey⟩ := hno
    obtain ⟨pre, post, hes⟩ := List.append_of_mem he
    obtain rfl := hlast pre e post hes hne hkey
    have hin : ∀ e' ∈ pre, e' ∈ sortEntries entries := by
      intro e' he'
      rw [hes]
      exact List.mem_append_left _ he'
    have hothers : ∀ e' ∈ pre, e'.1 ≠ pkginfoName → arcKey e'.1 ≠ ref.key := by
      intro e' he' _ hkey'
      have heq := arcKey_injective (harcs' e' (hin e' he')) (harcs' e he) (hkey'.trans hkey.symm)
      rw [hes, List.map_append, List.nodup_append] at hnodup
      exact hnodup.2.2 _ (List.mem_map_of_mem he') _ (by simp) heq
    obtain ⟨block, rest, fuel, off, hblock, hat, hsome, -⟩ := tarExtract_reaches harcs htar href
      hread hes (fun e' he' => hplain' e' (hin e' he')) hothers
    have hone : membersOf [e] = [(utf8 e.1, e.2)] := membersOf_cons hne []
    rw [hes, membersOf_append, hone, writeMembers_append] at ht
    obtain ⟨t1, ht1, ht⟩ := Option.bind_eq_some_iff.mp ht
    obtain ⟨hnow, hrun⟩ := hsome t1 ht1
    have hlines : arcLines (pre ++ [e]) = arcLines pre ++ [fileLine (utf8 e.1)] := by
      rw [arcLines, membersOf_append, hone, List.map_append]
      rfl
    have hinfo : infoOf (pre ++ [e]) none = infoOf pre none := by
      simp [infoOf, List.foldl_append, hne]
    rw [hrun, tarLoop_replaces (harcs' e he) (hplain' e he) hne hkey hblock hat hnow ht, hes, hlines,
      hinfo, unlines_append, unlines_cons, unlines_nil]

/-! ## Accepted stages -/

/-- **What `stage_entries` accepts**: archive names that lie apart, none of them under `home`,
and one `.PKGINFO`. -/
structure Accepted (entries : List TarEntry) : Prop where
  isArc : ∀ e ∈ entries, IsArc e.1
  apart : entries.Pairwise fun a b => Apart (arcKey a.1) (arcKey b.1)
  notHome : ∀ e ∈ entries, underHome e.1 = false
  hasInfo : ∃ info, (pkginfoName, info) ∈ entries

theorem Accepted.of_perm {es es' : List TarEntry} (h : Accepted es) (hperm : es.Perm es') :
    Accepted es' where
  isArc e he := h.isArc e (hperm.mem_iff.mpr he)
  apart := (hperm.pairwise_iff fun h => h.symm).mp h.apart
  notHome e he := h.notHome e (hperm.mem_iff.mpr he)
  hasInfo := h.hasInfo.imp fun _ hi => hperm.mem_iff.mp hi

theorem Accepted.nodup {es : List TarEntry} (h : Accepted es) : (es.map Prod.fst).Nodup :=
  List.pairwise_map.mpr (h.apart.imp fun hab heq => hab.ne (by rw [heq]))

theorem accepted_walk {d : Dir} (hd : d.WF) (hhome : ∀ e ∈ d.walk [], underHome e.1 = false)
    (hinfo : pkginfoName ∈ (d.walk []).map Prod.fst) : Accepted (d.walk []) where
  isArc e he := isArc_of_mem_walk hd he
  apart := by
    refine ((walk_perm_arcOf hd).pairwise_iff fun h => h.symm).mpr (List.pairwise_map.mpr ?_)
    refine (Dir.pairwise_listing d hd).imp_of_mem fun {a b} ha hb hab => ?_
    rw [arcOf, arcOf, arcKey, arcKey,
      splitOn_joinSlash (Dir.path_ne_nil d a ha) (Dir.fileName_of_mem d hd a ha),
      splitOn_joinSlash (Dir.path_ne_nil d b hb) (Dir.fileName_of_mem d hd b hb)]
    exact hab.map utf8_injective
  notHome := hhome
  hasInfo := by
    obtain ⟨⟨n, info⟩, hmem, rfl⟩ := List.mem_map.mp hinfo
    exact ⟨info, hmem⟩

theorem accepted_of_stageEntries {a : PkgArgs} {d : Dir} (hd : d.WF) {entries : List TarEntry}
    (h : (stageEntries a d).1 = .ok entries) : Accepted entries := by
  rcases stageEntries_cases a hd with ⟨msg, hc⟩ | ⟨hin, hhome, hc⟩ | ⟨hwf, -, hhome, hc⟩
  · simp [hc] at h
  · rw [hc, Except.ok.injEq] at h
    rw [← h]
    exact accepted_walk hd hhome hin
  · rw [hc, Except.ok.injEq] at h
    have hperm := walk_withInfo_perm hd _ hwf
    rw [← h]
    refine (accepted_walk hwf (fun e he => ?_) ?_).of_perm hperm
    · rcases List.mem_append.mp (hperm.mem_iff.mp he) with he | he
      · exact hhome e he
      · obtain rfl := List.mem_singleton.mp he
        show underHome pkginfoName = false
        decide
    · exact (hperm.map Prod.fst).mem_iff.mpr (by simp)

/-! ## The round trip -/

/-- **The round trip**: extraction writes each packed file at its own path with its own bytes
and nothing else, records exactly these paths in the order of the archive, and returns the
`.PKGINFO`. -/
def ExtractsExactly (tarpath : Bytes) (s : State) (entries : List TarEntry) : Prop :=
  ∃ files info s', tarExtract tarpath s = (some (files, some info), s') ∧
    (pkginfoName, info) ∈ entries ∧
    (∀ e ∈ entries, e.1 ≠ pkginfoName → readPath s'.tree (absPath (utf8 e.1)) = some e.2) ∧
    lines nl files = arcLines (sortEntries entries) ++ [[]] ∧
    ∀ k, (∀ e ∈ entries, e.1 ≠ pkginfoName → arcKey e.1 ≠ k) →
      s'.tree.file k = s.tree.file k

/-- Short names on one line, small sizes, room for each file, and nothing packed behind the
archive's own path. -/
structure Extractable (t : FileTree Bytes Bytes) (ref : FileRef Bytes)
    (entries : List TarEntry) : Prop where
  plain : ∀ e ∈ entries, PlainEntry e
  oneLine : ∀ e ∈ entries, e.1 ≠ pkginfoName → '\n' ∉ e.1
  room : ∀ e ∈ entries, e.1 ≠ pkginfoName → t.Fits (arcKey e.1)
  last : ArchiveLast ref (sortEntries entries)

theorem nl_not_mem_fileLine {arc : Text} (h : '\n' ∉ arc) : nl ∉ fileLine (utf8 arc) := by
  rw [fileLine, absPath, List.mem_append, List.mem_cons, not_or, not_or]
  refine ⟨by decide, by decide, fun hmem => h ?_⟩
  exact (mem_utf8_iff (c := '\n') (by decide)).mp hmem

theorem nl_not_mem_arcLines {es : List TarEntry} (h : ∀ e ∈ es, e.1 ≠ pkginfoName → '\n' ∉ e.1) :
    ∀ l ∈ arcLines es, nl ∉ l := by
  intro l hl
  obtain ⟨m, hm, rfl⟩ := List.mem_map.mp hl
  obtain ⟨e, he, hne, rfl⟩ := mem_membersOf.mp hm
  exact nl_not_mem_fileLine (h e he hne)

/-- Extractable entries are extracted exactly. -/
theorem extractsExactly_of_extractable {entries : List TarEntry} {tarpath tar : Bytes}
    {ref : FileRef Bytes} {s : State} (hacc : Accepted entries) (htar : buildTar entries = some tar)
    (hnul : ∀ info, (pkginfoName, info) ∈ entries → 0 ∉ info)
    (href : fileRef tarpath = some ref) (hread : s.tree.read ref = some tar)
    (h : Extractable s.tree ref entries) : ExtractsExactly tarpath s entries := by
  have hperm : entries.Perm (sortEntries entries) := (List.mergeSort_perm _ _).symm
  have hsorted := hacc.of_perm hperm
  have hmem : ∀ {e}, e ∈ sortEntries entries → e ∈ entries := fun he => hperm.mem_iff.mpr he
  obtain ⟨t, ht⟩ := writeMembers_of_fits hsorted.isArc (hsorted.apart.imp fun h _ _ => h.clear)
    (fun e he hne => h.room e (hmem he) hne)
  obtain ⟨info, hinfo⟩ := hacc.hasInfo
  have hex := tarExtract_plain hacc.isArc h.plain hsorted.nodup htar href hread h.last ht
  rw [infoOf_of_mem hsorted.nodup (hperm.mem_iff.mp hinfo), cstr_eq_self (hnul info hinfo)] at hex
  obtain ⟨-, hfile⟩ := writeMembers_spec ht
  refine ⟨_, info, _, hex, hinfo, fun e he hne => ?_, ?_, fun k hk => ?_⟩
  · rw [readPath_arc (hacc.isArc e he), hfile]
    exact writeAll_membersOf hsorted.isArc hsorted.apart _ (hperm.mem_iff.mp he) hne
  · exact lines_unlines nl (nl_not_mem_arcLines fun e he hne => h.oneLine e (hmem he) hne)
  · rw [hfile]
    exact writeAll_membersOf_other hsorted.isArc _ fun e he hne => hk e (hmem he) hne

/-! ## What the reader can produce -/

theorem oct_lt (p : Bytes) : oct p < 2 ^ 32 := by
  rw [oct]
  generalize cstr p = ds
  induction ds using List.reverseRecOn with
  | nil => decide
  | append_singleton ds d ih =>
    rw [List.foldl_append, List.foldl_cons, List.foldl_nil]
    split
    · exact Nat.mod_lt _ (by decide)
    · exact ih

theorem length_cstr_le (b : Bytes) : (cstr b).length ≤ b.length :=
  (List.takeWhile_prefix _).length_le

/-- A member has a name of at most 100 bytes and a size that 32 bits hold. -/
theorem bounds_of_tarStep_member {content name data : Bytes} {off next : ℕ}
    (h : tarStep content off = .member name data next) :
    name.length ≤ 100 ∧ data.length + 1 < 2 ^ 32 := by
  unfold tarStep at h
  simp only at h
  split_ifs at h with h1 h2 h3 h4 h5
  obtain ⟨rfl, rfl, -⟩ := TarStep.member.inj h
  obtain ⟨hwrap, hlen⟩ := not_or.mp h3
  have hlt := oct_lt ((((content.drop off).take 512).drop 124).take 12)
  refine ⟨(length_cstr_le _).trans (List.length_take_le _ _), ?_⟩
  rw [not_not.mp hlen]
  omega

theorem bound_of_tarStep_pkginfo {content data : Bytes} {off next : ℕ}
    (h : tarStep content off = .pkginfo data next) : data.length + 1 < 2 ^ 32 := by
  unfold tarStep at h
  simp only at h
  split_ifs at h with h1 h2 h3 h4 h5
  obtain ⟨rfl, -⟩ := TarStep.pkginfo.inj h
  obtain ⟨hwrap, hlen⟩ := not_or.mp h3
  have hlt := oct_lt ((((content.drop off).take 512).drop 124).take 12)
  have hcstr := length_cstr_le
    ((content.drop (off + 512)).take (oct ((((content.drop off).take 512).drop 124).take 12)))
  rw [not_not.mp hlen] at hcstr
  omega

/-- **Whatever the archive holds**, the reader writes and returns nothing of `2 ^ 32 - 1` bytes
or more, and records no name of more than 100 bytes. -/
theorem tarLoop_bounds {tar : FileRef Bytes} {fuel off : ℕ} {s s' : State} {files files' : Bytes}
    {pkginfo pkginfo' : Option Bytes}
    (h : tarLoop tar fuel s off files pkginfo = (some (files', pkginfo'), s')) :
    s.tree.Le s'.tree ∧
      (∀ k d, s'.tree.file k = some d → s.tree.file k = some d ∨ d.length + 1 < 2 ^ 32) ∧
      (∀ d, pkginfo' = some d → pkginfo = some d ∨ d.length + 1 < 2 ^ 32) ∧
      ∃ names : List Bytes, files' = files ++ unlines nl (names.map fileLine) ∧
        ∀ name ∈ names, name.length ≤ 100 := by
  -- a name comes from a field of 100 bytes, and a size has passed `size + 1`
  induction fuel generalizing s off files pkginfo with
  | zero =>
    obtain ⟨hout, rfl⟩ := Prod.mk.inj h
    obtain ⟨rfl, rfl⟩ := Prod.mk.inj (Option.some.inj hout)
    exact ⟨FileTree.Le.refl _, fun _ _ => Or.inl, fun _ => Or.inl, [], by simp, by simp⟩
  | succ fuel ih =>
    rw [tarLoop] at h
    cases hstep : tarStep (archiveNow tar s) off with
    | stop =>
      rw [hstep] at h
      obtain ⟨hout, rfl⟩ := Prod.mk.inj h
      obtain ⟨rfl, rfl⟩ := Prod.mk.inj (Option.some.inj hout)
      exact ⟨FileTree.Le.refl _, fun _ _ => Or.inl, fun _ => Or.inl, [], by simp, by simp⟩
    | truncated => simp [hstep, die] at h
    | skip next =>
      rw [hstep] at h
      exact ih h
    | pkginfo data next =>
      rw [hstep] at h
      obtain ⟨hle, hfile, hpi, hnames⟩ := ih h
      refine ⟨hle, hfile, fun d hd => ?_, hnames⟩
      rcases hpi d hd with heq | hsmall
      · obtain rfl : data = d := Option.some.inj heq
        exact Or.inr (bound_of_tarStep_pkginfo hstep)
      · exact Or.inr hsmall
    | member name data next =>
      rw [hstep] at h
      obtain ⟨hname, hdata⟩ := bounds_of_tarStep_member hstep
      rcases hex : extractMember s name data with ⟨_ | ⟨⟩, mid⟩
      · simp [hex] at h
      · simp only [hex] at h
        obtain ⟨hle, -, -, hwritten⟩ := extractMember_spec hex
        obtain ⟨k, -, hput, -⟩ := hwritten rfl
        obtain ⟨hle', hfile, hpi, names, hnames, hshort⟩ := ih h
        refine ⟨hle.trans hle', fun k' d hd => ?_, hpi, name :: names, ?_, ?_⟩
        · rcases hfile k' d hd with hmid | hsmall
          · by_cases hk : k' = k
            · rw [hput, hk, Function.update_self] at hmid
              obtain rfl : data = d := Option.some.inj hmid
              exact Or.inr hdata
            · rw [hput, Function.update_of_ne hk] at hmid
              exact Or.inl hmid
          · exact Or.inr hsmall
        · rw [hnames, List.map_cons, unlines_cons]
          simp
        · intro n hn
          rcases List.mem_cons.mp hn with rfl | hn
          · exact hname
          · exact hshort n hn

/-! ## Only extractable entries are extracted exactly -/

section Converse

variable {entries : List TarEntry} {tarpath tar : Bytes} {ref : FileRef Bytes} {s : State}

theorem eq_of_mem_pkginfo (hnodup : (entries.map Prod.fst).Nodup) {e : TarEntry} {info : Bytes}
    (he : e ∈ entries) (hinfo : (pkginfoName, info) ∈ entries) (hpi : e.1 = pkginfoName) :
    e = (pkginfoName, info) :=
  List.inj_on_of_nodup_map hnodup he hinfo hpi

/-- Recorded names are short and stand on one line. -/
theorem ExtractsExactly.names (href : fileRef tarpath = some ref)
    (hread : s.tree.read ref = some tar) (h : ExtractsExactly tarpath s entries) :
    ∀ e ∈ entries, e.1 ≠ pkginfoName → (utf8 e.1).length ≤ 100 ∧ '\n' ∉ e.1 := by
  obtain ⟨files, info, s', hex, -, -, hlines, -⟩ := h
  rw [(tarExtract_eq href hread).1] at hex
  obtain ⟨-, -, -, names, hnames, hshort⟩ := tarLoop_bounds hex
  rw [List.nil_append] at hnames
  intro e he hne
  have hmem : fileLine (utf8 e.1) ∈ lines nl files := by
    rw [hlines]
    apply List.mem_append_left
    apply List.mem_map.mpr
    exact ⟨_, mem_membersOf.mpr ⟨e, mem_sortEntries.mpr he, hne, rfl⟩, rfl⟩
  have hline : ∀ name, (fileLine name).length = name.length + 3 := by
    intro name
    simp [fileLine, absPath, ascii]
  constructor
  · have hlen : (fileLine (utf8 e.1)).length ≤ 103 := by
      rw [hnames] at hmem
      apply length_le_of_mem_lines_unlines nl _ hmem
      intro l hl
      obtain ⟨n, hn, rfl⟩ := List.mem_map.mp hl
      have := hshort n hn
      rw [hline]
      omega
    rw [hline] at hlen
    omega
  · intro hnl
    apply not_mem_of_mem_lines nl hmem
    rw [fileLine, absPath, List.mem_append, List.mem_cons]
    exact Or.inr (Or.inr ((mem_utf8_iff (c := '\n') (by decide)).mpr hnl))

/-- What was written and can be read had room. -/
theorem ExtractsExactly.room (hacc : Accepted entries) (href : fileRef tarpath = some ref)
    (hread : s.tree.read ref = some tar) (h : ExtractsExactly tarpath s entries) :
    ∀ e ∈ entries, e.1 ≠ pkginfoName → s.tree.Fits (arcKey e.1) := by
  obtain ⟨files, info, s', hex, -, hfiles, -, -⟩ := h
  rw [(tarExtract_eq href hread).1] at hex
  obtain ⟨hle, -, -, -⟩ := tarLoop_bounds hex
  intro e he hne
  obtain ⟨names, last, hkey, href', -⟩ := ref_of_isArc (hacc.isArc e he)
  have hsome := hfiles e he hne
  rw [readPath, href', Option.bind_some] at hsome
  rw [← hkey]
  exact FileTree.fits_of_read hle (by rw [hsome]; rfl)

/-- **The first entry behind plain ones** is plain too, and the last one if it replaces the
archive. -/
theorem ExtractsExactly.next (hacc : Accepted entries) (htar : buildTar entries = some tar)
    (href : fileRef tarpath = some ref) (hread : s.tree.read ref = some tar)
    (h : ExtractsExactly tarpath s entries) {pre post : List TarEntry} {e : TarEntry}
    (hes : sortEntries entries = pre ++ e :: post) (hplain : ∀ e' ∈ pre, PlainEntry e')
    (hno : ∀ e' ∈ pre, e'.1 ≠ pkginfoName → arcKey e'.1 ≠ ref.key) :
    PlainEntry e ∧ (e.1 ≠ pkginfoName → arcKey e.1 = ref.key → post = []) := by
  have hnames := h.names href hread
  obtain ⟨files, info, s', hex, hinfo, hfiles, hlines, -⟩ := h
  have he : e ∈ entries := by
    apply mem_sortEntries.mp
    simp [hes]
  have harc := hacc.isArc e he
  have hnodup : ((sortEntries entries).map Prod.fst).Nodup :=
    (hacc.of_perm (List.mergeSort_perm _ _).symm).nodup
  have hwhole := hex
  rw [(tarExtract_eq href hread).1] at hwhole
  obtain ⟨-, -, hinfosmall, -⟩ := tarLoop_bounds hwhole
  obtain ⟨block, rest, fuel, off, hblock, hat, hsome, hnone⟩ :=
    tarExtract_reaches hacc.isArc htar href hread hes hplain hno
  -- the run returns, so it arrives at the entry
  obtain ⟨t, hw⟩ : ∃ t, writeMembers s.tree (membersOf pre) = some t := by
    cases hw : writeMembers s.tree (membersOf pre) with
    | none =>
      have hdead := hnone hw
      simp [hex] at hdead
    | some t => exact ⟨t, rfl⟩
  obtain ⟨hnow, hrun⟩ := hsome t hw
  rw [hrun] at hex
  by_cases hpi : e.1 = pkginfoName
  · have heq := eq_of_mem_pkginfo hacc.nodup he hinfo hpi
    refine ⟨⟨?_, ?_⟩, fun hne => absurd hpi hne⟩
    · rw [hpi]
      decide
    · rw [heq]
      rcases hinfosmall info rfl with hnone | hsmall
      · simp at hnone
      · exact hsmall
  · obtain ⟨hshort, -⟩ := hnames e he hpi
    have hsmall : e.2.length + 1 < 2 ^ 32 := by
      obtain ⟨pfx, name, -, hname, -, -⟩ := addfile_spec hblock
      have hfull : name = e.1 := by
        rcases ustarName_spec harc hname with ⟨-, -, hn⟩ | ⟨hlong, -⟩
        · exact hn
        · exact absurd hshort (by omega)
      have hstep := tarStep_block harc hname hblock hat
      rw [hfull, if_neg hpi] at hstep
      have hwant := hfiles e he hpi
      rw [readPath_arc harc] at hwant
      by_cases hwrap : e.2.length % 2 ^ 32 + 1 = 2 ^ 32
      · rw [if_pos hwrap] at hstep
        simp [tarLoop, hnow, hstep, die] at hex
      · -- the member's place now holds what was read of it
        rw [if_neg hwrap] at hstep
        rw [tarLoop, hnow, hstep] at hex
        simp only at hex
        rcases hmem : extractMember { s with tree := t } (utf8 e.1)
            (e.2.take (e.2.length % 2 ^ 32)) with ⟨_ | ⟨⟩, mid⟩
        · rw [hmem] at hex
          simp at hex
        · rw [hmem] at hex
          obtain ⟨-, -, -, hwritten⟩ := extractMember_spec hmem
          obtain ⟨k, hk, hput, -⟩ := hwritten rfl
          rw [keyOf_arc harc, Option.some.injEq] at hk
          obtain ⟨-, hfile, -, -⟩ := tarLoop_bounds hex
          rcases hfile _ _ hwant with hmid | hsmall
          · rw [hput, hk, Function.update_self, Option.some.injEq] at hmid
            have hlen := congrArg List.length hmid
            rw [List.length_take] at hlen
            have := Nat.mod_lt e.2.length (show 0 < 2 ^ 32 by decide)
            omega
          · exact hsmall
    refine ⟨⟨hshort, hsmall⟩, fun _ hkey => ?_⟩
    -- the entry replaces the archive, so nothing is read behind it
    have hone : membersOf [e] = [(utf8 e.1, e.2)] := membersOf_cons hpi []
    have hput : ∃ t', writeMembers t [(utf8 e.1, e.2)] = some t' := by
      have hstep := tarStep_plain harc ⟨hshort, hsmall⟩ hblock hat
      rw [if_neg hpi] at hstep
      rw [tarLoop, hnow, hstep] at hex
      simp only [extractMember_eq] at hex
      cases hput : putPath (t.mkdirs (dirname (absPath (utf8 e.1)))) (absPath (utf8 e.1))
          fun _ => e.2 with
      | none => simp [hput, cantOpen, die] at hex
      | some t' => exact ⟨t', by simp [writeMembers, hput]⟩
    obtain ⟨t', ht'⟩ := hput
    rw [tarLoop_replaces harc ⟨hshort, hsmall⟩ hpi hkey hblock hat hnow ht'] at hex
    obtain ⟨hout, -⟩ := Prod.mk.inj hex
    obtain ⟨hout, hpkg⟩ := Prod.mk.inj (Option.some.inj hout)
    have hrec : files = unlines nl (arcLines (pre ++ [e])) := by
      rw [← hout, arcLines, arcLines, membersOf_append, hone, List.map_append, unlines_append,
        List.map_singleton, unlines_cons, unlines_nil]
    have honeLine : ∀ e' ∈ pre ++ [e], e'.1 ≠ pkginfoName → '\n' ∉ e'.1 := by
      intro e' he' hne'
      refine (hnames e' (mem_sortEntries.mp ?_) hne').2
      rw [hes, ← List.singleton_append, ← List.append_assoc]
      exact List.mem_append_left _ he'
    have hes' : sortEntries entries = (pre ++ [e]) ++ post := by
      rw [hes, List.append_assoc, List.singleton_append]
    rw [hrec, lines_unlines nl (nl_not_mem_arcLines honeLine), hes', List.append_cancel_right_eq]
      at hlines
    have hpost : membersOf post = [] := by
      rw [arcLines, arcLines, membersOf_append _ post, List.map_append] at hlines
      simpa using hlines
    -- the `.PKGINFO` was read before it
    by_contra hcons
    obtain ⟨e', post', rfl⟩ := List.exists_cons_of_ne_nil hcons
    have hpi' : e'.1 = pkginfoName := by
      by_contra hne'
      rw [membersOf_cons hne'] at hpost
      simp at hpost
    obtain ⟨e'', he'', hpi''⟩ : ∃ e'' ∈ pre, e''.1 = pkginfoName := by
      by_contra hall
      push Not at hall
      rw [infoOf_of_forall_ne hall] at hpkg
      simp at hpkg
    rw [hes, List.map_append, List.nodup_append] at hnodup
    exact hnodup.2.2 _ (List.mem_map_of_mem he'') _ (by simp) (hpi''.trans hpi'.symm)

/-- From the front to the end. -/
theorem ExtractsExactly.plain (hacc : Accepted entries) (htar : buildTar entries = some tar)
    (href : fileRef tarpath = some ref) (hread : s.tree.read ref = some tar)
    (h : ExtractsExactly tarpath s entries) {pre post : List TarEntry}
    (hes : sortEntries entries = pre ++ post) (hplain : ∀ e ∈ pre, PlainEntry e)
    (hno : ∀ e ∈ pre, e.1 ≠ pkginfoName → arcKey e.1 ≠ ref.key) :
    (∀ e ∈ post, PlainEntry e) ∧ ArchiveLast ref post := by
  induction post generalizing pre with
  | nil => exact ⟨by simp, fun pre e post heq => by simp at heq⟩
  | cons e post ih =>
    obtain ⟨hfirst, hlast⟩ := h.next hacc htar href hread hes hplain hno
    -- an entry that is the archive ends the reading, so it must be the last one
    by_cases hat : e.1 ≠ pkginfoName ∧ arcKey e.1 = ref.key
    · obtain rfl := hlast hat.1 hat.2
      refine ⟨List.forall_mem_singleton.mpr hfirst, fun pre' e' post' heq _ _ => ?_⟩
      have hlen := congrArg List.length heq
      rw [List.length_append, List.length_cons, List.length_cons, List.length_nil] at hlen
      exact List.eq_nil_of_length_eq_zero (by omega)
    · have hgo := @ih (pre ++ [e]) (by rw [hes, List.append_assoc, List.singleton_append])
        (List.forall_mem_append.mpr ⟨hplain, List.forall_mem_singleton.mpr hfirst⟩)
        (by
          intro e' he' hne' hkey'
          rcases List.mem_append.mp he' with he' | he'
          · exact hno e' he' hne' hkey'
          · obtain rfl := List.mem_singleton.mp he'
            exact hat ⟨hne', hkey'⟩)
      refine ⟨List.forall_mem_cons.mpr ⟨hfirst, hgo.1⟩, fun pre' e' post' heq hne' hkey' => ?_⟩
      cases pre' with
      | nil =>
        obtain ⟨rfl, rfl⟩ := List.cons.inj heq
        exact absurd ⟨hne', hkey'⟩ hat
      | cons x pre' => exact hgo.2 pre' e' post' (List.cons.inj heq).2 hne' hkey'

/-- **The round trip** of a stage succeeds exactly when its entries are extractable. -/
theorem extractsExactly_iff {a : PkgArgs} {d : Dir} (hd : d.WF)
    (hstage : (stageEntries a d).1 = .ok entries) (htar : buildTar entries = some tar)
    (hnul : ∀ info, (pkginfoName, info) ∈ entries → 0 ∉ info)
    (href : fileRef tarpath = some ref) (hread : s.tree.read ref = some tar) :
    ExtractsExactly tarpath s entries ↔ Extractable s.tree ref entries := by
  have hacc := accepted_of_stageEntries hd hstage
  constructor
  · intro h
    have hall : sortEntries entries = [] ++ sortEntries entries := rfl
    obtain ⟨hplain, hlast⟩ := h.plain hacc htar href hread hall (by simp) (by simp)
    exact {
      plain := fun e he => hplain e (mem_sortEntries.mpr he)
      oneLine := fun e he hne => (h.names href hread e he hne).2
      room := h.room hacc href hread
      last := hlast }
  · exact extractsExactly_of_extractable hacc htar hnul href hread

end Converse

/-- A tree that holds an archive in its root and nothing else. -/
def archiveTree (name : Text) (tar : Bytes) : FileTree Bytes Bytes where
  node k := if k = [utf8 name] then some (.file tar) else none
  rooted := by
    intro k c h
    by_cases hk : k ++ [c] = [utf8 name]
    · exact Or.inl (List.append_inj' (hk.trans (List.nil_append _).symm) rfl).1
    · simp [hk] at h

def archiveState (name : Text) (tar : Bytes) : State := ⟨archiveTree name tar, 0, []⟩

theorem file_archiveTree (name : Text) (tar : Bytes) (k : List Bytes) :
    (archiveTree name tar).file k = if k = [utf8 name] then some tar else none := by
  rw [FileTree.file, fileAt, archiveTree]
  by_cases hk : k = [utf8 name]
  · simp [hk]
  · simp [hk]

/-- There is room for all that does not start with the archive's name. -/
theorem fits_archiveTree {name : Text} {k : List Bytes} (hk : k.head? ≠ some (utf8 name))
    (tar : Bytes) : (archiveTree name tar).Fits k := by
  constructor
  · intro p hp hne _
    obtain ⟨c, p, rfl⟩ := List.exists_cons_of_ne_nil hne
    obtain ⟨rest, rfl⟩ := hp
    rw [file_archiveTree, if_neg]
    intro heq
    exact hk (by rw [List.cons_append, List.head?_cons, (List.cons.inj heq).1])
  · intro hdir
    simp only [archiveTree] at hdir
    split_ifs at hdir
    simp at hdir

theorem fileRef_archive {name : Text} (hname : FileName name) :
    fileRef (absPath (utf8 name)) = some (plainRef [] (utf8 name)) := by
  have harc : IsArc name := ⟨[name], by simp, by simpa using hname, (joinSlash_singleton name).symm⟩
  obtain ⟨names, last, hkey, href, -⟩ := ref_of_isArc harc
  have hone : arcKey name = [utf8 name] := by
    have hsplit : (joinSlash [name]).splitOn '/' = [name] :=
      splitOn_joinSlash (by simp) (by simpa using hname)
    rw [joinSlash_singleton] at hsplit
    rw [arcKey, hsplit, List.map_singleton]
  obtain ⟨rfl, hlast⟩ := List.append_inj' (hkey.trans (hone.trans (List.nil_append _).symm)) rfl
  rw [href, List.singleton_inj.mp hlast]

theorem read_archiveTree (name : Text) (tar : Bytes) :
    (archiveTree name tar).read (plainRef [] (utf8 name)) = some tar := by
  rw [FileTree.read_eq_file _ (up_not_mem_plainRef _ _), key_plainRef, file_archiveTree,
    List.nil_append, if_pos rfl]

/-- The archive's name in the runs below. -/
def archiveName : Text := "t".toList

def archivePath : Bytes := absPath (utf8 archiveName)

def archiveRef : FileRef Bytes := plainRef [] (utf8 archiveName)

/-- The entries of `less`: its program and the synthesised `.PKGINFO`. -/
def lessEntries : List TarEntry :=
  [("bin/less".toList, [1, 2, 3]), (pkginfoName, utf8 (synthesizedInfo (lessArgs "1".toList) 3))]

theorem buildTar_lessEntries : ∃ tar, buildTar lessEntries = some tar := by
  apply buildTar_isSome
  intro e he
  rcases List.mem_pair.mp he with rfl | rfl
  · decide
  · decide +kernel

theorem extractable_lessEntries (tar : Bytes) :
    Extractable (archiveTree archiveName tar) archiveRef lessEntries where
  plain := by decide +kernel
  oneLine := by decide +kernel
  room := by
    intro e he hne
    rcases List.mem_pair.mp he with rfl | rfl
    · apply fits_archiveTree
      decide
    · exact absurd rfl hne
  last := by
    intro pre e post hes hne hkey
    have he : e ∈ lessEntries := by
      apply mem_sortEntries.mp
      simp [hes]
    rcases List.mem_pair.mp he with rfl | rfl
    · exact absurd hkey (by decide)
    · exact absurd rfl hne

/-- The round trip of `less`. -/
theorem extractsExactly_less : ∃ tar, buildTar lessEntries = some tar ∧
    (ExtractsExactly archivePath (archiveState archiveName tar) lessEntries ↔
      Extractable (archiveTree archiveName tar) archiveRef lessEntries) ∧
    ExtractsExactly archivePath (archiveState archiveName tar) lessEntries := by
  obtain ⟨tar, htar⟩ := buildTar_lessEntries
  have hstage : (stageEntries (lessArgs "1".toList) lessStage.root).1 = .ok lessEntries := by
    rw [stageEntries_lessStage]
    rfl
  have hiff := extractsExactly_iff (s := archiveState archiveName tar) lessStage.wf hstage htar
    (by
      intro info hinfo
      rcases List.mem_pair.mp hinfo with h | h
      · exact absurd (Prod.mk.inj h).1 (by decide)
      · rw [(Prod.mk.inj h).2, zero_mem_utf8_iff]
        decide +kernel)
    (show fileRef archivePath = some archiveRef by decide) (read_archiveTree archiveName tar)
  exact ⟨tar, htar, hiff, hiff.mpr (extractable_lessEntries tar)⟩

/-- A directory name that leaves no room for anything behind it in a name field. -/
def longName : Text := List.replicate 100 'd'

/-- The path of a file in a directory `home` below a long name. -/
def longArc : Text := longName ++ "/home/f".toList

def longInfo : Bytes := ascii "pkgname = f"

/-- A stage with one file, at a path of 107 bytes. -/
def longStage : Stage where
  root := .mk [(pkginfoName, longInfo)]
    (.cons longName (.mk [] (.cons "home".toList (.mk [("f".toList, [7])] .nil) .nil)) .nil)
  wf := by
    refine ⟨by decide, ?_, by decide, ⟨by decide, by simp, by decide, ⟨by decide, ?_, trivial⟩,
      trivial⟩, trivial⟩
    · exact List.forall_mem_singleton.mpr (by decide)
    · exact List.forall_mem_singleton.mpr (by decide)

def longEntries : List TarEntry := [(pkginfoName, longInfo), (longArc, [7])]

theorem stageEntries_longStage (a : PkgArgs) :
    (stageEntries a longStage.root).1 = .ok longEntries := by
  have hlong : longName ≠ [] := by decide
  have hhome : longName ++ '/' :: "home".toList ≠ [] := by simp
  have hwalk : longStage.root.walk [] = longEntries := by
    simp [longStage, Dir.walk, Dirs.walks, joinPath, hlong, longEntries, longArc]
  rw [stageEntries, hwalk, show (longEntries.find? fun e => underHome e.1) = none by decide]
  dsimp only
  rw [if_pos (by decide)]

theorem buildTar_longEntries : ∃ tar, buildTar longEntries = some tar := by
  apply buildTar_isSome
  intro e he
  rcases List.mem_pair.mp he with rfl | rfl
  · decide +kernel
  · decide +kernel

/-- The file under the long name is not extracted to its path. -/
theorem longStage_not_extracted :
    ∃ a entries tar, (stageEntries a longStage.root).1 = .ok entries ∧
      buildTar entries = some tar ∧ (∀ info, (pkginfoName, info) ∈ entries → 0 ∉ info) ∧
      fileRef archivePath = some archiveRef ∧
      (archiveState archiveName tar).tree.read archiveRef = some tar ∧
      ¬ ExtractsExactly archivePath (archiveState archiveName tar) entries := by
  obtain ⟨tar, htar⟩ := buildTar_longEntries
  refine ⟨lessArgs [], longEntries, tar, stageEntries_longStage _, htar, ?_, by decide, read_archiveTree archiveName tar, ?_⟩
  · intro info hinfo
    rcases List.mem_pair.mp hinfo with h | h
    · rw [(Prod.mk.inj h).2]
      decide
    · exact absurd (Prod.mk.inj h).1 (by decide)
  · intro hex
    have hshort := hex.names (by decide) (read_archiveTree archiveName tar) (longArc, [7]) (by simp [longEntries])
      (by decide)
    exact absurd hshort.1 (by decide +kernel)

end OsMoap.Apk
