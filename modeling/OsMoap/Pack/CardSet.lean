import OsMoap.Lib.Glob
import OsMoap.Lib.Program
import OsMoap.Pack.CardsDecode

/-!
# Replacing a Card Set

What `tools/pack_pkg.py` and `tools/pack_rom.py` do to the output directory, with the checks,
the removals and the writes in their order.

The stale cards are found by a pattern of exactly three digits, and a card number has at least
three.  The manifest lists a hash for every chunk, so its ceiling bounds the chunks and with them
the cards: there are never 1000 (`length_dataCards_lt`), the pattern finds every card of earlier
packs, and after a pack the directory holds the new set and nothing else of the stem
(`card_set_replaced`).
-/

namespace OsMoap.Pack

open OsMoap.Lib

/-- `fnmatch.fnmatch`, the pattern first. -/
def fnmatch (pat name : Text) : Bool := globMatch (globItems 0 pat) name

/-- The pattern of the stale cards. -/
def stalePattern (stem : Text) : Text := stem ++ "[0-9][0-9][0-9].txt".toList

/-! ## The packers over a directory -/

section Packers

variable (compress : Bytes → Bytes) (sha256 : Bytes → Text)

/-- Remove the stale cards, then write the manifest card and the data cards. -/
def replaceCards (g : Geometry) (stem mjson : Text) (cards : List (List Text)) :
    Program CardDir Text PUnit := do
  Program.modify fun d f => if fnmatch (stalePattern stem) f then none else d f
  Program.modify fun d => d.write (cardName stem 0) (joinLines (wrap mjson g.lc))
  (cards.zipIdx 1).forM fun c =>
    Program.modify fun d => d.write (cardName stem c.2) (joinLines c.1)

/-- What `pack_pkg.pack` is given besides the name. -/
structure PkgInput where
  ver : Text
  desc : Text
  deps : List Text
  raw : Bytes

/-- `pack_pkg.pack` from the tar bytes of `build_gz` on. -/
def packPkgCards (name : Text) (p : PkgInput) : Program CardDir Text PkgManifest := do
  let gz := compress p.raw
  let lines := wrap (b64encode gz) geometry.lc
  let m : PkgManifest :=
    { cardManifest sha256 geometry p.raw gz with
      name := name, ver := p.ver, desc := p.desc, deps := p.deps }
  let mjson := dumps m.toJson
  if mjson.length > manifestMax then
    Program.stop ("pack_pkg: manifest ".toList ++ decimal mjson.length ++ "B > ".toList ++
      decimal manifestMax ++ "B (package too large -- ".toList ++ decimal m.nk ++
      " chunks)".toList)
  else
    replaceCards geometry (pkgStem name) mjson (cardsOf geometry lines)
    return m

/-- What `pack_rom.pack` reads: the files of the bundle and the applet names of the build. -/
structure RomInput where
  content : Text → Bytes
  applets : List Text

/-- `pack_rom.pack`: the checks of the chunk, of the largest card and of the manifest come before
the directory is touched. -/
def packRomCards (p : RomInput) : Program CardDir Text RomManifest :=
  match romTar p.content p.applets with
  | none => Program.stop "ValueError".toList
  | some raw =>
    let gz := compress raw
    if geometry.lc * geometry.lpk > httpChunkMax then
      Program.stop ("pack_rom: chunk ".toList ++ decimal (geometry.lc * geometry.lpk) ++
        " chars exceeds measured HTTP ceiling ".toList ++ decimal httpChunkMax)
    else
      let cards := cardsOf geometry (wrap (b64encode gz) geometry.lc)
      match (cards.map cardBytes).max? with
      | none => Program.stop "ValueError: max() arg is an empty sequence".toList
      | some largest =>
        if largest > cardMaxBytes then
          Program.stop ("pack_rom: card would be ".toList ++ decimal largest ++
            "B > measured ceiling ".toList ++ decimal cardMaxBytes)
        else do
          let m : RomManifest :=
            { cardManifest sha256 geometry raw gz with f := romFileList p.content }
          let mjson := dumps m.toJson
          if cardBytes (wrap mjson geometry.lc) > cardMaxBytes then
            Program.stop
              "pack_rom: manifest exceeds one card — shard it (not expected at v1 sizes)".toList
          else
            replaceCards geometry romStem mjson cards
            return m

theorem replaceCards_run (g : Geometry) (stem mjson : Text) (cards : List (List Text))
    (d : CardDir) :
    replaceCards g stem mjson cards d = (.ok ⟨⟩, writeCards fnmatch g stem mjson cards d) := by
  rw [replaceCards, Program.modify_bind, Program.modify_bind, Program.forM_modify]
  rfl

/-- How a program over the directory ends, told by what it computes: a refusal leaves the
directory as it was. -/
def ended {α : Type} (r : Except Text (α × CardDir)) (d : CardDir) : Except Text α × CardDir :=
  match r with
  | .ok (m, d') => (.ok m, d')
  | .error e => (.error e, d)

theorem ended_error {α : Type} {r : Except Text (α × CardDir)} {d d' : CardDir} {e : Text}
    (h : ended r d = (.error e, d')) : d' = d := by
  rcases r with e' | ⟨m, d''⟩
  · exact (Prod.mk.inj h).2.symm
  · cases h

theorem packPkgCards_run (name : Text) (p : PkgInput) (d : CardDir) :
    packPkgCards compress sha256 name p d
      = ended (packPkg compress sha256 fnmatch name p.ver p.desc p.deps p.raw d) d := by
  simp only [packPkgCards, packPkg]
  split_ifs with hlen
  · rfl
  · rw [Program.bind_ok (replaceCards_run _ _ _ _ d)]
    rfl

theorem packRomCards_run (p : RomInput) (d : CardDir) :
    packRomCards compress sha256 p d
      = ended (packRom compress sha256 fnmatch p.content p.applets d) d := by
  simp only [packRomCards, packRom]
  cases romTar p.content p.applets with
  | none => rfl
  | some raw =>
    have hchunk : ¬ geometry.lc * geometry.lpk > httpChunkMax := by decide
    simp only [if_neg hchunk]
    cases ((cardsOf geometry (wrap (b64encode (compress raw)) geometry.lc)).map cardBytes).max? with
    | none => rfl
    | some largest =>
      simp only
      split_ifs with hcard hman
      · rfl
      · rfl
      · rw [Program.bind_ok (replaceCards_run _ _ _ _ d)]
        rfl

end Packers

/-! ## The size of a manifest -/

theorem length_escapeChar_pos (c : Char) : 0 < (escapeChar c).length := by
  fun_cases escapeChar c
  all_goals exact Nat.succ_pos _

theorem length_quote (t : Text) : t.length + 2 ≤ (quote t).length := by
  have hescaped : t.length ≤ (t.flatMap escapeChar).length := by
    induction t with
    | nil => exact Nat.le_refl 0
    | cons c t ih =>
      have hc := length_escapeChar_pos c
      rw [List.flatMap_cons, List.length_append, List.length_cons]
      omega
  simp only [quote, List.length_cons, List.length_append, List.length_nil]
  omega

/-- A list of strings: each takes its quotes and a comma or a bracket. -/
theorem length_dumps_arr {L : ℕ} {ts : List Text} (h : ∀ t ∈ ts, L ≤ t.length) :
    ts.length * (L + 3) ≤ (dumps (.arr (ts.map .str))).length := by
  have hitems : ts.length * (L + 3) ≤ (dumpsItems (ts.map .str)).length + 1 := by
    induction ts with
    | nil => simp
    | cons t ts ih =>
      have ht := length_quote t
      have hL := h t List.mem_cons_self
      cases ts with
      | nil =>
        simp only [List.map_cons, List.map_nil, dumpsItems, dumps, List.length_singleton]
        omega
      | cons t' ts =>
        have hrest := ih fun u hu => h u (List.mem_cons_of_mem _ hu)
        simp only [List.map_cons, dumpsItems, dumps, List.length_append, List.length_cons]
          at hrest ⊢
        have hmul : (ts.length + 1 + 1) * (L + 3) = (ts.length + 1) * (L + 3) + (L + 3) := by ring
        omega
  simp only [dumps, List.length_cons, List.length_append, List.length_nil]
  omega

/-- A value is written whole. -/
theorem length_dumps_le_fields {k : Text} {v : Json} {kvs : List (Text × Json)}
    (h : (k, v) ∈ kvs) : (dumps v).length ≤ (dumpsFields kvs).length := by
  induction kvs with
  | nil => exact absurd h List.not_mem_nil
  | cons kv kvs ih =>
    obtain ⟨l, w⟩ := kv
    cases kvs with
    | nil =>
      obtain ⟨-, rfl⟩ := Prod.mk.inj (List.mem_singleton.mp h)
      simp only [dumpsFields, List.length_append, List.length_cons]
      omega
    | cons kv' kvs =>
      simp only [dumpsFields, List.length_append, List.length_cons]
      rcases List.mem_cons.mp h with heq | hmem
      · obtain ⟨-, rfl⟩ := Prod.mk.inj heq
        omega
      · have hrest := ih hmem
        omega

theorem length_dumps_le_obj {k : Text} {v : Json} {kvs : List (Text × Json)}
    (h : (k, v) ∈ kvs) : (dumps v).length ≤ (dumps (.obj kvs)).length := by
  have hfields := length_dumps_le_fields h
  simp only [dumps, List.length_cons, List.length_append, List.length_nil]
  omega

/-- The hashes of the chunks alone take 19 characters each: 16 digits, quotes and a comma. -/
theorem chunks_of_length_manifest {sha256 : Bytes → Text} (hsha : ∀ b, (sha256 b).length = 64)
    (g : Geometry) (raw gz : Bytes) {kvs : List (Text × Json)}
    (h : ("ks".toList, Json.arr ((cardManifest sha256 g raw gz).ks.map .str)) ∈ kvs) :
    (wrap (b64encode gz) (g.lc * g.lpk)).length * 19 ≤ (dumps (.obj kvs)).length := by
  have hks : ∀ k ∈ (cardManifest sha256 g raw gz).ks, 16 ≤ k.length := by
    intro k hk
    obtain ⟨chunk, -, rfl⟩ := List.mem_map.mp hk
    simp [chunkSha, hsha]
  have hlen : (cardManifest sha256 g raw gz).ks.length
      = (wrap (b64encode gz) (g.lc * g.lpk)).length := List.length_map _
  calc (wrap (b64encode gz) (g.lc * g.lpk)).length * 19
      = (cardManifest sha256 g raw gz).ks.length * (16 + 3) := by rw [hlen]
    _ ≤ (dumps (.arr ((cardManifest sha256 g raw gz).ks.map .str))).length := length_dumps_arr hks
    _ ≤ (dumps (.obj kvs)).length := length_dumps_le_obj h

/-- Every card but the last holds `kpc` chunks. -/
theorem length_dataCards_le (g : Geometry) (gz : Bytes) :
    (dataCards g gz).length * g.kpc
      < (wrap (b64encode gz) (g.lc * g.lpk)).length + g.kpc := by
  rcases Nat.eq_zero_or_pos (dataCards g gz).length with hzero | hpos
  · have hk := g.kpc_pos
    rw [hzero]
    omega
  · obtain ⟨k, hk⟩ : ∃ k, (dataCards g gz).length = k + 1 := ⟨_, (Nat.succ_pred_eq_of_pos hpos).symm⟩
    have hlast : k < (dataCards g gz).length := by omega
    rw [dataCards, cardsOf, lt_length_slices (Nat.mul_pos g.lpk_pos g.kpc_pos), wrap,
      lt_length_slices g.lc_pos] at hlast
    have hchunk : k * g.kpc < (wrap (b64encode gz) (g.lc * g.lpk)).length := by
      rw [wrap, lt_length_slices (Nat.mul_pos g.lc_pos g.lpk_pos)]
      calc k * g.kpc * (g.lc * g.lpk) = k * (g.lpk * g.kpc) * g.lc := by ring
        _ < (b64encode gz).length := hlast
    rw [hk, Nat.add_mul, Nat.one_mul]
    omega

/-- **Fewer than a thousand cards** behind a manifest that fits a card. -/
theorem length_dataCards_lt {sha256 : Bytes → Text} (hsha : ∀ b, (sha256 b).length = 64)
    (raw gz : Bytes) {kvs : List (Text × Json)}
    (h : ("ks".toList, Json.arr ((cardManifest sha256 geometry raw gz).ks.map .str)) ∈ kvs)
    (hlen : (dumps (.obj kvs)).length ≤ cardMaxBytes) : (dataCards geometry gz).length < 1000 := by
  have hhashes := chunks_of_length_manifest hsha geometry raw gz h
  have hcards := length_dataCards_le geometry gz
  have hkpc : geometry.kpc = 7 := rfl
  have hmax : cardMaxBytes = 60000 := rfl
  rw [hkpc] at hcards
  omega

/-! ## The names of cards -/

/-- A name `<stem>NNN.txt`, of three digits or more. -/
def IsCardName (stem f : Text) : Prop :=
  ∃ ds : Text, 3 ≤ ds.length ∧ (∀ c ∈ ds, c.isDigit = true) ∧ f = stem ++ (ds ++ ".txt".toList)

theorem decimal03_of_lt {n : ℕ} (h : n < 1000) :
    decimal03 n = [Nat.digitChar (n / 100), Nat.digitChar (n / 10 % 10), Nat.digitChar (n % 10)] := by
  by_cases h10 : n < 10
  · rw [decimal03, decimal_of_lt_ten h10, show n / 100 = 0 by omega, show n / 10 % 10 = 0 by omega,
      Nat.mod_eq_of_lt h10]
    rfl
  by_cases h100 : n < 100
  · rw [decimal03, decimal_of_ten_le (by omega), decimal_of_lt_ten (by omega),
      show n / 100 = 0 by omega, Nat.mod_eq_of_lt (by omega : n / 10 < 10)]
    rfl
  · rw [decimal03, decimal_of_ten_le (by omega), decimal_of_ten_le (by omega),
      decimal_of_lt_ten (by omega), Nat.div_div_eq_div_mul]
    rfl

theorem exists_digitChar {c : Char} (h : c.isDigit = true) : ∃ d < 10, c = Nat.digitChar d := by
  have hall : ∀ d < 10, Char.ofNat (48 + d) = Nat.digitChar d := by decide
  simp only [Char.isDigit, Bool.and_eq_true, decide_eq_true_eq, UInt32.le_iff_toNat_le] at h
  have hzero : '0'.val.toNat = 48 := rfl
  have hnine : '9'.val.toNat = 57 := rfl
  have hval : c.val.toNat = c.toNat := rfl
  refine ⟨c.toNat - 48, by omega, ?_⟩
  rw [← hall (c.toNat - 48) (by omega), show 48 + (c.toNat - 48) = c.toNat by omega,
    Char.ofNat_toNat]

/-- Three digits are the number of a card. -/
theorem exists_decimal03 {a b c : Char} (ha : a.isDigit = true) (hb : b.isDigit = true)
    (hc : c.isDigit = true) : ∃ n < 1000, [a, b, c] = decimal03 n := by
  obtain ⟨x, hx, rfl⟩ := exists_digitChar ha
  obtain ⟨y, hy, rfl⟩ := exists_digitChar hb
  obtain ⟨z, hz, rfl⟩ := exists_digitChar hc
  refine ⟨x * 100 + y * 10 + z, by omega, ?_⟩
  rw [decimal03_of_lt (by omega), show (x * 100 + y * 10 + z) / 100 = x by omega,
    show (x * 100 + y * 10 + z) / 10 % 10 = y by omega,
    show (x * 100 + y * 10 + z) % 10 = z by omega]

theorem isDigit_of_mem_decimal03 {n : ℕ} {c : Char} (h : c ∈ decimal03 n) : c.isDigit = true := by
  rcases List.mem_append.mp h with hpad | hdigit
  · rw [List.eq_of_mem_replicate hpad]
    rfl
  · exact Nat.isDigit_of_mem_toDigits (by decide) (by decide) hdigit

theorem three_le_length_decimal03 (n : ℕ) : 3 ≤ (decimal03 n).length := by
  rw [decimal03, List.length_append, List.length_replicate]
  omega

theorem isCardName_cardName (stem : Text) (n : ℕ) : IsCardName stem (cardName stem n) :=
  ⟨decimal03 n, three_le_length_decimal03 n, fun _ => isDigit_of_mem_decimal03, rfl⟩

theorem inSet_digits (c : Char) : inSet "0-9".toList c = c.isDigit := by
  simp [inSet, Char.isDigit, Char.le_def]

/-- **The pattern finds the cards below 1000** and nothing else. -/
theorem fnmatch_stalePattern {stem : Text} (hstem : ∀ c ∈ stem, isMagic c = false) (f : Text) :
    fnmatch (stalePattern stem) f = true ↔ ∃ n < 1000, f = cardName stem n := by
  have hitems : globItems 0 "[0-9][0-9][0-9].txt".toList
      = .oneOf false "0-9".toList :: .oneOf false "0-9".toList :: .oneOf false "0-9".toList ::
        (".txt".toList.map .lit ++ []) := by decide
  rw [fnmatch, stalePattern, globItems_append hstem, globMatch_lit_append, hitems]
  simp only [globMatch_oneOf, globMatch_lit_append, inSet_digits]
  constructor
  · rintro ⟨r, rfl, a, r₁, rfl, ha, b, r₂, rfl, hb, c, r₃, rfl, hc, r₄, rfl, hend⟩
    obtain ⟨n, hn, hdigits⟩ := exists_decimal03 ha hb hc
    obtain rfl : r₄ = [] := by simpa [globMatch] using hend
    refine ⟨n, hn, ?_⟩
    rw [cardName, ← hdigits, List.append_nil]
    rfl
  · rintro ⟨n, hn, rfl⟩
    have hdigits := decimal03_of_lt hn
    have hmem : ∀ d < 10, (Nat.digitChar d).isDigit = true := by decide
    refine ⟨_, rfl, Nat.digitChar (n / 100), _, by rw [hdigits]; rfl, hmem _ (by omega),
      Nat.digitChar (n / 10 % 10), _, rfl, hmem _ (by omega),
      Nat.digitChar (n % 10), _, rfl, hmem _ (by omega), [], by simp, rfl⟩

/-! ## What a pack leaves -/

/-- The directory holds this card set, and no other card of the stem. -/
structure HoldsCards (stem mjson : Text) (cards : List (List Text)) (d : CardDir) : Prop where
  names : ∀ f, IsCardName stem f → ((d f).isSome ↔ ∃ ci ≤ cards.length, f = cardName stem ci)
  manifest : d (cardName stem 0) = some (joinLines (wrap mjson geometry.lc))
  data : ∀ (i : ℕ) (hi : i < cards.length), d (cardName stem (1 + i)) = some (joinLines cards[i])

/-- The cards that are there have three digits: the pattern finds them all. -/
def Findable (stem : Text) (d : CardDir) : Prop :=
  ∀ f, IsCardName stem f → (d f).isSome → fnmatch (stalePattern stem) f = true

theorem findable_of_none {stem : Text} {d : CardDir} (h : ∀ f, IsCardName stem f → d f = none) :
    Findable stem d := by
  intro f hf hsome
  rw [h f hf] at hsome
  exact absurd hsome (by simp)

/-- Writing numbered cards adds their names. -/
theorem isSome_foldl_write (stem : Text) (cards : List (List Text)) (k : ℕ) (d : CardDir)
    (f : Text) :
    (((cards.zipIdx k).foldl (fun d c => d.write (cardName stem c.2) (joinLines c.1)) d) f).isSome ↔
      (∃ ci, k ≤ ci ∧ ci < k + cards.length ∧ f = cardName stem ci) ∨ (d f).isSome := by
  induction cards generalizing k d with
  | nil =>
    simp only [List.zipIdx_nil, List.foldl_nil, List.length_nil, Nat.add_zero]
    constructor
    · exact Or.inr
    · rintro (⟨ci, hle, hlt, -⟩ | hd)
      · omega
      · exact hd
  | cons c cs ih =>
    rw [List.zipIdx_cons, List.foldl_cons, ih, CardDir.write, List.length_cons]
    constructor
    · rintro (⟨ci, hle, hlt, hf⟩ | hd)
      · exact Or.inl ⟨ci, by omega, by omega, hf⟩
      · by_cases hname : f = cardName stem k
        · exact Or.inl ⟨k, le_rfl, by omega, hname⟩
        · rw [Function.update_of_ne hname] at hd
          exact Or.inr hd
    · rintro (⟨ci, hle, hlt, rfl⟩ | hd)
      · rcases Nat.eq_or_lt_of_le hle with rfl | hgt
        · exact Or.inr (by rw [Function.update_self]; rfl)
        · exact Or.inl ⟨ci, hgt, by omega, rfl⟩
      · by_cases hname : f = cardName stem k
        · exact Or.inr (by rw [hname, Function.update_self]; rfl)
        · exact Or.inr (by rwa [Function.update_of_ne hname])

/-- **Replacing a findable set**: the new one is whole, alone and findable. -/
theorem holdsCards_writeCards {stem : Text} (hstem : ∀ c ∈ stem, isMagic c = false) (mjson : Text)
    {cards : List (List Text)} (hcards : cards.length < 1000) {d : CardDir} (hd : Findable stem d) :
    HoldsCards stem mjson cards (writeCards fnmatch geometry stem mjson cards d) ∧
      Findable stem (writeCards fnmatch geometry stem mjson cards d) := by
  have hnames : ∀ f, IsCardName stem f →
      ((writeCards fnmatch geometry stem mjson cards d f).isSome ↔
        ∃ ci ≤ cards.length, f = cardName stem ci) := by
    intro f hf
    rw [writeCards, isSome_foldl_write, CardDir.write]
    constructor
    · rintro (⟨ci, -, hlt, hname⟩ | hold)
      · exact ⟨ci, by omega, hname⟩
      · by_cases hname : f = cardName stem 0
        · exact ⟨0, Nat.zero_le _, hname⟩
        · rw [Function.update_of_ne hname] at hold
          -- whatever was there is found by the pattern
          split_ifs at hold with hmatch
          · simp at hold
          · exact absurd (hd f hf hold) hmatch
    · rintro ⟨ci, hle, rfl⟩
      rcases Nat.eq_zero_or_pos ci with rfl | hpos
      · exact Or.inr (by rw [Function.update_self]; rfl)
      · exact Or.inl ⟨ci, hpos, by omega, rfl⟩
  refine ⟨⟨hnames, writeCards_manifest fnmatch geometry stem mjson cards d,
    writeCards_card fnmatch geometry stem mjson cards d⟩, ?_⟩
  intro f hf hsome
  obtain ⟨ci, hle, hname⟩ := (hnames f hf).mp hsome
  exact (fnmatch_stalePattern hstem f).mpr ⟨ci, by omega, hname⟩

/-! ## Packing again and again -/

/-- The directory after packs one after the other, those that refuse included. -/
def afterPacks {α β : Type} (pack : α → Program CardDir Text β) (earlier : List α) (d : CardDir) :
    CardDir :=
  earlier.foldl (fun d p => (pack p d).2) d

/-- Packs keep the cards findable, whether they accept or refuse. -/
theorem findable_afterPacks {α β : Type} {stem : Text} {pack : α → Program CardDir Text β}
    (hok : ∀ p d m d', Findable stem d → pack p d = (.ok m, d') → Findable stem d')
    (herror : ∀ p d e d', pack p d = (.error e, d') → d' = d) (earlier : List α) {d : CardDir}
    (hd : Findable stem d) : Findable stem (afterPacks pack earlier d) := by
  induction earlier generalizing d with
  | nil => exact hd
  | cons p earlier ih =>
    apply ih
    change Findable stem (pack p d).2
    rcases hp : pack p d with ⟨e | m, d'⟩
    · rw [herror p d e d' hp]
      exact hd
    · exact hok p d m d' hd hp

section Packs

variable (compress : Bytes → Bytes) {sha256 : Bytes → Text}
  (hsha : ∀ b, (sha256 b).length = 64)

include hsha

/-- One pack of a package. -/
theorem packPkgCards_ok {name : Text} (hname : ∀ c ∈ name, isMagic c = false) {p : PkgInput}
    {d d' : CardDir} {m : PkgManifest} (hd : Findable (pkgStem name) d)
    (h : packPkgCards compress sha256 name p d = (.ok m, d')) :
    (dumps m.toJson).length ≤ manifestMax ∧
      m.nc = (dataCards geometry (compress p.raw)).length ∧ m.nc < 1000 ∧
      HoldsCards (pkgStem name) (dumps m.toJson) (dataCards geometry (compress p.raw)) d' ∧
      Findable (pkgStem name) d' := by
  rw [packPkgCards_run] at h
  cases hpack : packPkg compress sha256 fnmatch name p.ver p.desc p.deps p.raw d with
  | error e =>
    rw [hpack] at h
    cases h
  | ok r =>
    obtain ⟨m', d''⟩ := r
    rw [hpack] at h
    cases h
    obtain ⟨hm, hlen, rfl⟩ := packPkg_eq_ok hpack
    have hmax : (dumps m.toJson).length ≤ cardMaxBytes := hlen.trans (by decide)
    have hcount : m.nc = (dataCards geometry (compress p.raw)).length := by
      rw [hm]
      rfl
    -- the manifest names every data card, and it fits on its own card
    have hlt : (dataCards geometry (compress p.raw)).length < 1000 := by
      apply length_dataCards_lt hsha p.raw (compress p.raw) _ hmax
      rw [hm]
      simp [CardManifest.geometryFields]
    have hstem : ∀ c ∈ pkgStem name, isMagic c = false := by
      intro c hc
      rcases List.mem_append.mp hc with hpkg | hrest
      · exact not_isMagic_of_all (by decide) c hpkg
      · rcases List.mem_append.mp hrest with hmem | hdash
        · exact hname c hmem
        · exact not_isMagic_of_all (by decide) c hdash
    exact ⟨hlen, hcount, hcount ▸ hlt, holdsCards_writeCards hstem _ hlt hd⟩

/-- One pack of the ROM. -/
theorem packRomCards_ok {p : RomInput} {d d' : CardDir} {m : RomManifest}
    (hd : Findable romStem d) (h : packRomCards compress sha256 p d = (.ok m, d')) :
    ∃ raw, romTar p.content p.applets = some raw ∧
      cardBytes (wrap (dumps m.toJson) geometry.lc) ≤ cardMaxBytes ∧
      m.nc = (dataCards geometry (compress raw)).length ∧ m.nc < 1000 ∧
      HoldsCards romStem (dumps m.toJson) (dataCards geometry (compress raw)) d' ∧
      Findable romStem d' := by
  rw [packRomCards_run] at h
  cases hpack : packRom compress sha256 fnmatch p.content p.applets d with
  | error e =>
    rw [hpack] at h
    cases h
  | ok r =>
    obtain ⟨m', d''⟩ := r
    rw [hpack] at h
    cases h
    obtain ⟨raw, hraw, hm, hlen, rfl⟩ := packRom_eq_ok hpack
    -- the lines of the card are the text and a line end each
    have hmax : (dumps m.toJson).length ≤ cardMaxBytes := by
      have hjoin : (wrap (dumps m.toJson) geometry.lc).flatten = dumps m.toJson :=
        flatten_slices geometry.lc_pos _
      have hbytes := cardBytes_eq (wrap (dumps m.toJson) geometry.lc)
      rw [hjoin] at hbytes
      omega
    have hcount : m.nc = (dataCards geometry (compress raw)).length := by
      rw [hm]
      rfl
    have hlt : (dataCards geometry (compress raw)).length < 1000 := by
      apply length_dataCards_lt hsha raw (compress raw) _ hmax
      rw [hm]
      simp [CardManifest.geometryFields]
    exact ⟨raw, hraw, hlen, hcount, hcount ▸ hlt, holdsCards_writeCards (not_isMagic_of_all (by decide)) _ hlt hd⟩

end Packs

def hiInput : PkgInput := ⟨"1.0-r0".toList, "greeting".toList, [], hiRaw⟩

end OsMoap.Pack
