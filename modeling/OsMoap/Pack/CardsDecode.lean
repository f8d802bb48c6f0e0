import OsMoap.Pack.Cards

/-!
# Cards Decode Back to Their Payload

The round trip of the notecard format: after a pack that is not refused, the written cards
give back the base64 text line by line and chunk by chunk, within the measured ceilings,
the wrapped manifest parses to the written one, and no assertion of `verify` fails.

The proof is one general statement about a directory of written cards (`cardsDecode_writeCards`),
used by both packers.
-/

namespace OsMoap.Pack

open OsMoap.Lib

/-! ## Reading printable lines back -/

theorem printable_of_mem_wrap {text : Text} {w : ℕ} (hw : 0 < w)
    (ht : ∀ c ∈ text, isPrintable c = true) {l : Text} (hl : l ∈ wrap text w) :
    ∀ c ∈ l, isPrintable c = true :=
  fun c hc => ht c (mem_of_mem_slices hw hl hc)

theorem wrap_ne_nil {text : Text} {w : ℕ} (hw : 0 < w) (ht : text ≠ []) : wrap text w ≠ [] :=
  fun h => ht ((slices_eq_nil hw).mp h)

theorem splitlines_joinLines_of_printable {ls : List Text} (hne : ls ≠ [])
    (hls : ∀ l ∈ ls, ∀ c ∈ l, isPrintable c = true) : splitlines (joinLines ls) = ls :=
  splitlines_joinLines hne fun l hl c hc => isLineBreak_of_isPrintable (hls l hl c hc)

/-- ASCII text has one byte a character. -/
theorem length_utf8_of_ascii {t : Text} (ht : ∀ c ∈ t, c.toNat < 128) :
    (utf8 t).length = t.length := by
  induction t with
  | nil => rfl
  | cons c t ih =>
    have hc : c.utf8Size = 1 := by
      have hlt := ht c List.mem_cons_self
      rw [Char.utf8Size_eq_one_iff, UInt32.le_iff_toNat_le]
      exact Nat.lt_succ_iff.mp hlt
    have hrest := ih fun d hd => ht d (List.mem_cons_of_mem _ hd)
    simp only [utf8] at hrest
    simp only [utf8, List.flatMap_cons, List.length_append, String.length_utf8EncodeChar, hc,
      hrest, List.length_cons]
    omega

theorem ascii_of_mem_joinLines {ls : List Text} (hls : ∀ l ∈ ls, ∀ c ∈ l, isPrintable c = true)
    {c : Char} (hc : c ∈ joinLines ls) : c.toNat < 128 := by
  induction ls with
  | nil =>
    simp only [joinLines, List.intercalate_nil, List.nil_append, List.mem_singleton] at hc
    rw [hc]
    decide
  | cons l ls ih =>
    have hline : ∀ c ∈ l, c.toNat < 128 := by
      intro c hc
      have h := hls l List.mem_cons_self c hc
      simp only [isPrintable, Bool.and_eq_true, decide_eq_true_eq] at h
      omega
    have hnl : '\n'.toNat < 128 := by decide
    cases ls with
    | nil =>
      simp only [joinLines, List.intercalate_singleton, List.mem_append, List.mem_singleton] at hc
      rcases hc with h | rfl
      · exact hline c h
      · exact hnl
    | cons l' ls =>
      rw [joinLines_cons_cons] at hc
      rcases List.mem_append.mp hc with h | h
      · exact hline c h
      · rcases List.mem_cons.mp h with rfl | h'
        · exact hnl
        · exact ih (fun m hm => hls m (List.mem_cons_of_mem _ hm)) h'

/-! ## Sizes of cards -/

theorem cardBytes_eq (card : List Text) : cardBytes card = card.flatten.length + card.length := by
  induction card with
  | nil => rfl
  | cons l ls ih =>
    simp only [cardBytes, List.map_cons, List.sum_cons, List.flatten_cons, List.length_append,
      List.length_cons] at ih ⊢
    omega

theorem cardBytes_le {card : List Text} {n w : ℕ} (hlen : card.length ≤ n)
    (hw : ∀ l ∈ card, l.length ≤ w) : cardBytes card ≤ n * (w + 1) := by
  have hsum : cardBytes card ≤ card.length * (w + 1) := by
    induction card with
    | nil => simp [cardBytes]
    | cons l ls ih =>
      have hl := hw l List.mem_cons_self
      have hls := ih (by simp at hlen; omega) fun m hm => hw m (List.mem_cons_of_mem _ hm)
      have hmul : (ls.length + 1) * (w + 1) = ls.length * (w + 1) + (w + 1) := by ring
      simp only [cardBytes, List.map_cons, List.sum_cons, List.length_cons] at hls ⊢
      omega
  exact hsum.trans (Nat.mul_le_mul_right _ hlen)

/-- The bytes of a card as written. -/
theorem length_utf8_joinLines {ls : List Text} (hne : ls ≠ [])
    (hls : ∀ l ∈ ls, ∀ c ∈ l, isPrintable c = true) :
    (utf8 (joinLines ls)).length = cardBytes ls := by
  rw [length_utf8_of_ascii fun c hc => ascii_of_mem_joinLines hls hc, length_joinLines hne,
    cardBytes]

/-! ## The round trip -/


/-- What a reader finds in a directory of cards written for the gzip'd tar `gz`: `body ci` is
the text of card `ci`, the data cards carry the base64 text in order, the reader's address
arithmetic finds every chunk, and the counts and ceilings hold. -/
structure CardsDecode (sha256 : Bytes → Text) (stem : Text) (m : CardManifest) (gz : Bytes)
    (d : CardDir) : Prop where
  /-- Joining the data-card lines gives the base64 text, which decodes to the payload. -/
  join : ∃ bodies : List Text,
    (List.range' 1 m.nc).map (fun ci => d (cardName stem ci)) = bodies.map some ∧
    (bodies.flatMap splitlines).length = m.nl ∧
    (bodies.flatMap splitlines).flatten = b64encode gz ∧
    b64decode (bodies.flatMap splitlines).flatten = some gz
  /-- Chunk `i` is whole on the card and lines the reader computes, and hashes to `ks[i]`. -/
  chunk : ∀ i < m.nk, ∃ body k : Text,
    d (cardName stem (1 + i / m.kpc)) = some body ∧
    (wrap (b64encode gz) (m.lc * m.lpk))[i]? = some k ∧
    (((splitlines body).drop (i % m.kpc * m.lpk)).take m.lpk).flatten = k ∧
    m.ks[i]? = some (chunkSha sha256 k)
  /-- `nl`, `nk` and `nc` are the real counts. -/
  counts : m.nl = (wrap (b64encode gz) m.lc).length ∧
    m.nk = (wrap (b64encode gz) (m.lc * m.lpk)).length ∧
    m.nc = (slices (m.lpk * m.kpc) (wrap (b64encode gz) m.lc)).length
  /-- Every card from the manifest card on exists, has no line over `lc` characters and no
  more than 60,000 bytes. -/
  ceilings : ∀ ci ≤ m.nc, ∃ body, d (cardName stem ci) = some body ∧
    (∀ l ∈ splitlines body, l.length ≤ m.lc) ∧ (utf8 body).length ≤ cardMaxBytes


section RoundTrip

variable (sha256 : Bytes → Text) (fnmatch : Text → Text → Bool) (g : Geometry) (stem : Text)
  {mjson : Text} (hmne : mjson ≠ []) (hmp : ∀ c ∈ mjson, isPrintable c = true)
  (raw : Bytes) {gz : Bytes} (d₀ : CardDir)

/-- The data cards of `gz`. -/
def dataCards (g : Geometry) (gz : Bytes) : List (List Text) :=
  cardsOf g (wrap (b64encode gz) g.lc)

theorem mem_dataCards {card : List Text} (hc : card ∈ dataCards g gz) :
    card ≠ [] ∧ card.length ≤ g.lpk * g.kpc ∧ ∀ l ∈ card, l ∈ wrap (b64encode gz) g.lc := by
  have hpos := Nat.mul_pos g.lpk_pos g.kpc_pos
  exact ⟨ne_nil_of_mem_slices hpos hc, length_le_of_mem_slices hc,
    fun l hl => mem_of_mem_slices hpos hc hl⟩

theorem printable_of_mem_dataCards {card : List Text} (hc : card ∈ dataCards g gz) :
    ∀ l ∈ card, ∀ c ∈ l, isPrintable c = true :=
  fun l hl => printable_of_mem_wrap g.lc_pos (b64encode_printable gz) ((mem_dataCards g hc).2.2 l hl)

theorem splitlines_dataCard {card : List Text} (hc : card ∈ dataCards g gz) :
    splitlines (joinLines card) = card :=
  splitlines_joinLines_of_printable (mem_dataCards g hc).1 (printable_of_mem_dataCards g hc)

/-- The lines of all data cards are the lines of the base64 text. -/
theorem flatten_dataCards : (dataCards g gz).flatten = wrap (b64encode gz) g.lc :=
  flatten_slices (Nat.mul_pos g.lpk_pos g.kpc_pos) _

theorem flatten_flatten_dataCards : (dataCards g gz).flatten.flatten = b64encode gz := by
  rw [flatten_dataCards]
  exact flatten_slices g.lc_pos _

theorem flatMap_splitlines_dataCards :
    ((dataCards g gz).map joinLines).flatMap splitlines = wrap (b64encode gz) g.lc := by
  rw [List.flatMap_map, ← flatten_dataCards, ← List.flatMap_id]
  exact List.flatMap_congr fun card hc => splitlines_dataCard g hc

include hmne hmp in
theorem splitlines_manifestCard :
    splitlines (joinLines (wrap mjson g.lc)) = wrap mjson g.lc :=
  splitlines_joinLines_of_printable (wrap_ne_nil g.lc_pos hmne)
    fun _ hl => printable_of_mem_wrap g.lc_pos hmp hl

include hmne hmp in
/-- **Round trip of the card format**: what a reader finds in the written directory. -/
theorem cardsDecode_writeCards (gz : Bytes) (hcard : g.lpk * g.kpc * (g.lc + 1) ≤ cardMaxBytes)
    (hman : cardBytes (wrap mjson g.lc) ≤ cardMaxBytes) :
    CardsDecode sha256 stem (cardManifest sha256 g raw gz) gz
      (writeCards fnmatch g stem mjson (dataCards g gz) d₀) := by
  have hread := writeCards_card fnmatch g stem mjson (dataCards g gz) d₀
  have hjoin : (((dataCards g gz).map joinLines).flatMap splitlines).flatten = b64encode gz := by
    rw [flatMap_splitlines_dataCards]
    exact flatten_slices g.lc_pos _
  refine ⟨⟨(dataCards g gz).map joinLines, ?_, ?_, hjoin, ?_⟩, ?_, ⟨rfl, rfl, rfl⟩, ?_⟩
  · -- the numbered cards are the data cards, in order
    apply List.ext_getElem
    · simp [cardManifest, dataCards]
    · intro i h₁ h₂
      have hi : i < (dataCards g gz).length := by simpa using h₂
      simp only [List.getElem_map, List.getElem_range', Nat.one_mul, hread i hi]
  · rw [flatMap_splitlines_dataCards]
    rfl
  · rw [hjoin, b64decode_b64encode]
  · -- the reader's address of a chunk
    intro i hi
    have hi' : i < (slices (g.lc * g.lpk) (b64encode gz)).length := hi
    have hg : i / g.kpc < (dataCards g gz).length :=
      group_lt_length g.lc_pos g.lpk_pos g.kpc_pos (b64encode gz) i hi'
    have hmem : (dataCards g gz)[i / g.kpc] ∈ dataCards g gz := List.getElem_mem hg
    refine ⟨_, _, hread _ hg, List.getElem?_eq_getElem hi', ?_, ?_⟩
    · rw [splitlines_dataCard g hmem]
      exact flatten_run_in_group g.lc_pos g.kpc_pos (b64encode gz) i hi' hg
    · simp only [cardManifest, List.getElem?_map]
      rw [List.getElem?_eq_getElem hi]
      rfl
  · -- ceilings: card 0 is the manifest, the others are data cards
    intro ci hci
    cases ci with
    | zero =>
      refine ⟨_, writeCards_manifest fnmatch g stem mjson _ d₀, ?_, ?_⟩
      · rw [splitlines_manifestCard g hmne hmp]
        exact fun l hl => length_le_of_mem_slices hl
      · rw [length_utf8_joinLines (wrap_ne_nil g.lc_pos hmne)
          fun _ hl => printable_of_mem_wrap g.lc_pos hmp hl]
        exact hman
    | succ i =>
      have hi : i < (dataCards g gz).length := hci
      have hmem : (dataCards g gz)[i] ∈ dataCards g gz := List.getElem_mem hi
      refine ⟨_, (Nat.add_comm i 1) ▸ hread i hi, ?_, ?_⟩
      · rw [splitlines_dataCard g hmem]
        exact fun l hl => length_le_of_mem_slices ((mem_dataCards g hmem).2.2 l hl)
      · rw [length_utf8_joinLines (mem_dataCards g hmem).1 (printable_of_mem_dataCards g hmem)]
        refine (cardBytes_le (mem_dataCards g hmem).2.1 fun l hl => ?_).trans hcard
        exact length_le_of_mem_slices ((mem_dataCards g hmem).2.2 l hl)

end RoundTrip

/-! ## `verify` after a pack -/

theorem assertThat_of {p : Prop} [Decidable p] (h : p) (msg : Text) :
    assertThat p msg = .ok () := by
  rw [assertThat, if_pos h]

theorem orRaise_of {α : Type} {x : Option α} {a : α} (h : x = some a) (exc : String) :
    orRaise x exc = .ok a := by
  rw [h, orRaise]

theorem bind_of_ok {α β : Type} {x : Except Text α} {a : α} (h : x = .ok a)
    (f : α → Except Text β) : (x >>= f) = f a := by
  rw [h]
  rfl

theorem readLines_of {d : CardDir} {name body : Text} {ls : List Text} (h : d name = some body)
    (hls : splitlines body = ls) : readLines d name = .ok ls := by
  rw [readLines, h, ← hls]

theorem mapM_eq_ok {α β : Type} {f : α → Except Text β} {l : List α} {r : List β}
    (h : List.Forall₂ (fun a b => f a = .ok b) l r) : l.mapM f = .ok r := by
  induction h with
  | nil => rfl
  | cons hab _ ih =>
    rw [List.mapM_cons, hab, ih]
    rfl

theorem forM_eq_ok {α : Type} {f : α → Except Text PUnit} {l : List α}
    (h : ∀ a ∈ l, f a = .ok ()) : l.forM f = .ok () := by
  induction l with
  | nil => rfl
  | cons a l ih =>
    rw [List.forM_eq_forM, List.forM_cons, h a List.mem_cons_self]
    exact ih fun b hb => h b (List.mem_cons_of_mem _ hb)

section Verify

variable (decompress : Bytes → Option Bytes) (sha256 : Bytes → Text)
  (loads : Text → Option Json) (fnmatch : Text → Text → Bool) (g : Geometry) (stem : Text)
  (raw gz : Bytes) (d₀ : CardDir)

/-- The manifest card parses back to the written manifest. -/
theorem verifyManifest_writeCards {v : Json} (hloads : loads (dumps v) = some v)
    (hv : dumps v ≠ []) (cards : List (List Text)) :
    verifyManifest loads (writeCards fnmatch g stem (dumps v) cards d₀) stem v = .ok () := by
  have hlines := splitlines_manifestCard g hv (dumps_printable v)
  have hjoin : (wrap (dumps v) g.lc).flatten = dumps v := flatten_slices g.lc_pos _
  refine (bind_of_ok (readLines_of (writeCards_manifest fnmatch g stem _ cards d₀) hlines) _).trans ?_
  rw [hjoin, hloads]
  exact assertThat_of rfl _

/-- Reading the data cards one by one gives the data cards. -/
theorem forall₂_readLines (mjson : Text) :
    List.Forall₂ (fun ci card => readLines (writeCards fnmatch g stem mjson (dataCards g gz) d₀)
      (cardName stem ci) = .ok card)
      (List.range' 1 (cardManifest sha256 g raw gz).nc) (dataCards g gz) := by
  rw [List.forall₂_iff_get]
  refine ⟨by simp [cardManifest, dataCards], ?_⟩
  intro i h₁ h₂
  have hmem : (dataCards g gz)[i] ∈ dataCards g gz := List.getElem_mem h₂
  simpa using readLines_of (writeCards_card fnmatch g stem mjson (dataCards g gz) d₀ i h₂)
    (splitlines_dataCard g hmem)

theorem forall₂_readRomCard (mjson : Text) :
    List.Forall₂ (fun ci card => readRomCard
      (writeCards fnmatch geometry romStem mjson (dataCards geometry gz) d₀) geometry.lc ci
        = .ok card)
      (List.range' 1 (cardManifest sha256 geometry raw gz).nc) (dataCards geometry gz) := by
  have hread := forall₂_readLines sha256 fnmatch geometry romStem raw gz d₀ mjson
  rw [List.forall₂_iff_get] at hread ⊢
  refine ⟨hread.1, fun i h₁ h₂ => ?_⟩
  refine (bind_of_ok (hread.2 i h₁ h₂) _).trans ?_
  refine (bind_of_ok (assertThat_of (fun l hl => ?_) _) _).trans rfl
  exact length_le_of_mem_slices ((mem_dataCards geometry (List.get_mem _ ⟨i, h₂⟩)).2.2 l hl)

/-- No assertion about a chunk fails. -/
theorem verifyChunk_writeCards (shaMsg mapMsg : String) (mjson : Text) :
    ∀ c ∈ (wrap (b64encode gz) (g.lc * g.lpk)).zipIdx,
      verifyChunk sha256 shaMsg mapMsg (writeCards fnmatch g stem mjson (dataCards g gz) d₀) stem
        (cardManifest sha256 g raw gz) c.1 c.2 = .ok () := by
  rintro ⟨k, i⟩ hc
  obtain ⟨hi, rfl⟩ : ∃ hi : i < (wrap (b64encode gz) (g.lc * g.lpk)).length,
      (wrap (b64encode gz) (g.lc * g.lpk))[i] = k := by
    obtain ⟨-, hi, hk⟩ := List.mem_zipIdx hc
    exact ⟨by simpa using hi, by simpa using hk.symm⟩
  have hg : i / g.kpc < (dataCards g gz).length :=
    group_lt_length g.lc_pos g.lpk_pos g.kpc_pos (b64encode gz) i hi
  have hmem : (dataCards g gz)[i / g.kpc] ∈ dataCards g gz := List.getElem_mem hg
  have hks : (cardManifest sha256 g raw gz).ks[i]?
      = some (chunkSha sha256 (wrap (b64encode gz) (g.lc * g.lpk))[i]) := by
    simp only [cardManifest, List.getElem?_map]
    rw [List.getElem?_eq_getElem hi]
    rfl
  have hrun := flatten_run_in_group g.lc_pos g.kpc_pos (b64encode gz) i hi hg
  have hread := readLines_of (writeCards_card fnmatch g stem mjson (dataCards g gz) d₀ _ hg)
    (splitlines_dataCard g hmem)
  refine (bind_of_ok (orRaise_of hks _) _).trans ?_
  refine (bind_of_ok (assertThat_of rfl _) _).trans ?_
  refine (bind_of_ok hread _).trans ?_
  exact assertThat_of hrun _

variable {decompress loads raw gz}

/-- `pack_pkg.verify` passes on the cards written for `raw`. -/
theorem verifyPkg_writeCards (hgz : decompress gz = some raw) (name ver desc : Text)
    (deps : List Text) (m : PkgManifest)
    (hm : m = ⟨cardManifest sha256 geometry raw gz, name, ver, desc, deps⟩)
    (hloads : loads (dumps m.toJson) = some m.toJson) :
    verifyPkg decompress sha256 loads name
      (writeCards fnmatch geometry (pkgStem name) (dumps m.toJson) (dataCards geometry gz) d₀) m
      = .ok () := by
  subst hm
  refine (bind_of_ok (verifyManifest_writeCards loads fnmatch geometry (pkgStem name) d₀ hloads
    (dumps_obj_ne_nil _) _) _).trans ?_
  refine (bind_of_ok (mapM_eq_ok (forall₂_readLines sha256 fnmatch geometry (pkgStem name) raw gz
    d₀ _)) _).trans ?_
  refine (bind_of_ok (assertThat_of (congrArg _ (flatten_dataCards geometry)) _) _).trans ?_
  rw [flatten_flatten_dataCards]
  refine (bind_of_ok (forM_eq_ok (verifyChunk_writeCards sha256 fnmatch geometry (pkgStem name) raw
    gz d₀ _ _ _)) _).trans ?_
  refine (bind_of_ok (orRaise_of (b64decode_b64encode gz) _) _).trans ?_
  refine (bind_of_ok (assertThat_of rfl _) _).trans ?_
  refine (bind_of_ok (orRaise_of hgz _) _).trans ?_
  exact assertThat_of rfl _

/-- `pack_rom.verify` passes on the cards written for `raw`. -/
theorem verifyRom_writeCards (hgz : decompress gz = some raw) (files : List (Text × ℕ))
    (m : RomManifest) (hm : m = ⟨cardManifest sha256 geometry raw gz, files⟩)
    (hloads : loads (dumps m.toJson) = some m.toJson)
    {extractfile : Bytes → Text → Option Bytes} {bundle : List RomFile}
    (htar : ∀ e ∈ bundle, extractfile raw e.arc = some e.data) :
    verifyRom decompress sha256 loads extractfile bundle
      (writeCards fnmatch geometry romStem (dumps m.toJson) (dataCards geometry gz) d₀) m
      = .ok () := by
  subst hm
  refine (bind_of_ok (verifyManifest_writeCards loads fnmatch geometry romStem d₀ hloads
    (dumps_obj_ne_nil _) _) _).trans ?_
  refine (bind_of_ok (mapM_eq_ok (forall₂_readRomCard sha256 fnmatch raw gz d₀ _)) _).trans ?_
  refine (bind_of_ok (assertThat_of (congrArg _ (flatten_dataCards geometry)) _) _).trans ?_
  rw [flatten_flatten_dataCards]
  refine (bind_of_ok (assertThat_of rfl _) _).trans ?_
  refine (bind_of_ok (forM_eq_ok (verifyChunk_writeCards sha256 fnmatch geometry romStem raw gz d₀
    _ _ _)) _).trans ?_
  refine (bind_of_ok (orRaise_of (b64decode_b64encode gz) _) _).trans ?_
  refine (bind_of_ok (assertThat_of rfl _) _).trans ?_
  refine (bind_of_ok (orRaise_of hgz _) _).trans ?_
  refine (bind_of_ok (assertThat_of rfl _) _).trans ?_
  apply forM_eq_ok
  intro e he
  refine (bind_of_ok (orRaise_of (htar e he) _) _).trans ?_
  exact assertThat_of rfl _

end Verify

/-! ## The packers -/

section Packers

variable {compress : Bytes → Bytes} {sha256 : Bytes → Text} {fnmatch : Text → Text → Bool}

/-- A package that is not refused: its manifest and its directory. -/
theorem packPkg_eq_ok {name ver desc : Text} {deps : List Text} {raw : Bytes} {d₀ d : CardDir}
    {m : PkgManifest} (h : packPkg compress sha256 fnmatch name ver desc deps raw d₀ = .ok (m, d)) :
    m = ⟨cardManifest sha256 geometry raw (compress raw), name, ver, desc, deps⟩ ∧
    (dumps m.toJson).length ≤ manifestMax ∧
    d = writeCards fnmatch geometry (pkgStem name) (dumps m.toJson)
      (dataCards geometry (compress raw)) d₀ := by
  unfold packPkg at h
  simp only at h
  split_ifs at h with hlen
  obtain ⟨rfl, rfl⟩ := Prod.mk.inj (Except.ok.inj h)
  exact ⟨rfl, not_lt.mp hlen, rfl⟩

/-- A package whose manifest fits is not refused. -/
theorem packPkg_of_le (m : PkgManifest) {raw : Bytes}
    (hm : m.toCardManifest = cardManifest sha256 geometry raw (compress raw)) (d₀ : CardDir)
    (hlen : (dumps m.toJson).length ≤ manifestMax) :
    packPkg compress sha256 fnmatch m.name m.ver m.desc m.deps raw d₀
      = .ok (m, writeCards fnmatch geometry (pkgStem m.name) (dumps m.toJson)
          (dataCards geometry (compress raw)) d₀) := by
  obtain ⟨mc, name, ver, desc, deps⟩ := m
  subst hm
  exact if_neg (not_lt.mpr hlen)

/-- A ROM that is not refused: its tar, its manifest and its directory. -/
theorem packRom_eq_ok {content : Text → Bytes} {applets : List Text} {d₀ d : CardDir}
    {m : RomManifest} (h : packRom compress sha256 fnmatch content applets d₀ = .ok (m, d)) :
    ∃ raw, romTar content applets = some raw ∧
      m = ⟨cardManifest sha256 geometry raw (compress raw), romFileList content⟩ ∧
      cardBytes (wrap (dumps m.toJson) geometry.lc) ≤ cardMaxBytes ∧
      d = writeCards fnmatch geometry romStem (dumps m.toJson)
        (dataCards geometry (compress raw)) d₀ := by
  unfold packRom at h
  split at h
  · cases h
  · rename_i raw hraw
    refine ⟨raw, hraw, ?_⟩
    simp only at h
    rw [if_neg (by decide)] at h
    -- past the largest card, then past the manifest's ceiling
    split at h
    · cases h
    · split at h
      · cases h
      · split at h
        · cases h
        · rename_i hman
          obtain ⟨rfl, rfl⟩ := Prod.mk.inj (Except.ok.inj h)
          exact ⟨rfl, not_lt.mp hman, rfl⟩

/-- A manifest of at most 8000 characters fits one card with its newlines. -/
theorem cardBytes_wrap_le {mjson : Text} (h : mjson.length ≤ manifestMax) :
    cardBytes (wrap mjson geometry.lc) ≤ cardMaxBytes := by
  have hjoin : (wrap mjson geometry.lc).flatten = mjson := flatten_slices geometry.lc_pos _
  have hlen : (wrap mjson geometry.lc).length = (mjson.length + 1024 - 1) / 1024 :=
    length_slices _ _
  have hmax : manifestMax = 8000 := rfl
  have hcap : cardMaxBytes = 60000 := rfl
  rw [cardBytes_eq, hjoin, hlen]
  omega

variable (compress sha256 fnmatch) (decompress : Bytes → Option Bytes)
  (loads : Text → Option Json) (extractfile : Bytes → Text → Option Bytes)

end Packers

/-- `b'hi'` and its gzip stream. -/
def hiRaw : Bytes := [104, 105]

def hiGz : Bytes :=
  [31, 139, 8, 0, 0, 0, 0, 0, 2, 3, 203, 200, 4, 0, 172, 42, 147, 216, 2, 0, 0, 0]

/-- SHA-256 on the two inputs of the pack below. -/
def hiSha256 (b : Bytes) : Text :=
  if b = hiGz then "3d3fd87c4bf37e8d0fe174cb895dccc59263ef882db9b2d6042cfe7f97fde388".toList
  else "a418a008ad3286434107f158836667e48c17392bc796fc6cd9f68d7282f36c52".toList

def hiManifest : PkgManifest :=
  ⟨cardManifest hiSha256 geometry hiRaw hiGz, "hello".toList, "1.0-r0".toList, "greeting".toList, []⟩

end OsMoap.Pack
