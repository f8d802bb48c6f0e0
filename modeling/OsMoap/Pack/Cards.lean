import OsMoap.Pack.Ustar
import Mathlib.Logic.Function.Basic
import Mathlib.Data.List.Dedup
import Mathlib.Data.List.Sort

/-!
# Notecard Packing

The card format of `tools/pack_rom.py` and `tools/pack_pkg.py`: a gzip'd tar is written as
base64 onto data cards, with a JSON manifest on card 000, and `verify` re-reads the cards
the way the in-world reader does.

Three slicings of one base64 text have to agree: lines of `lc` characters, chunks of `lpk`
lines and cards of `kpc` chunks.  The reader finds chunk `i` on card `1 + i // kpc` from
line `(i % kpc) * lpk` on; `Lib.flatten_run_in_group` is that address law.

SHA-256, gzip, `json.loads`, the stale-card glob and Python's tar reader are parameters.
-/

namespace OsMoap.Pack

open OsMoap.Lib

/-! ## Geometry -/

/-- The card geometry: characters a line, lines a chunk, chunks a card. -/
structure Geometry where
  lc : ℕ
  lpk : ℕ
  kpc : ℕ
  lc_pos : 0 < lc
  lpk_pos : 0 < lpk
  kpc_pos : 0 < kpc

/-- `LINE_CHARS`, `LINES_PER_CHUNK`, `CHUNKS_PER_CARD`. -/
def geometry : Geometry where
  lc := 1024
  lpk := 8
  kpc := 7
  lc_pos := by decide
  lpk_pos := by decide
  kpc_pos := by decide

/-- `CARD_MAX_BYTES`. -/
def cardMaxBytes : ℕ := 60000

/-- `HTTP_CHUNK_MAX`. -/
def httpChunkMax : ℕ := 12288

/-- `MANIFEST_MAX`. -/
def manifestMax : ℕ := 8000

/-- `pack_rom.wrap`. -/
def wrap (text : Text) (width : ℕ) : List Text := slices width text

/-- The cards of a list of lines: `lines[i:i + lines_per_card]`. -/
def cardsOf (g : Geometry) (lines : List Text) : List (List Text) := slices (g.lpk * g.kpc) lines

/-! ## The output directory -/

/-- The card directory: file name to file text. -/
abbrev CardDir := Text → Option Text

def CardDir.write (d : CardDir) (name body : Text) : CardDir :=
  Function.update d name (some body)

/-- `f'{stem}{ci:03d}.txt'`. -/
def cardName (stem : Text) (ci : ℕ) : Text := stem ++ (decimal03 ci ++ ".txt".toList)

/-- The stem of a package's cards, `pkg-<name>-`. -/
def pkgStem (name : Text) : Text := "pkg-".toList ++ (name ++ "-".toList)

/-- The stem of the ROM's cards. -/
def romStem : Text := "rom-".toList

/-- Remove what the stale-card glob matches, then write the manifest card and the data
cards in order. -/
def writeCards (fnmatch : Text → Text → Bool) (g : Geometry) (stem mjson : Text)
    (cards : List (List Text)) (d : CardDir) : CardDir :=
  let cleared : CardDir := fun f =>
    if fnmatch (stem ++ "[0-9][0-9][0-9].txt".toList) f then none else d f
  -- card 0 is the manifest, the data cards count from 1
  (cards.zipIdx 1).foldl (fun d c => d.write (cardName stem c.2) (joinLines c.1))
    (cleared.write (cardName stem 0) (joinLines (wrap mjson g.lc)))

/-! ## Manifests -/

/-- The manifest keys both packers write about the cards. -/
structure CardManifest where
  lc : ℕ
  lpk : ℕ
  kpc : ℕ
  nl : ℕ
  nk : ℕ
  nc : ℕ
  rb : ℕ
  zb : ℕ
  bs : Text
  ks : List Text

/-- `k.encode('ascii')` for text known to be ASCII. -/
def asciiEncode (t : Text) : Bytes := t.map fun c => UInt8.ofNat c.toNat

/-- `hashlib.sha256(k.encode('ascii')).hexdigest()[:16]`. -/
def chunkSha (sha256 : Bytes → Text) (k : Text) : Text := (sha256 (asciiEncode k)).take 16

/-- The manifest of a gzip'd tar laid out in geometry `g`. -/
def cardManifest (sha256 : Bytes → Text) (g : Geometry) (raw gz : Bytes) : CardManifest where
  lc := g.lc
  lpk := g.lpk
  kpc := g.kpc
  nl := (wrap (b64encode gz) g.lc).length
  nk := (wrap (b64encode gz) (g.lc * g.lpk)).length
  nc := (cardsOf g (wrap (b64encode gz) g.lc)).length
  rb := raw.length
  zb := gz.length
  bs := sha256 gz
  ks := (wrap (b64encode gz) (g.lc * g.lpk)).map (chunkSha sha256)

/-- The card keys in the order both packers write them. -/
def CardManifest.geometryFields (m : CardManifest) : List (Text × Json) :=
  [("enc".toList, .str "b64".toList), ("gz".toList, .num 1), ("lc".toList, .num m.lc),
    ("lpk".toList, .num m.lpk), ("kpc".toList, .num m.kpc), ("nl".toList, .num m.nl),
    ("nk".toList, .num m.nk), ("nc".toList, .num m.nc), ("rb".toList, .num m.rb),
    ("zb".toList, .num m.zb), ("bs".toList, .str m.bs), ("ks".toList, .arr (m.ks.map .str))]

/-- The manifest of `pack_pkg.pack`. -/
structure PkgManifest extends CardManifest where
  name : Text
  ver : Text
  desc : Text
  deps : List Text

def PkgManifest.toJson (m : PkgManifest) : Json :=
  .obj ([("v".toList, .num 1), ("name".toList, .str m.name), ("ver".toList, .str m.ver),
    ("desc".toList, .str m.desc), ("deps".toList, .arr (m.deps.map .str))] ++ m.geometryFields)

/-- The manifest of `pack_rom.pack`: `f` lists the bundled files with their sizes. -/
structure RomManifest extends CardManifest where
  f : List (Text × ℕ)

def RomManifest.toJson (m : RomManifest) : Json :=
  .obj (("v".toList, .num 1) :: (m.geometryFields ++
    [("f".toList, .arr (m.f.map fun e => .arr [.str e.1, .num e.2]))]))

/-! ## `pack_pkg.pack` -/

section Packers

variable (compress : Bytes → Bytes) (sha256 : Bytes → Text) (fnmatch : Text → Text → Bool)

/-- `pack_pkg.pack` from the tar bytes of `build_gz` on: refused when the manifest does not
fit one reader response, else the manifest and the written directory. -/
def packPkg (name ver desc : Text) (deps : List Text) (raw : Bytes) (d : CardDir) :
    Except Text (PkgManifest × CardDir) :=
  let gz := compress raw
  let lines := wrap (b64encode gz) geometry.lc
  let m : PkgManifest :=
    { cardManifest sha256 geometry raw gz with name := name, ver := ver, desc := desc, deps := deps }
  let mjson := dumps m.toJson
  if mjson.length > manifestMax then
    .error ("pack_pkg: manifest ".toList ++ decimal mjson.length ++ "B > ".toList ++
      decimal manifestMax ++ "B (package too large -- ".toList ++ decimal m.nk ++
      " chunks)".toList)
  else
    .ok (m, writeCards fnmatch geometry (pkgStem name) mjson (cardsOf geometry lines) d)

/-! ## `pack_rom.pack` -/

/-- A bundled file: source path, archive name, content. -/
structure RomFile where
  src : Text
  arc : Text
  data : Bytes

/-- `BUNDLE_V1`: (source path, archive name). -/
def bundleV1 : List (Text × Text) :=
  [("guest/busybox-v0.wasm", "busybox.wasm"),
    ("web/vendor/xterm.js", "web/xterm.js"),
    ("web/vendor/xterm.css", "web/xterm.css"),
    ("build/stage1.js", "web/stage1.js"),
    ("guest/busybox/upstream/LICENSE", "LICENSE"),
    ("guest/rootfs/etc/motd", "rootfs/etc/motd"),
    ("guest/rootfs/etc/profile", "rootfs/etc/profile"),
    ("guest/rootfs/etc/apk/repositories", "rootfs/etc/apk/repositories"),
    ("guest/rootfs/home/user/.profile", "rootfs/home/user/.profile")].map
    fun e => (e.1.toList, e.2.toList)

/-- The files of `BUNDLE_V1` with their contents. -/
def bundleFiles (content : Text → Bytes) : List RomFile :=
  bundleV1.map fun e => ⟨e.1, e.2, content e.1⟩

/-- `bin_markers`: an empty `rootfs/bin/<applet>` for each applet name of the build. -/
def binMarkers (applets : List Text) : List RomFile :=
  (applets.dedup.mergeSort fun a b => decide (a ≤ b)).map fun n =>
    ⟨"__EMPTY__".toList, "rootfs/bin/".toList ++ n, []⟩

/-- The bundle `pack_rom` packs. -/
def romBundle (content : Text → Bytes) (applets : List Text) : List RomFile :=
  bundleFiles content ++ binMarkers applets

/-- The `f` key: `[arc, size]` of the bundled files sorted by archive name. -/
def romFileList (content : Text → Bytes) : List (Text × ℕ) :=
  ((bundleFiles content).mergeSort fun a b => decide (a.arc ≤ b.arc)).map fun e =>
    (e.arc, e.data.length)

/-- The size of a card as pasted: every line and its newline. -/
def cardBytes (card : List Text) : ℕ := (card.map fun l => l.length + 1).sum

/-- The tar of the ROM bundle. -/
def romTar (content : Text → Bytes) (applets : List Text) : Option Bytes :=
  buildTar ((romBundle content applets).map fun e => (e.arc, e.data))

/-- `pack_rom.pack` with each of its ceilings; the smoke test and the check that the bundle
sources exist come before. -/
def packRom (content : Text → Bytes) (applets : List Text) (d : CardDir) :
    Except Text (RomManifest × CardDir) :=
  match romTar content applets with
  | none => .error "ValueError".toList
  | some raw =>
    let gz := compress raw
    if geometry.lc * geometry.lpk > httpChunkMax then
      .error ("pack_rom: chunk ".toList ++ decimal (geometry.lc * geometry.lpk) ++
        " chars exceeds measured HTTP ceiling ".toList ++ decimal httpChunkMax)
    else
      let cards := cardsOf geometry (wrap (b64encode gz) geometry.lc)
      match (cards.map cardBytes).max? with
      | none => .error "ValueError: max() arg is an empty sequence".toList
      | some largest =>
        if largest > cardMaxBytes then
          .error ("pack_rom: card would be ".toList ++ decimal largest ++
            "B > measured ceiling ".toList ++ decimal cardMaxBytes)
        else
          let m : RomManifest :=
            { cardManifest sha256 geometry raw gz with f := romFileList content }
          let mjson := dumps m.toJson
          if cardBytes (wrap mjson geometry.lc) > cardMaxBytes then
            .error
              "pack_rom: manifest exceeds one card — shard it (not expected at v1 sizes)".toList
          else
            .ok (m, writeCards fnmatch geometry romStem mjson cards d)

end Packers

/-! ## `verify` -/

section Verify

variable (decompress : Bytes → Option Bytes) (sha256 : Bytes → Text)
  (loads : Text → Option Json)

/-- A Python `assert`. -/
def assertThat (p : Prop) [Decidable p] (msg : Text) : Except Text Unit :=
  if p then .ok () else .error msg

/-- `open(...).read().splitlines()`. -/
def readLines (d : CardDir) (name : Text) : Except Text (List Text) :=
  match d name with
  | some body => .ok (splitlines body)
  | none => .error ("FileNotFoundError: ".toList ++ name)

/-- An `Option` result whose `none` is a Python exception. -/
def orRaise {α : Type} (x : Option α) (exc : String) : Except Text α :=
  match x with
  | some a => .ok a
  | none => .error exc.toList

/-- The re-read manifest must equal the written one; from here on `m` is `manifest`. -/
def verifyManifest (d : CardDir) (stem : Text) (manifest : Json) : Except Text Unit := do
  let mlines ← readLines d (cardName stem 0)
  let m ← orRaise (loads mlines.flatten) "json.JSONDecodeError"
  assertThat (m = manifest) "manifest re-read mismatch".toList

/-- The check of one chunk: its hash, and the card and line the reader will look at.  The two
packers word their assertion messages differently. -/
def verifyChunk (shaMsg mapMsg : String) (d : CardDir) (stem : Text) (m : CardManifest)
    (k : Text) (i : ℕ) : Except Text Unit := do
  let want ← orRaise m.ks[i]? "IndexError: list index out of range"
  assertThat (chunkSha sha256 k = want) ("chunk ".toList ++ decimal i ++ shaMsg.toList)
  let cl ← readLines d (cardName stem (1 + i / m.kpc))
  assertThat (((cl.drop (i % m.kpc * m.lpk)).take m.lpk).flatten = k)
    ("chunk ".toList ++ decimal i ++ mapMsg.toList)

/-- `pack_pkg.verify`. -/
def verifyPkg (name : Text) (d : CardDir) (m : PkgManifest) : Except Text Unit := do
  verifyManifest loads d (pkgStem name) m.toJson
  let cards ← (List.range' 1 m.nc).mapM fun ci => readLines d (cardName (pkgStem name) ci)
  let lines := cards.flatten
  assertThat (lines.length = m.nl) "line count mismatch".toList
  let b64 := lines.flatten
  (wrap b64 (m.lc * m.lpk)).zipIdx.forM fun c =>
    verifyChunk sha256 " sha" " card/line map" d (pkgStem name) m.toCardManifest c.1 c.2
  let gz ← orRaise (b64decode b64) "binascii.Error"
  assertThat (sha256 gz = m.bs) "bundle sha".toList
  let raw ← orRaise (decompress gz) "gzip.BadGzipFile"
  assertThat (raw.length = m.rb) "raw size".toList

/-- The lines of ROM card `ci`, none over `lc` characters. -/
def readRomCard (d : CardDir) (lc ci : ℕ) : Except Text (List Text) := do
  let cardLines ← readLines d (cardName romStem ci)
  assertThat (∀ l ∈ cardLines, l.length ≤ lc)
    ("card ".toList ++ decimal ci ++ ": line over lc".toList)
  return cardLines

/-- `pack_rom.verify`: also the line widths, the chunk count, and the bundled files as
Python's tar reader gives them back. -/
def verifyRom (extractfile : Bytes → Text → Option Bytes) (bundle : List RomFile) (d : CardDir)
    (m : RomManifest) : Except Text Unit := do
  verifyManifest loads d romStem m.toJson
  let cards ← (List.range' 1 m.nc).mapM (readRomCard d m.lc)
  let lines := cards.flatten
  assertThat (lines.length = m.nl)
    ("line count ".toList ++ decimal lines.length ++ " != nl ".toList ++ decimal m.nl)
  let b64 := lines.flatten
  let chunks := wrap b64 (m.lc * m.lpk)
  assertThat (chunks.length = m.nk) "chunk count mismatch".toList
  chunks.zipIdx.forM fun c =>
    verifyChunk sha256 " sha mismatch" " card/line map mismatch" d romStem m.toCardManifest c.1 c.2
  let gz ← orRaise (b64decode b64) "binascii.Error"
  assertThat (sha256 gz = m.bs) "bundle sha mismatch".toList
  let raw ← orRaise (decompress gz) "gzip.BadGzipFile"
  assertThat (raw.length = m.rb) "raw size mismatch".toList
  bundle.forM fun e => do
    let got ← orRaise (extractfile raw e.arc) "KeyError"
    assertThat (got = e.data) (e.arc ++ ": content mismatch vs ".toList ++ e.src)

end Verify

/-! ## What a written directory holds -/

theorem cardName_injective (stem : Text) : Function.Injective (cardName stem) := by
  intro i j h
  exact decimal03_injective (List.append_cancel_right (List.append_cancel_left h))

/-- Writing cards numbered from `k` on: a numbered card holds its own lines, every other
file of the directory is as before. -/
theorem foldl_write_apply (stem : Text) (cards : List (List Text)) (k : ℕ) (d : CardDir) (j : ℕ) :
    ((cards.zipIdx k).foldl (fun d c => d.write (cardName stem c.2) (joinLines c.1)) d)
        (cardName stem j)
      = if h : k ≤ j ∧ j - k < cards.length then some (joinLines (cards.get ⟨j - k, h.2⟩))
        else d (cardName stem j) := by
  induction cards generalizing k d with
  | nil => simp
  | cons c cs ih =>
    rw [List.zipIdx_cons, List.foldl_cons, ih]
    rcases Nat.lt_trichotomy j k with hlt | rfl | hgt
    · rw [dif_neg (by omega), dif_neg (by omega), CardDir.write,
        Function.update_of_ne fun h => absurd (cardName_injective stem h) (by omega)]
    · rw [dif_neg (by omega), dif_pos (by simp), CardDir.write, Function.update_self]
      simp
    · have hsub : j - k = (j - (k + 1)) + 1 := by omega
      by_cases hin : j - (k + 1) < cs.length
      · rw [dif_pos ⟨by omega, hin⟩, dif_pos ⟨by omega, by simp; omega⟩]
        simp [hsub]
      · rw [dif_neg (by omega), dif_neg (by simp; omega), CardDir.write,
          Function.update_of_ne fun h => absurd (cardName_injective stem h) (by omega)]

section Written

variable (fnmatch : Text → Text → Bool) (g : Geometry) (stem mjson : Text)
  (cards : List (List Text)) (d : CardDir)

theorem writeCards_manifest :
    writeCards fnmatch g stem mjson cards d (cardName stem 0)
      = some (joinLines (wrap mjson g.lc)) := by
  rw [writeCards, foldl_write_apply, dif_neg (by omega), CardDir.write, Function.update_self]

theorem writeCards_card (i : ℕ) (hi : i < cards.length) :
    writeCards fnmatch g stem mjson cards d (cardName stem (1 + i))
      = some (joinLines cards[i]) := by
  rw [writeCards, foldl_write_apply, dif_pos ⟨by omega, by omega⟩]
  simp

end Written

end OsMoap.Pack
