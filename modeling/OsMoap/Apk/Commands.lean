import OsMoap.Apk.Tar

/-!
# `apk`: the Database and the Commands

`guest/busybox/upstream/miscutils/apk.c`, the rest of the applet: the database
`/lib/apk/db/installed`, the world `/etc/apk/world`, `do_add`, `do_del` and `apk_main`.

The index and the packages come from the page through two host calls; `Host` answers them by
the number of calls made before, so that a host may answer differently each time.  A fetched
package is delivered to `/tmp/.apk.tar` in the shared file tree.
-/

namespace OsMoap.Apk

open OsMoap.Lib
open OsMoap.Pack (Bytes decimal)

/-! ## Files -/

/-- `WORLD`. -/
def worldPath : Bytes := ascii "/etc/apk/world"

/-- `DB`. -/
def dbPath : Bytes := ascii "/lib/apk/db/installed"

/-- `TARTMP`. -/
def tartmp : Bytes := ascii "/tmp/.apk.tar"

/-- `read_file_or_empty`, as the C string its callers see. -/
def readFileOrEmpty (s : State) (path : Bytes) : Bytes := cstr ((readPath s.tree path).getD [])

/-- `append_file`: the directories are made only when the first open fails. -/
def appendFile (path text : Bytes) (s : State) : Result Unit :=
  let append := fun old : Option Bytes => old.getD [] ++ text
  match putPath s.tree path append with
  | some t => (some (), { s with tree := t })
  | none =>
    let t := s.tree.mkdirs (dirname path)
    match putPath t path append with
    | some t' => (some (), { s with tree := t' })
    | none => cantOpen { s with tree := t } path

/-- `write_file`. -/
def writeFile (path text : Bytes) (s : State) : Result Unit :=
  let t := s.tree.mkdirs (dirname path)
  match putPath t path fun _ => text with
  | some t' => (some (), { s with tree := t' })
  | none => cantOpen { s with tree := t } path

/-- `unlink` of an absolute path. -/
def unlinkPath (t : FileTree Bytes Bytes) (path : Bytes) : FileTree Bytes Bytes :=
  match fileRef path with
  | some r => t.unlink r
  | none => t

/-! ## The host -/

/-- The page behind `osd_pkg_index` and `osd_pkg_fetch`, answering the `n`-th call with an
error text or with the index text or the archive; and the directory relative paths start in. -/
structure Host where
  index : ℕ → Except Bytes Bytes
  fetch : ℕ → Bytes → Except Bytes Bytes
  cwd : Bytes

/-- `osd_pkg_fetch`: on success the archive is at `dest`. -/
def osdPkgFetch (host : Host) (name dest : Bytes) (s : State) : Except Bytes Unit × State :=
  -- an error leaves the file tree as it was
  match host.fetch s.calls name with
  | .error e => (.error e, { s with calls := s.calls + 1 })
  | .ok tar =>
    match putPath (s.tree.mkdirs (dirname dest)) dest fun _ => tar with
    | some t => (.ok (), { s with tree := t, calls := s.calls + 1 })
    | none => (.error (ascii "Is a directory"), { s with calls := s.calls + 1 })

/-- `get_index`. -/
def getIndex (host : Host) (s : State) : Result Bytes :=
  let s' := { s with calls := s.calls + 1 }
  match host.index s.calls with
  | .error e => die s' (ascii "index unavailable: " ++ e)
  | .ok ix => (some (cstr ix), s')

/-! ## Looking things up in texts -/

/-- `in_lines`. -/
def inLines (haystack name : Bytes) : Bool :=
  (lineStarts nl haystack).any fun p =>
    name.isPrefixOf p &&
      match (p.drop name.length).head? with
      | none => true
      | some c => c = nl || c = 32

/-- `index_ver`: the second word of the line of a name. -/
def indexVer (ix name : Bytes) : Option Bytes :=
  ((lineStarts nl ix).find? fun p =>
      name.isPrefixOf p && (p.drop name.length).head? = some 32).map fun p =>
    (p.drop (name.length + 1)).takeWhile fun c => c ≠ 32 ∧ c ≠ nl

/-- The text `do_add`, `do_del` and `list` search the database for. -/
def probe (name : Bytes) : Bytes := ascii "P:" ++ name ++ [nl]

/-- `db_ver`: the version behind `P:<name>`. -/
def dbVer (db name : Bytes) : Option Bytes :=
  let probe := probe name ++ ascii "V:"
  (findSub probe db).map fun hit => (hit.2.drop probe.length).takeWhile (· ≠ nl)

/-- `pi_get`: the value starts three bytes behind the key, whatever the third one is. -/
def piGet (pi key : Bytes) : Bytes :=
  match (lineStarts nl pi).find? fun p =>
      key.isPrefixOf p && (ascii " =").isPrefixOf (p.drop key.length) with
  | some p => (p.drop (key.length + 3)).takeWhile (· ≠ nl)
  | none => ascii "?"

/-! ## Installing and removing -/

/-- The stanza `install_tar_file` writes. -/
def stanzaText (name ver desc files : Bytes) : Bytes :=
  ascii "P:" ++ name ++ [nl] ++ (ascii "V:" ++ ver ++ [nl]) ++ (ascii "T:" ++ desc ++ [nl]) ++
    files ++ [nl]

/-- Record a name in the world unless it is there. -/
def recordInWorld (name : Bytes) (s : State) : Result Unit :=
  if inLines (readFileOrEmpty s worldPath) name then (some (), s)
  else appendFile worldPath (name ++ [nl]) s

/-- `install_tar_file`: extract and register the archive at `TARTMP`. -/
def installTarFile (name : Bytes) (recordWorld : Bool) (s : State) : Result ℕ :=
  (tarExtract tartmp s).andThen fun (files, pkginfo) s =>
    let s := { s with tree := unlinkPath s.tree tartmp }
    let pkginfo := pkginfo.getD []
    let ver := piGet pkginfo (ascii "pkgver")
    let desc := piGet pkginfo (ascii "pkgdesc")
    (appendFile dbPath (stanzaText name ver desc files) s).andThen fun _ s =>
      (if recordWorld then recordInWorld name s else (some (), s)).andThen fun _ s =>
        (some 0, s.say (ascii "OK: " ++ name ++ ascii " installed" ++ [nl]))

/-- `do_add`. -/
def doAdd (host : Host) (recordWorld : Bool) (name : Bytes) (s : State) : Result ℕ :=
  match findSub (probe name) (readFileOrEmpty s dbPath) with
  | some _ => (some 0, s.say (name ++ ascii ": already installed" ++ [nl]))
  | none =>
    let s := s.say (ascii "(1/1) Installing " ++ name ++ ascii "..." ++ [nl])
    match osdPkgFetch host name tartmp s with
    | (.error e, s) =>
      (some 1, s.say (ascii "apk: " ++ name ++ ascii ": fetch failed: " ++ e ++ [nl]))
    | (.ok _, s) => installTarFile name recordWorld s

/-- The stanza that starts at the hit: up to and with the first blank line, and what follows. -/
def cutStanza (st : Bytes) : Bytes × Bytes :=
  match findSub [nl, nl] st with
  | some (body, rest) => (body ++ rest.take 2, rest.drop 2)
  | none => (st, [])

/-- The path on an `F:` line. -/
def pathOfLine (l : Bytes) : Option Bytes :=
  if (ascii "F:").isPrefixOf l then some (l.drop 2) else none

/-- The paths on the `F:` lines of a text. -/
def filePaths (text : Bytes) : List Bytes := (lines nl text).filterMap pathOfLine

/-- The path `unlink` resolves for a text. -/
def absolutize (cwd path : Bytes) : Bytes :=
  if path.head? = some slash then path else cwd ++ (slash :: path)

/-- Drop a name from the world text: the first `<name>\n`, if it starts a line. -/
def dropFromWorld (w name : Bytes) : Option Bytes :=
  match findSub (name ++ [nl]) w with
  | none => none
  | some (before, hit) =>
    if before = [] ∨ before.getLast? = some nl then some (before ++ hit.drop (name.length + 1))
    else none

/-- The end of `do_del`: rewrite the world without the name. -/
def forgetInWorld (name : Bytes) (s : State) : Result Unit :=
  match dropFromWorld (readFileOrEmpty s worldPath) name with
  | none => (some (), s)
  | some w => writeFile worldPath w s

/-- `do_del`. -/
def doDel (host : Host) (name : Bytes) (s : State) : Result ℕ :=
  match findSub (probe name) (readFileOrEmpty s dbPath) with
  | none => (some 1, s.say (ascii "apk: " ++ name ++ ascii ": not installed" ++ [nl]))
  | some (before, st) =>
    let (stanza, after) := cutStanza st
    let paths := (filePaths stanza).map (absolutize host.cwd)
    let s := { s with tree := paths.foldl unlinkPath s.tree }
    (writeFile dbPath (before ++ after) s).andThen fun _ s =>
      (forgetInWorld name s).andThen fun _ s =>
        (some 0, s.say (ascii "OK: " ++ name ++ ascii " removed" ++ [nl]))

/-! ## `apk_main` -/

/-- `%d`. -/
def asciiDecimal (n : ℕ) : Bytes := (decimal n).map fun c => UInt8.ofNat c.toNat

/-- Call `f` on each argument in turn, until it dies. -/
def each {β : Type} (f : Bytes → State → Result β) : List Bytes → State → Result (List β)
  | [], s => (some [], s)
  | n :: ns, s => (f n s).andThen fun b s => (each f ns s).andThen fun bs s => (some (b :: bs), s)

/-- `rc |= ...` over the calls. -/
def orAll (rcs : List ℕ) : ℕ := rcs.foldl (· ||| ·) 0

/-- One world line of `upgrade`: the status, and how many packages it upgraded.  `ix` and `db`
are the texts read before the loop. -/
def upgradeLine (host : Host) (ix db line : Bytes) (s : State) : Result (ℕ × ℕ) :=
  match indexVer ix line, dbVer db line with
  | some iv, some dv =>
    if iv.head? ≠ some 63 ∧ iv ≠ dv then
      let s := s.say (ascii "(1/1) Upgrading " ++ line ++ [32] ++ dv ++ ascii " -> " ++ iv ++
        ascii "..." ++ [nl])
      match osdPkgFetch host line tartmp s with
      | (.error e, s) =>
        (some (1, 0), s.say (ascii "apk: " ++ line ++
          ascii ": fetch failed (old version kept): " ++ e ++ [nl]))
      | (.ok _, s) =>
        (doDel host line s).andThen fun _ s =>
          (installTarFile line true s).andThen fun rc s => (some (rc, 1), s)
    else (some (0, 0), s)
  | _, _ => (some (0, 0), s)

/-- `apk upgrade`. -/
def upgrade (host : Host) (s : State) : Result ℕ :=
  (getIndex host s).andThen fun ix s =>
    let db := readFileOrEmpty s dbPath
    let w := readFileOrEmpty s worldPath
    (each (upgradeLine host ix db) (tokens nl w) s).andThen fun rs s =>
      (some (orAll (rs.map Prod.fst)),
        s.say (ascii "OK: " ++ asciiDecimal (rs.map Prod.snd).sum ++
          ascii " package(s) upgraded" ++ [nl]))

/-- `apk sync-world`. -/
def syncWorld (host : Host) (s : State) : Result ℕ :=
  let s := { s with tree := unlinkPath s.tree dbPath }
  (each (doAdd host false) (tokens nl (readFileOrEmpty s worldPath)) s).andThen fun rcs s =>
    (some (orAll rcs), s)

/-- The name `list` takes from an index line: 63 bytes at most, up to the first space. -/
def listName (line : Bytes) : Bytes := (line.take 63).takeWhile (· ≠ 32)

/-- One line of `list` and `search`. -/
def listLine (db line : Bytes) : Bytes :=
  line ++ (if (findSub (probe (listName line)) db).isSome then ascii " [installed]" else []) ++ [nl]

/-- `apk list` and `apk search`. -/
def list (host : Host) (filter : Option Bytes) (s : State) : Result ℕ :=
  (getIndex host s).andThen fun ix s =>
    let db := readFileOrEmpty s dbPath
    let shown := (tokens nl ix).filter fun line =>
      match filter with
      | none => true
      | some f => (findSub f line).isSome
    (some 0, s.say (shown.flatMap (listLine db)))

/-- `apk update`. -/
def update (host : Host) (s : State) : Result ℕ :=
  (getIndex host s).andThen fun ix s =>
    (some 0, s.say (ascii "OK: " ++ asciiDecimal (ix.count nl) ++
      ascii " packages available" ++ [nl]))

/-- `apk info`. -/
def info (host : Host) (name : Bytes) (s : State) : Result ℕ :=
  (getIndex host s).andThen fun ix s =>
    match (tokens nl ix).find? fun line =>
        name.isPrefixOf line && (line.drop name.length).head? = some 32 with
    | some line => (some 0, s.say (line ++ [nl]))
    | none => (some 1, s.say (ascii "apk: " ++ name ++ ascii ": no such package" ++ [nl]))

/-- What the arguments ask for. -/
inductive Command where
  | add (recordWorld : Bool) (names : List Bytes)
  | del (names : List Bytes)
  | upgrade
  | syncWorld
  | update
  | list (filter : Option Bytes)
  | info (name : Bytes)
  | usage

/-- `apk_main`'s reading of `argv[1..]`. -/
def parseArgs : List Bytes → Command
  | [] => .usage
  | cmd :: args =>
    if cmd = ascii "update" then .update
    else if cmd = ascii "list" ∨ cmd = ascii "search" then .list args.head?
    else if cmd = ascii "info" then
      match args with
      | name :: _ => .info name
      | [] => .usage
    else if cmd = ascii "add" then
      match args with
      | [] => .usage
      | first :: rest =>
        if first = ascii "--no-world" then (if rest = [] then .usage else .add false rest)
        else .add true (first :: rest)
    else if cmd = ascii "del" then (if args = [] then .usage else .del args)
    else if cmd = ascii "upgrade" then .upgrade
    else if cmd = ascii "sync-world" then .syncWorld
    else .usage

/-- One command; `none` when the applet dies, as it does after printing its usage. -/
def runCommand (host : Host) (s : State) : Command → Result ℕ
  | .add recordWorld names =>
    (each (doAdd host recordWorld) names s).andThen fun rcs s => (some (orAll rcs), s)
  | .del names => (each (doDel host) names s).andThen fun rcs s => (some (orAll rcs), s)
  | .upgrade => upgrade host s
  | .syncWorld => syncWorld host s
  | .update => update host s
  | .list filter => list host filter s
  | .info name => info host name s
  | .usage => (none, s)

/-- `apk_main`. -/
def apkMain (host : Host) (argv : List Bytes) (s : State) : Result ℕ :=
  runCommand host s (parseArgs argv)

end OsMoap.Apk
