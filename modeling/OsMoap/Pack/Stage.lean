import OsMoap.Lib.FileRoom
import OsMoap.Pack.Ustar
import Mathlib.Data.List.Perm.Basic
import Mathlib.Data.List.Perm.Lattice

/-!
# Staging Directories

`stage_entries` and `build_gz` of `tools/pack_pkg.py`.  A staging directory is a tree of
regular files, in the order the operating system enumerates it; `os.walk` visits it top down
with sorted names.  `stage_entries` refuses files under `home/` and, where the stage has no
`.PKGINFO`, synthesises one and stores it in the stage.

What the walk yields is, up to its order, the listing of the stage by the components of the
paths (`walk_perm`).  No listed path leads through another (`pairwise_listing`), so the
archive names are distinct, and sorting the entries by name gives one list whatever the order
of enumeration was.

Compression is a parameter.
-/

namespace OsMoap.Pack

open OsMoap.Lib

/-! ## Directories -/

mutual

/-- A directory of regular files, in enumeration order. -/
inductive Dir where
  | mk (files : List (Text × Bytes)) (dirs : Dirs)

/-- The subdirectories of a directory. -/
inductive Dirs where
  | nil
  | cons (name : Text) (dir : Dir) (rest : Dirs)

end

/-- A name a file can have in a directory. -/
def FileName (t : Text) : Prop :=
  t ≠ [] ∧ '/' ∉ t ∧ Char.ofNat 0 ∉ t ∧ t ≠ ".".toList ∧ t ≠ "..".toList

instance (t : Text) : Decidable (FileName t) :=
  inferInstanceAs (Decidable (_ ∧ _ ∧ _ ∧ _ ∧ _))

def Dir.files : Dir → List (Text × Bytes)
  | .mk files _ => files

def Dir.dirs : Dir → Dirs
  | .mk _ dirs => dirs

def Dirs.names : Dirs → List Text
  | .nil => []
  | .cons name _ rest => name :: rest.names

mutual

/-- Every name is a file name, and no directory has two entries of one name. -/
def Dir.WF : Dir → Prop
  | .mk files dirs => (files.map Prod.fst ++ dirs.names).Nodup ∧
      (∀ f ∈ files, FileName f.1) ∧ dirs.WF

def Dirs.WF : Dirs → Prop
  | .nil => True
  | .cons name dir rest => FileName name ∧ dir.WF ∧ rest.WF

end

/-- A staging directory. -/
structure Stage where
  root : Dir
  wf : root.WF

/-! ## `os.walk` -/

/-- The path of a name relative to the stage, from that of its directory. -/
def joinPath (rel name : Text) : Text := if rel = [] then name else rel ++ '/' :: name

/-- Order by name. -/
def byName {α : Type} (a b : Text × α) : Bool := decide (a.1 ≤ b.1)

mutual

/-- The files of `os.walk`, with sorted names, as `(arc, bytes)`. -/
def Dir.walk (rel : Text) : Dir → List TarEntry
  | .mk files dirs =>
    ((files.mergeSort byName).map fun f => (joinPath rel f.1, f.2)) ++
      ((dirs.walks rel).mergeSort byName).flatMap Prod.snd

/-- What each subdirectory yields. -/
def Dirs.walks (rel : Text) : Dirs → List (Text × List TarEntry)
  | .nil => []
  | .cons name dir rest => (name, dir.walk (joinPath rel name)) :: rest.walks rel

end

/-! ## `stage_entries` and `build_gz` -/

/-- The arguments of a package. -/
structure PkgArgs where
  name : Text
  ver : Text
  desc : Text
  deps : List Text

def pkginfoName : Text := ".PKGINFO".toList

/-- `f'{key} = {value}\n'`. -/
def infoLine (key value : Text) : Text := key ++ " = ".toList ++ value ++ ['\n']

/-- The synthesised `.PKGINFO`. -/
def synthesizedInfo (a : PkgArgs) (size : ℕ) : Text :=
  infoLine "pkgname".toList a.name ++ (infoLine "pkgver".toList a.ver ++
    (infoLine "pkgdesc".toList a.desc ++ (infoLine "size".toList (decimal size) ++
      a.deps.flatMap (infoLine "depend".toList))))

/-- The `.PKGINFO` written for these entries. -/
def storedInfo (a : PkgArgs) (entries : List TarEntry) : Bytes :=
  utf8 (synthesizedInfo a (entries.map fun e => e.2.length).sum)

/-- The first component of a path is `home`. -/
def underHome (arc : Text) : Bool := (arc.splitOn '/').head? = some "home".toList

/-- `stage_entries`: the entries, and the stage as it is then. -/
def stageEntries (a : PkgArgs) (stage : Dir) : Except Text (List TarEntry) × Dir :=
  let entries := stage.walk []
  match entries.find? fun e => underHome e.1 with
  | some e => (.error ("pack_pkg: ".toList ++ e.1 ++ (": packages must not ship files under home/ " ++
      "(they would leak into the LinksetData sync)").toList), stage)
  | none =>
    -- a staged `.PKGINFO` is taken as it is
    if entries.any fun e => e.1 = pkginfoName then (.ok entries, stage)
    else if pkginfoName ∈ stage.dirs.names then (.error "IsADirectoryError".toList, stage)
    else
      -- the file is written into the stage, and the next run finds it there
      let info := storedInfo a entries
      (.ok (entries ++ [(pkginfoName, info)]),
        .mk (stage.files ++ [(pkginfoName, info)]) stage.dirs)

/-- `build_tar` of the entries, if there are any to pack. -/
def tarOf (gzip : Bytes → Bytes) : Except Text (List TarEntry) → Except Text (Bytes × Bytes)
  | .error e => .error e
  | .ok entries =>
    match buildTar entries with
    | none => .error "ValueError".toList
    | some raw => .ok (raw, gzip raw)

/-- `build_gz`: the tar and its compression, and the stage as it is then. -/
def buildGz (gzip : Bytes → Bytes) (a : PkgArgs) (stage : Dir) :
    Except Text (Bytes × Bytes) × Dir :=
  ((stageEntries a stage).1 |> tarOf gzip, (stageEntries a stage).2)

/-- The archive can be written when each member can. -/
theorem buildTar_isSome {entries : List TarEntry} (h : ∀ e ∈ entries, (addfile e).isSome) :
    ∃ raw, buildTar entries = some raw := by
  have hall : ∀ es : List TarEntry, (∀ e ∈ es, (addfile e).isSome) →
      ∃ blocks, es.mapM addfile = some blocks := by
    intro es hes
    induction es with
    | nil => exact ⟨[], rfl⟩
    | cons e es ih =>
      obtain ⟨block, hblock⟩ := Option.isSome_iff_exists.mp (hes e List.mem_cons_self)
      obtain ⟨blocks, hblocks⟩ := ih fun e' he' => hes e' (List.mem_cons_of_mem _ he')
      exact ⟨block :: blocks, by simp [List.mapM_cons, hblock, hblocks]⟩
  obtain ⟨blocks, hblocks⟩ := hall (sortEntries entries) fun e he =>
    h e (List.mem_mergeSort.mp he)
  exact ⟨_, by rw [buildTar, hblocks]; rfl⟩

/-! ## The listing -/

mutual

/-- The files of a directory by the components of their paths. -/
def Dir.listing : Dir → List (List Text × Bytes)
  | .mk files dirs => (files.map fun f => ([f.1], f.2)) ++ dirs.listing

def Dirs.listing : Dirs → List (List Text × Bytes)
  | .nil => []
  | .cons name dir rest => (dir.listing.map fun e => (name :: e.1, e.2)) ++ rest.listing

end

theorem joinSlash_cons {cs : List Text} (h : cs ≠ []) (c : Text) :
    joinSlash (c :: cs) = c ++ '/' :: joinSlash cs := by
  obtain ⟨d, ds, rfl⟩ := List.exists_cons_of_ne_nil h
  simp [joinSlash, List.intercalate, List.intersperse]

theorem joinSlash_singleton (c : Text) : joinSlash [c] = c := by
  simp [joinSlash, List.intercalate, List.intersperse]

/-- A path below a named subdirectory. -/
theorem joinPath_joinPath {n : Text} (hn : n ≠ []) {cs : List Text} (hcs : cs ≠ []) (rel : Text) :
    joinPath (joinPath rel n) (joinSlash cs) = joinPath rel (joinSlash (n :: cs)) := by
  rw [joinSlash_cons hcs]
  by_cases hrel : rel = []
  · simp [joinPath, hrel, hn]
  · simp [joinPath, hrel]

mutual

theorem Dir.path_ne_nil : ∀ (d : Dir), ∀ e ∈ d.listing, e.1 ≠ []
  | .mk files dirs => by
    intro e he
    rcases List.mem_append.mp he with he | he
    · obtain ⟨f, -, rfl⟩ := List.mem_map.mp he
      simp
    · exact Dirs.path_ne_nil dirs e he

theorem Dirs.path_ne_nil : ∀ (ds : Dirs), ∀ e ∈ ds.listing, e.1 ≠ []
  | .nil => by simp [Dirs.listing]
  | .cons name dir rest => by
    intro e he
    rcases List.mem_append.mp he with he | he
    · obtain ⟨e', -, rfl⟩ := List.mem_map.mp he
      simp
    · exact Dirs.path_ne_nil rest e he

end

/-- An entry of the listing, as `os.walk` names it from a directory. -/
def arcFrom (rel : Text) (e : List Text × Bytes) : TarEntry := (joinPath rel (joinSlash e.1), e.2)

mutual

/-- **The walk** yields the listing, in some order. -/
theorem Dir.walk_perm : ∀ (d : Dir), d.WF → ∀ rel,
    (d.walk rel).Perm (d.listing.map (arcFrom rel))
  | .mk files dirs, hwf, rel => by
    obtain ⟨-, -, hdirs⟩ := hwf
    rw [Dir.walk, Dir.listing, List.map_append]
    refine List.Perm.append ?_ ?_
    · rw [List.map_map]
      have hfun : (arcFrom rel ∘ fun f : Text × Bytes => ([f.1], f.2))
          = fun f => (joinPath rel f.1, f.2) := by
        funext f
        simp [arcFrom, joinSlash_singleton]
      rw [hfun]
      exact (List.mergeSort_perm _ _).map _
    · exact ((List.mergeSort_perm _ _).flatMap_right _).trans (Dirs.walks_perm dirs hdirs rel)

theorem Dirs.walks_perm : ∀ (ds : Dirs), ds.WF → ∀ rel,
    ((ds.walks rel).flatMap Prod.snd).Perm (ds.listing.map (arcFrom rel))
  | .nil, _, _ => by simp [Dirs.walks, Dirs.listing]
  | .cons name dir rest, hwf, rel => by
    obtain ⟨hname, hdir, hrest⟩ := hwf
    rw [Dirs.walks, Dirs.listing, List.flatMap_cons, List.map_append]
    refine List.Perm.append ?_ (Dirs.walks_perm rest hrest rel)
    have hfun : dir.listing.map (arcFrom (joinPath rel name))
        = (dir.listing.map fun e => (name :: e.1, e.2)).map (arcFrom rel) := by
      rw [List.map_map]
      refine List.map_congr_left fun e he => ?_
      simp [arcFrom, joinPath_joinPath hname.1 (Dir.path_ne_nil dir e he) rel]
    rw [← hfun]
    exact Dir.walk_perm dir hdir _

end

/-! ## No path leads through another -/

mutual

theorem Dir.fileName_of_mem : ∀ (d : Dir), d.WF → ∀ e ∈ d.listing, ∀ c ∈ e.1, FileName c
  | .mk files dirs, hwf => by
    obtain ⟨-, hfiles, hdirs⟩ := hwf
    intro e he c hc
    rcases List.mem_append.mp he with he | he
    · obtain ⟨f, hf, rfl⟩ := List.mem_map.mp he
      obtain rfl := List.mem_singleton.mp hc
      exact hfiles f hf
    · exact Dirs.fileName_of_mem dirs hdirs e he c hc

theorem Dirs.fileName_of_mem : ∀ (ds : Dirs), ds.WF → ∀ e ∈ ds.listing, ∀ c ∈ e.1, FileName c
  | .nil, _ => by simp [Dirs.listing]
  | .cons name dir rest, hwf => by
    obtain ⟨hname, hdir, hrest⟩ := hwf
    intro e he c hc
    rcases List.mem_append.mp he with he | he
    · obtain ⟨e', he', rfl⟩ := List.mem_map.mp he
      rcases List.mem_cons.mp hc with rfl | hc
      · exact hname
      · exact Dir.fileName_of_mem dir hdir e' he' c hc
    · exact Dirs.fileName_of_mem rest hrest e he c hc

end

theorem Dirs.head_mem_names : ∀ (ds : Dirs), ∀ e ∈ ds.listing, ∃ n ∈ ds.names, ∃ p, e.1 = n :: p
  | .nil => by simp [Dirs.listing]
  | .cons name dir rest => by
    intro e he
    rcases List.mem_append.mp he with he | he
    · obtain ⟨e', -, rfl⟩ := List.mem_map.mp he
      exact ⟨name, List.mem_cons_self, e'.1, rfl⟩
    · obtain ⟨n, hn, p, hp⟩ := Dirs.head_mem_names rest e he
      exact ⟨n, List.mem_cons_of_mem _ hn, p, hp⟩

mutual

/-- **No path of a stage leads through another.** -/
theorem Dir.pairwise_listing : ∀ (d : Dir), d.WF → d.listing.Pairwise fun a b => Apart a.1 b.1
  | .mk files dirs, hwf => by
    obtain ⟨hnodup, -, hdirs⟩ := hwf
    obtain ⟨hfiles, hnames, hdisj⟩ := List.nodup_append.mp hnodup
    refine List.pairwise_append.mpr ⟨?_, Dirs.pairwise_listing dirs hdirs hnames, ?_⟩
    · refine List.pairwise_map.mpr ((List.pairwise_map.mp hfiles).imp fun hne => ?_)
      exact apart_cons_cons fun heq => absurd heq hne
    · -- a file and what lies in a subdirectory differ in their first name
      intro a ha b hb
      obtain ⟨f, hf, rfl⟩ := List.mem_map.mp ha
      obtain ⟨n, hn, p, hp⟩ := Dirs.head_mem_names dirs b hb
      rw [hp]
      exact apart_cons_cons fun heq => absurd heq (hdisj _ (List.mem_map_of_mem hf) _ hn)

theorem Dirs.pairwise_listing : ∀ (ds : Dirs), ds.WF → ds.names.Nodup →
    ds.listing.Pairwise fun a b => Apart a.1 b.1
  | .nil, _, _ => by simp [Dirs.listing]
  | .cons name dir rest, hwf, hnodup => by
    obtain ⟨-, hdir, hrest⟩ := hwf
    obtain ⟨hfresh, hnodup⟩ := List.nodup_cons.mp hnodup
    refine List.pairwise_append.mpr ⟨?_, Dirs.pairwise_listing rest hrest hnodup, ?_⟩
    · refine List.pairwise_map.mpr ((Dir.pairwise_listing dir hdir).imp fun h => ?_)
      exact apart_cons_cons fun _ => h
    · intro a ha b hb
      obtain ⟨e, -, rfl⟩ := List.mem_map.mp ha
      obtain ⟨n, hn, p, hp⟩ := Dirs.head_mem_names rest b hb
      rw [hp]
      exact apart_cons_cons fun heq => absurd (heq ▸ hn) hfresh

end

/-! ## Archive names -/

/-- The archive entry of a listed file. -/
def arcOf (e : List Text × Bytes) : TarEntry := (joinSlash e.1, e.2)

/-- The components of an archive name. -/
theorem splitOn_joinSlash {cs : List Text} (hne : cs ≠ []) (h : ∀ c ∈ cs, FileName c) :
    (joinSlash cs).splitOn '/' = cs :=
  List.splitOn_intercalate '/' (fun c hc => (h c hc).2.1) hne

theorem joinSlash_injective {as bs : List Text} (has : as ≠ []) (hbs : bs ≠ [])
    (hA : ∀ c ∈ as, FileName c) (hB : ∀ c ∈ bs, FileName c) (h : joinSlash as = joinSlash bs) :
    as = bs := by
  rw [← splitOn_joinSlash has hA, h, splitOn_joinSlash hbs hB]

theorem walk_perm_arcOf {d : Dir} (hd : d.WF) : (d.walk []).Perm (d.listing.map arcOf) := by
  have hfun : d.listing.map (arcFrom []) = d.listing.map arcOf := rfl
  rw [← hfun]
  exact Dir.walk_perm d hd []

/-- The archive names of a stage are distinct. -/
theorem nodup_arcs {d : Dir} (hd : d.WF) : ((d.walk []).map Prod.fst).Nodup := by
  have hperm := (walk_perm_arcOf hd).map Prod.fst
  rw [List.map_map] at hperm
  refine hperm.nodup_iff.mpr (List.pairwise_map.mpr ?_)
  refine (Dir.pairwise_listing d hd).imp_of_mem fun {a b} ha hb hab heq => hab.ne ?_
  exact joinSlash_injective (Dir.path_ne_nil d a ha) (Dir.path_ne_nil d b hb)
    (Dir.fileName_of_mem d hd a ha) (Dir.fileName_of_mem d hd b hb) heq

/-- Sorting by distinct names forgets the order of the list. -/
theorem mergeSort_byName_congr {α : Type} {l l' : List (Text × α)} (hperm : l.Perm l')
    (hnodup : (l.map Prod.fst).Nodup) : l.mergeSort byName = l'.mergeSort byName := by
  have htrans : ∀ a b c : Text × α, byName a b = true → byName b c = true → byName a c = true := by
    intro a b c hab hbc
    simp only [byName, decide_eq_true_eq] at hab hbc ⊢
    exact le_trans hab hbc
  have htotal : ∀ a b : Text × α, (byName a b || byName b a) = true := by
    intro a b
    simp only [byName, Bool.or_eq_true, decide_eq_true_eq]
    exact le_total a.1 b.1
  have hsorts : (l.mergeSort byName).Perm (l'.mergeSort byName) :=
    (List.mergeSort_perm l byName).trans (hperm.trans (List.mergeSort_perm l' byName).symm)
  refine List.Perm.eq_of_pairwise ?_ (List.pairwise_mergeSort htrans htotal l)
    (List.pairwise_mergeSort htrans htotal l') hsorts
  intro a b ha hb hab hba
  simp only [byName, decide_eq_true_eq] at hab hba
  have ha : a ∈ l := List.mem_mergeSort.mp ha
  have hb : b ∈ l := hperm.mem_iff.mpr (List.mem_mergeSort.mp hb)
  have hname : a.1 = b.1 := le_antisymm hab hba
  exact List.inj_on_of_nodup_map hnodup ha hb hname

end OsMoap.Pack
