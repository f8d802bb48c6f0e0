import OsMoap.Apk.Database
import OsMoap.Apk.Runs
import Mathlib.Data.List.Nodup

/-!
# `apk`: the World Tracks What the User Asked For

`/etc/apk/world` is updated by four paths: `do_add` records a name, unless the name is already
installed; `do_del` drops it; a line of `upgrade` does both.  Three searches take part: whole
lines (`in_lines`), the end of a database line (`do_add`, `do_del`), and the end of a world line
(`do_del`).

Along every run that meets the conditions of `worldSafe`, the lines of the world are, without
repetition, the names whose last successful `add` or `del` was an `add` (`worldInv_keeps`).
-/

namespace OsMoap.Apk

open OsMoap.Lib
open OsMoap.Pack (Bytes)

/-! ## Searching the world -/

/-- A package name: not empty, without blanks, line ends and NUL. -/
def PkgName (n : Bytes) : Prop := n ≠ [] ∧ 32 ∉ n ∧ Plain n

instance (n : Bytes) : Decidable (PkgName n) := inferInstanceAs (Decidable (_ ∧ _ ∧ _))

/-- The first line that ends in a name is the name itself. -/
def TakesLine (ws : List Bytes) (n : Bytes) : Prop := ws.find? (fun l => n.isSuffixOf l) = some n

instance (ws : List Bytes) (n : Bytes) : Decidable (TakesLine ws n) :=
  inferInstanceAs (Decidable (_ = _))

/-- `in_lines` compares a name with one line and goes on behind it. -/
theorem inLines_line {n l : Bytes} (hn : nl ∉ n) (hl : PkgName l) (rest : Bytes) :
    inLines (l ++ nl :: rest) n = true ↔ n = l ∨ inLines rest n = true := by
  rw [inLines, lineStarts_line nl hl.2.2.1, List.any_cons, Bool.or_eq_true]
  refine or_congr ⟨fun h => ?_, ?_⟩ Iff.rfl
  · obtain ⟨hpre, hnext⟩ := Bool.and_eq_true_iff.mp h
    obtain ⟨tail, htail⟩ := List.isPrefixOf_iff_prefix.mp hpre
    rcases List.append_eq_append_iff.mp htail with ⟨c, rfl, htail'⟩ | ⟨c, rfl, heq⟩
    · rw [← htail, List.drop_left] at hnext
      cases c with
      | nil => simp
      | cons d c =>
        -- the byte behind the name would be one of the line
        subst htail'
        simp only [List.cons_append, List.head?_cons, Bool.or_eq_true, decide_eq_true_eq] at hnext
        rcases hnext with rfl | rfl
        · exact absurd (by simp) hl.2.2.1
        · exact absurd (by simp) hl.2.1
    · cases c with
      | nil => simp
      | cons d c =>
        rw [List.cons_append] at heq
        obtain ⟨rfl, -⟩ := List.cons.inj heq
        exact absurd (by simp) hn
  · rintro rfl
    have hpre : n.isPrefixOf (n ++ nl :: rest) = true :=
      List.isPrefixOf_iff_prefix.mpr (List.prefix_append _ _)
    rw [hpre, List.drop_left]
    rfl

/-- `in_lines` finds whole lines. -/
theorem inLines_unlines {ws : List Bytes} {n : Bytes} (hn : nl ∉ n) (hws : ∀ l ∈ ws, PkgName l) :
    inLines (unlines nl ws) n = true ↔ n ∈ ws := by
  induction ws with
  | nil => simp [inLines, lineStarts, afterLineEnds]
  | cons l ws ih =>
    rw [unlines_cons, inLines_line hn (hws l List.mem_cons_self),
      ih fun l' hl' => hws l' (List.mem_cons_of_mem _ hl'), List.mem_cons]

/-- `do_del` takes a name out of the world when the first line that ends in it is the name,
and otherwise leaves the world as it is. -/
theorem dropFromWorld_unlines {ws : List Bytes} {n : Bytes} (hn : nl ∉ n)
    (hws : ∀ l ∈ ws, nl ∉ l) :
    (¬ TakesLine ws n ∧ dropFromWorld (unlines nl ws) n = none) ∨
      (TakesLine ws n ∧ ∃ as bs, ws = as ++ n :: bs ∧
        dropFromWorld (unlines nl ws) n = some (unlines nl (as ++ bs))) := by
  unfold TakesLine dropFromWorld
  rcases findSub_unlines nl hn hws with ⟨hnone, hno⟩ | ⟨pre, w, post, hsplit, hpre, hsome⟩
  · left
    rw [List.find?_eq_none.mpr fun l hl => by simpa using hno l hl, hnone]
    simp
  · have hfind : ws.find? (fun l => n.isSuffixOf l) = some (w ++ n) := by
      rw [hsplit, List.find?_append, List.find?_eq_none.mpr fun l hl => by simpa using hpre l hl]
      simp [List.isSuffixOf_iff_suffix]
    rw [hfind, hsome]
    -- `hit == w || hit[-1] == '\n'`: the name is the whole line
    by_cases hw : w = []
    · right
      subst hw
      refine ⟨rfl, pre, post, hsplit, ?_⟩
      have hstart : unlines nl pre ++ [] = [] ∨ (unlines nl pre ++ []).getLast? = some nl := by
        rw [List.append_nil]
        rcases List.eq_nil_or_concat pre with rfl | ⟨init, l, rfl⟩
        · exact Or.inl rfl
        · right
          rw [List.concat_eq_append, unlines_append, unlines_cons, unlines_nil,
            List.getLast?_append, List.getLast?_append]
          simp
      simp only [if_pos hstart]
      have hdrop : (n ++ nl :: unlines nl post).drop (n.length + 1) = unlines nl post := by
        rw [← List.drop_drop, List.drop_left, List.drop_one, List.tail_cons]
      rw [List.append_nil, hdrop, unlines_append]
    · left
      have hne : w ++ n ≠ n := fun heq => hw (by simpa using heq)
      have hlast : ¬ (unlines nl pre ++ w = [] ∨ (unlines nl pre ++ w).getLast? = some nl) := by
        rintro (h | h)
        · exact hw (List.append_eq_nil_iff.mp h).2
        · rw [List.getLast?_append, List.getLast?_eq_some_getLast hw, Option.some_or,
            Option.some.injEq] at h
          refine hws (w ++ n) (by rw [hsplit]; simp) (List.mem_append_left _ ?_)
          rw [← h]
          exact List.getLast_mem hw
      simp only [if_neg hlast]
      exact ⟨by simpa using hne, trivial⟩

/-! ## The world as a list of names -/

/-- The bytes of the world file. -/
def worldRaw (s : State) : Bytes := (s.tree.file worldRef.key).getD []

/-- The world file lists package names, none twice. -/
structure WorldIs (s : State) (ws : List Bytes) : Prop where
  raw : worldRaw s = unlines nl ws
  nodup : ws.Nodup
  names : ∀ n ∈ ws, PkgName n

theorem WorldIs.text {s : State} {ws : List Bytes} (h : WorldIs s ws) :
    textOf s.tree.file worldRef.key = unlines nl ws := by
  rw [textOf, ← worldRaw, h.raw, cstr_unlines fun l hl => (h.names l hl).2.2]

/-- What a loop over the world visits. -/
theorem WorldIs.tokens {s : State} {ws : List Bytes} (h : WorldIs s ws) :
    tokens nl (readFileOrEmpty s worldPath) = ws := by
  rw [readFileOrEmpty_world, h.text]
  exact tokens_unlines nl fun l hl => ⟨(h.names l hl).2.2.1, (h.names l hl).1⟩

theorem WorldIs.of_eq {s s' : State} {ws : List Bytes} (h : WorldIs s ws)
    (heq : s'.tree.file worldRef.key = s.tree.file worldRef.key) : WorldIs s' ws :=
  ⟨by rw [worldRaw, heq, ← worldRaw, h.raw], h.nodup, h.names⟩

/-- A world with a line is there. -/
theorem file_world_isSome {s : State} {ws : List Bytes} {n : Bytes}
    (hraw : worldRaw s = unlines nl ws) (hn : n ∈ ws) : (s.tree.file worldRef.key).isSome := by
  cases hf : s.tree.file worldRef.key with
  | some b => rfl
  | none =>
    obtain ⟨as, bs, rfl⟩ := List.append_of_mem hn
    simp [worldRaw, hf] at hraw

/-- No member of an archive is the world. -/
def SparesWorld (content : Bytes) : Prop :=
  ∀ m ∈ members content, keyOf (absPath m.1) ≠ some worldRef.key

theorem sparesWorld_nil : SparesWorld [] := by
  have hnil : members [] = [] := by decide
  rw [SparesWorld, hnil]
  simp

/-- Recording a name either leaves the world file alone or appends the line. -/
theorem world_recordText {s s' : State} {ws : List Bytes} {n : Bytes} {recordWorld : Bool}
    (hraw : worldRaw s = unlines nl ws)
    (h : s'.tree.file worldRef.key = recordText s.tree.file recordWorld n worldRef.key) :
    (¬ (recordWorld = true ∧ inLines (textOf s.tree.file worldRef.key) n = false) ∧
      s'.tree.file worldRef.key = s.tree.file worldRef.key) ∨
    ((recordWorld = true ∧ inLines (textOf s.tree.file worldRef.key) n = false) ∧
      worldRaw s' = unlines nl (ws ++ [n])) := by
  rw [recordText] at h
  split_ifs at h with hnew
  · refine Or.inr ⟨hnew, ?_⟩
    rw [worldRaw, h, appendText, Function.update_self, Option.getD_some, ← worldRaw, hraw]
    simp
  · exact Or.inl ⟨hnew, h⟩

/-- An installation that returns has recorded the name if asked to; one that dies has not
touched the world. -/
theorem WorldIs.install {s s' : State} {ws : List Bytes} {name : Bytes} {recordWorld : Bool}
    {r : Option ℕ} (hs : WorldIs s ws) (hname : PkgName name) (harch : SparesWorld (archive s))
    (h : installTarFile name recordWorld s = (r, s')) :
    (r = none ∧ WorldIs s' ws) ∨
      (r = some 0 ∧ WorldIs s' (if recordWorld = true ∧ name ∉ ws then ws ++ [name] else ws)) := by
  obtain ⟨ms, ver, desc, hpre, -, -, -, -, -, hout⟩ := installTarFile_spec h
  rcases hout.world fun m hm => harch m (hpre.subset hm) with ⟨hr, hworld⟩ | ⟨hr, hworld⟩
  · exact Or.inl ⟨hr, hs.of_eq hworld⟩
  · refine Or.inr ⟨hr, ?_⟩
    have hin : inLines (textOf s.tree.file worldRef.key) name = false ↔ name ∉ ws := by
      rw [hs.text, ← inLines_unlines hname.2.2.1 hs.names, Bool.not_eq_true]
    rcases world_recordText hs.raw hworld with ⟨hold, hworld⟩ | ⟨hnew, hraw⟩
    · rw [hin] at hold
      rw [if_neg hold]
      exact hs.of_eq hworld
    · rw [hin] at hnew
      rw [if_pos hnew]
      refine ⟨hraw, ?_, fun n hn => ?_⟩
      · rw [List.nodup_append]
        refine ⟨hs.nodup, List.nodup_singleton _, fun a ha b hb heq => hnew.2 ?_⟩
        rwa [← List.mem_singleton.mp hb, ← heq]
      · rcases List.mem_append.mp hn with hn | hn
        · exact hs.names n hn
        · rw [List.mem_singleton.mp hn]
          exact hname

/-- Removing a name does not unlink the world. -/
def RemovalSparesWorld (host : Host) (db q : Bytes) : Prop :=
  ∀ before stanza after, located db q = some (before, stanza, after) →
    ∀ p ∈ doomed host stanza, keyOf p ≠ some worldRef.key

/-- What a removal makes of the world file: a line goes if it is found. -/
theorem world_doDel {host : Host} {s s' : State} {ws : List Bytes} {q : Bytes} {r : Option ℕ}
    (htext : textOf s.tree.file worldRef.key = unlines nl ws) (hq : nl ∉ q)
    (hws : ∀ l ∈ ws, nl ∉ l) (hspare : RemovalSparesWorld host (textOf s.tree.file dbRef.key) q)
    (h : doDel host q s = (r, s')) :
    (r = some 1 ∧ s'.tree = s.tree) ∨
      (r = some 0 ∧ ((¬ TakesLine ws q ∧ s'.tree.file worldRef.key = s.tree.file worldRef.key) ∨
        (TakesLine ws q ∧ ∃ as bs, ws = as ++ q :: bs ∧
          s'.tree.file worldRef.key = some (unlines nl (as ++ bs))))) := by
  obtain ⟨-, ⟨-, hr, htree⟩ | ⟨before, stanza, after, hloc, hr, -, f, rfl, hfile⟩⟩ := doDel_cases h
  · exact Or.inl ⟨hr, htree⟩
  · refine Or.inr ⟨hr, ?_⟩
    have hkeep : Function.update ((doomed host stanza).foldl unlinkPath s.tree).file dbRef.key
        (some (before ++ after)) worldRef.key = s.tree.file worldRef.key := by
      rw [Function.update_of_ne dbRef_ne_worldRef.symm]
      exact (foldl_unlinkPath _ _).1 _ (hspare before stanza after hloc)
    have htext' : textOf (Function.update ((doomed host stanza).foldl unlinkPath s.tree).file
        dbRef.key (some (before ++ after))) worldRef.key = unlines nl ws := by
      rw [textOf, hkeep, ← textOf, htext]
    rw [htext'] at hfile
    rcases dropFromWorld_unlines hq hws with ⟨hno, hdrop⟩ | ⟨hyes, as, bs, rfl, hdrop⟩
    · simp only [hdrop] at hfile
      exact Or.inl ⟨hno, by rw [hfile, hkeep]⟩
    · simp only [hdrop] at hfile
      exact Or.inr ⟨hyes, as, bs, rfl, by rw [hfile, Function.update_self]⟩

/-- A removal takes the name out of the world if its line is found. -/
theorem WorldIs.del {host : Host} {s s' : State} {ws : List Bytes} {q : Bytes} {r : Option ℕ}
    (hs : WorldIs s ws) (hq : PkgName q)
    (hspare : RemovalSparesWorld host (textOf s.tree.file dbRef.key) q)
    (h : doDel host q s = (r, s')) :
    (r = some 1 ∧ s'.tree = s.tree) ∨
      (r = some 0 ∧ WorldIs s' (if TakesLine ws q then ws.erase q else ws)) := by
  refine (world_doDel hs.text hq.2.2.1 (fun l hl => (hs.names l hl).2.2.1) hspare h).imp_right ?_
  rintro ⟨hr, ⟨hno, hsame⟩ | ⟨hyes, as, bs, rfl, hsome⟩⟩
  · rw [if_neg hno]
    exact ⟨hr, hs.of_eq hsame⟩
  · rw [if_pos hyes]
    have hq' : q ∉ as := by
      intro hmem
      have hnodup := hs.nodup
      rw [List.nodup_append] at hnodup
      exact hnodup.2.2 q hmem q List.mem_cons_self rfl
    have herase : (as ++ q :: bs).erase q = as ++ bs := by
      rw [List.erase_append_right _ hq', List.erase_cons_head]
    refine ⟨hr, by rw [herase, worldRaw, hsome, Option.getD_some], hs.nodup.erase q, fun n hn => ?_⟩
    exact hs.names n (List.mem_of_mem_erase hn)

/-! ## What the user wants -/

/-- The most recent entry for a name is an addition. -/
def Wanted (h : List (Bytes × Bool)) (n : Bytes) : Prop :=
  ∃ as bs, h = as ++ (n, true) :: bs ∧ ∀ e ∈ bs, e.1 ≠ n

theorem not_wanted_nil (n : Bytes) : ¬ Wanted [] n := by
  rintro ⟨as, bs, h, -⟩
  simp at h

/-- One more entry decides about its own name and no other. -/
theorem wanted_append_singleton {h : List (Bytes × Bool)} {m n : Bytes} {b : Bool} :
    Wanted (h ++ [(m, b)]) n ↔ (n = m ∧ b = true) ∨ (n ≠ m ∧ Wanted h n) := by
  constructor
  · rintro ⟨as, bs, heq, hbs⟩
    rcases List.eq_nil_or_concat bs with rfl | ⟨bs', e, rfl⟩
    · obtain ⟨-, hlast⟩ := List.append_inj' heq rfl
      obtain ⟨rfl, rfl⟩ : m = n ∧ b = true := by simpa using hlast
      exact Or.inl ⟨rfl, rfl⟩
    · rw [List.concat_eq_append] at heq hbs
      have hassoc : as ++ (n, true) :: (bs' ++ [e]) = (as ++ (n, true) :: bs') ++ [e] := by simp
      rw [hassoc] at heq
      obtain ⟨rfl, hlast⟩ := List.append_inj' heq rfl
      obtain rfl : (m, b) = e := by simpa using hlast
      refine Or.inr ⟨fun hnm => hbs (m, b) (by simp) hnm.symm, as, bs', rfl, fun e he => ?_⟩
      exact hbs e (List.mem_append_left _ he)
  · rintro (⟨rfl, rfl⟩ | ⟨hne, as, bs, rfl, hbs⟩)
    · exact ⟨h, [], rfl, by simp⟩
    · refine ⟨as, bs ++ [(m, b)], by simp, fun e he => ?_⟩
      rcases List.mem_append.mp he with he | he
      · exact hbs e he
      · rw [List.mem_singleton.mp he]
        exact fun hnm => hne hnm.symm

/-- The lines of the world are the wanted names, none twice. -/
def WorldInv (h : List (Bytes × Bool)) (s : State) : Prop :=
  ∃ ws, WorldIs s ws ∧ ∀ n, n ∈ ws ↔ Wanted h n

/-! ## Conditions -/

/-- The conditions under which the world tracks what was asked for.
* A recording `add` of a name that is taken for installed finds it in the world.
* A `del` of a name in the world meets no other line that ends in the name before.
* An `upgrade` that takes a line out can put it back: the new archive can be extracted.
* No archive ships the world, and no removed stanza records it as a file. -/
def worldSafe (host : Host) : StepSafe where
  add := fun recordWorld n s => PkgName n ∧
    (recordWorld = true → (findSub (probe n) (readFileOrEmpty s dbPath)).isSome →
      inLines (readFileOrEmpty s worldPath) n = true) ∧
    (findSub (probe n) (readFileOrEmpty s dbPath) = none →
      ∀ tar, host.fetch s.calls n = .ok tar → SparesWorld tar)
  del := fun q s => PkgName q ∧ RemovalSparesWorld host (readFileOrEmpty s dbPath) q ∧
    ((located (readFileOrEmpty s dbPath) q).isSome →
      inLines (readFileOrEmpty s worldPath) q = true →
      TakesLine (tokens nl (readFileOrEmpty s worldPath)) q)
  upgrade := fun ix db line s => Outdated ix db line →
    ∀ tar, host.fetch s.calls line = .ok tar →
      SparesWorld tar ∧ RemovalSparesWorld host (readFileOrEmpty s dbPath) line ∧
      ((located (readFileOrEmpty s dbPath) line).isSome →
        TakesLine (tokens nl (readFileOrEmpty s worldPath)) line →
        Reinstallable host line s tar)

/-! ## Steps -/

theorem WorldInv.of_eq {h : List (Bytes × Bool)} {s s' : State} (hs : WorldInv h s)
    (heq : s'.tree.file worldRef.key = s.tree.file worldRef.key) : WorldInv h s' := by
  obtain ⟨ws, hws, hwant⟩ := hs
  exact ⟨ws, hws.of_eq heq, hwant⟩

/-- The world after a fetch. -/
theorem file_world_of_fetch {s mid : State} {tar : Bytes}
    (h : mid.tree.file = Function.update s.tree.file tartmpRef.key (some tar)) :
    mid.tree.file worldRef.key = s.tree.file worldRef.key := by
  rw [h, Function.update_of_ne worldRef_ne_tartmpRef]

theorem WorldInv.add {host : Host} {h : List (Bytes × Bool)} {n : Bytes} {s : State}
    (hs : WorldInv h s) (hsafe : (worldSafe host).add true n s) :
    WorldInv (h ++ successes true (outcome n (doAdd host true n s).1)) (doAdd host true n s).2 := by
  obtain ⟨hname, hfound, harch⟩ := hsafe
  rw [readFileOrEmpty_db] at hfound harch
  rw [readFileOrEmpty_world] at hfound
  obtain ⟨ws, hws, hwant⟩ := hs
  rcases hadd : doAdd host true n s with ⟨r, s'⟩
  rcases doAdd_cases hadd with ⟨hsome, rfl, htree, -⟩ |
    ⟨hnone, ⟨rfl, htree, -⟩ | ⟨tar, mid, htar, hmid, -, -, hfile, -, hinst⟩⟩
  · -- taken for installed: the name is in the world already
    have hin := hfound rfl hsome
    rw [hws.text, inLines_unlines hname.2.2.1 hws.names] at hin
    refine ⟨ws, hws.of_eq (by rw [htree]), fun m => ?_⟩
    rw [successes_outcome, if_pos rfl, wanted_append_singleton, hwant m]
    by_cases hm : m = n
    · simp [hm, ← hwant n, hin]
    · simp [hm]
  · refine ⟨ws, hws.of_eq (by rw [htree]), fun m => ?_⟩
    rw [successes_outcome, if_neg (by simp), List.append_nil, hwant m]
  · have hmidw := hws.of_eq (file_world_of_fetch hfile)
    rcases hmidw.install hname (hmid ▸ harch hnone tar htar) hinst with ⟨rfl, hws'⟩ | ⟨rfl, hws'⟩
    · refine ⟨ws, hws', fun m => ?_⟩
      rw [successes_outcome, if_neg (by simp), List.append_nil, hwant m]
    · refine ⟨_, hws', fun m => ?_⟩
      rw [successes_outcome, if_pos rfl, wanted_append_singleton, ← hwant m]
      by_cases hm : m = n
      · by_cases hin : n ∈ ws <;> simp [hm, hin]
      · by_cases hin : n ∈ ws <;> simp [hm, hin]

theorem WorldInv.addOnly {host : Host} {h : List (Bytes × Bool)} {n : Bytes} {s : State}
    (hs : WorldInv h s) (hsafe : (worldSafe host).add false n s) :
    WorldInv h (doAdd host false n s).2 := by
  obtain ⟨hname, -, harch⟩ := hsafe
  rw [readFileOrEmpty_db] at harch
  rcases hadd : doAdd host false n s with ⟨r, s'⟩
  rcases doAdd_cases hadd with ⟨-, -, htree, -⟩ |
    ⟨hnone, ⟨-, htree, -⟩ | ⟨tar, mid, htar, hmid, -, -, hfile, -, hinst⟩⟩
  · exact hs.of_eq (by rw [htree])
  · exact hs.of_eq (by rw [htree])
  · obtain ⟨ws, hws, hwant⟩ := hs.of_eq (file_world_of_fetch hfile)
    rcases hws.install hname (hmid ▸ harch hnone tar htar) hinst with ⟨-, hws'⟩ | ⟨-, hws'⟩
    · exact ⟨ws, hws', hwant⟩
    · rw [if_neg (by simp)] at hws'
      exact ⟨ws, hws', hwant⟩

theorem WorldInv.del {host : Host} {h : List (Bytes × Bool)} {q : Bytes} {s : State}
    (hs : WorldInv h s) (hsafe : (worldSafe host).del q s) :
    WorldInv (h ++ successes false (outcome q (doDel host q s).1)) (doDel host q s).2 := by
  obtain ⟨hname, hspare, htake⟩ := hsafe
  obtain ⟨ws, hws, hwant⟩ := hs
  rw [hws.tokens] at htake
  rw [readFileOrEmpty_db] at hspare htake
  rw [readFileOrEmpty_world, hws.text, inLines_unlines hname.2.2.1 hws.names] at htake
  rcases hdel : doDel host q s with ⟨r, s'⟩
  rcases hws.del hname hspare hdel with ⟨rfl, htree⟩ | ⟨rfl, hws'⟩
  · refine ⟨ws, hws.of_eq (by rw [htree]), fun m => ?_⟩
    rw [successes_outcome, if_neg (by simp), List.append_nil, hwant m]
  · have hloc : (located (textOf s.tree.file dbRef.key) q).isSome := by
      obtain ⟨-, ⟨-, hr, -⟩ | ⟨_, _, _, hloc, -⟩⟩ := doDel_cases hdel
      · simp at hr
      · rw [hloc]
        rfl
    refine ⟨_, hws', fun m => ?_⟩
    rw [successes_outcome, if_pos rfl, wanted_append_singleton, ← hwant m]
    by_cases hin : q ∈ ws
    · rw [if_pos (htake hloc hin), hws.nodup.mem_erase_iff]
      simp
    · have hsame : (if TakesLine ws q then ws.erase q else ws) = ws := by
        rw [List.erase_of_not_mem hin, ite_self]
      rw [hsame]
      constructor
      · exact fun hm => Or.inr ⟨fun heq => hin (heq ▸ hm), hm⟩
      · simp

/-- A line of `upgrade` takes the name out and puts it back, or leaves it. -/
theorem WorldInv.upgradeLine {host : Host} {h : List (Bytes × Bool)} {ix db line : Bytes}
    {s₀ s : State} (hs₀ : WorldInv h s₀)
    (hline : line ∈ tokens nl (readFileOrEmpty s₀ worldPath)) (hs : WorldInv h s)
    (hsafe : (worldSafe host).upgrade ix db line s) :
    WorldInv h (upgradeLine host ix db line s).2 := by
  obtain ⟨ws₀, hws₀, hwant₀⟩ := hs₀
  rw [hws₀.tokens] at hline
  have hname := hws₀.names line hline
  obtain ⟨ws, hws, hwant⟩ := hs
  have hin : line ∈ ws := (hwant line).mpr ((hwant₀ line).mp hline)
  rcases hup : Apk.upgradeLine host ix db line s with ⟨r, s'⟩
  rcases upgradeLine_cases hup with ⟨-, -, rfl⟩ |
    ⟨hout, ⟨-, -, htree, -⟩ | ⟨tar, mid, rd, s1, ri, htar, hmid, -, -, hfile, hfetched, hdel, hinst, -⟩⟩
  · exact ⟨ws, hws, hwant⟩
  · exact ⟨ws, hws.of_eq (by rw [htree]), hwant⟩
  · obtain ⟨hspares, hspare, hre⟩ := hsafe hout tar htar
    rw [hws.tokens] at hre
    have hdb : textOf mid.tree.file dbRef.key = textOf s.tree.file dbRef.key := by
      rw [textOf, hfile, Function.update_of_ne dbRef_ne_tartmpRef, textOf]
    rw [readFileOrEmpty_db, ← hdb] at hspare hre
    have hmidw := hws.of_eq (file_world_of_fetch hfile)
    have harch1 : SparesWorld (archive s1) := by
      rcases archive_doDel hdel with harch | harch
      · rwa [harch, hmid]
      · rw [harch]
        exact sparesWorld_nil
    -- whatever is installed next records the name, which the world has or had
    have hinstall : ∀ ws', WorldIs s1 ws' → (ri = none → ws' = ws) →
        (∀ m, m ∈ ws' ∨ m = line ↔ m ∈ ws) → WorldInv h s' := by
      intro ws' hws' hdied hmem
      rcases hws'.install hname harch1 hinst with ⟨hri, hend⟩ | ⟨-, hend⟩
      · rw [hdied hri] at hend
        exact ⟨ws, hend, hwant⟩
      · refine ⟨_, hend, fun m => ?_⟩
        rw [← hwant m, ← hmem m]
        by_cases hl : line ∈ ws'
        · simp only [hl, not_true_eq_false, and_false, if_false]
          exact ⟨Or.inl, fun hm => hm.elim id fun heq => heq ▸ hl⟩
        · simp [hl]
    rcases hmidw.del hname hspare hdel with ⟨-, htree⟩ | ⟨hrd, hws1⟩
    · refine hinstall ws (hmidw.of_eq (by rw [htree])) (fun _ => rfl) fun m => ?_
      exact ⟨fun hm => hm.elim id fun heq => heq ▸ hin, Or.inl⟩
    · by_cases htake : TakesLine ws line
      · rw [if_pos htake] at hws1
        -- the line is gone now, so the installation has to come to its end
        have hret : ri = some 0 := by
          obtain ⟨-, ⟨-, hr, -⟩ | ⟨_, _, _, hloc, -, hle, f, rfl, hfile1⟩⟩ := doDel_cases hdel
          · rw [hr] at hrd
            simp at hrd
          · have hdb1 : (s1.tree.file dbRef.key).isSome := by
              rw [hfile1]
              split
              · simp
              · rw [Function.update_of_ne dbRef_ne_worldRef]
                simp
            have hworld1 : (s1.tree.file worldRef.key).isSome := by
              refine file_isSome_of_le (by decide) hle ?_
              rw [(foldl_unlinkPath _ _).1 _ (hspare _ _ _ hloc)]
              exact file_world_isSome hmidw.raw hin
            have := (hre (by rw [hloc]; rfl) htake).install hfetched hdel hdb1 hworld1
            rw [hinst] at this
            exact this
        refine hinstall _ hws1 (by simp [hret]) fun m => ?_
        rw [hws.nodup.mem_erase_iff]
        by_cases hm : m = line
        · simp [hm, hin]
        · simp [hm]
      · rw [if_neg htake] at hws1
        refine hinstall ws hws1 (fun _ => rfl) fun m => ?_
        exact ⟨fun hm => hm.elim id fun heq => heq ▸ hin, Or.inl⟩

theorem worldInv_keeps (host : Host) : Keeps host (worldSafe host) WorldInv where
  frame := fun _ _ _ htree h => h.of_eq (by rw [htree])
  add := fun _ _ _ h hsafe => h.add hsafe
  addOnly := fun _ _ _ h hsafe => h.addOnly hsafe
  del := fun _ _ _ h hsafe => h.del hsafe
  upgrade := fun _ _ _ _ _ _ h₀ hline h hsafe => h₀.upgradeLine hline h hsafe
  sync := fun _ s h => h.of_eq (file_unlinkPath_of_ne
    (by simpa [keyOf, fileRef_db] using dbRef_ne_worldRef) _)

/-! ## `sync-world` after a reboot -/

/-- An archive can be extracted, not over itself, and the database be opened then. -/
def Installable (t : FileTree Bytes Bytes) (content : Bytes) : Prop :=
  (∀ m ∈ members content, keyOf (absPath m.1) ≠ some tartmpRef.key) ∧ Complete content ∧
    ∃ t', writeMembers t (members content) = some t' ∧
      ((unlinkPath t' tartmp).mkdirs dbRef.dir).Open dbRef

/-- Installing a line of the world: no database line ends in `P:<line>` yet, and a safe
archive is delivered that can be installed. -/
def lineSafe (host : Host) (n : Bytes) (s : State) : Prop :=
  findSub (probe n) (readFileOrEmpty s dbPath) = none ∧
    ∃ tar t, host.fetch s.calls n = .ok tar ∧ fetchedTree s tar = some t ∧ SafeArchive tar ∧
      Installable t tar

/-- Every line of the world can be installed in turn. -/
def SyncSafe (host : Host) (s : State) : Prop :=
  EachSafe (doAdd host false) (lineSafe host)
    (tokens nl (readFileOrEmpty (syncStart s) worldPath)) (syncStart s)

/-- One line is installed and gets its stanza. -/
theorem Holds.doAdd_line {host : Host} {n : Bytes} {s : State} {ss : List Stanza}
    (hs : Holds s ss) (hn : Plain n) (hsafe : lineSafe host n s) :
    ∃ st s', doAdd host false n s = (some 0, s') ∧ st.name = n ∧ Holds s' (ss ++ [st]) := by
  obtain ⟨hprobe, tar, t, htar, ht, hsafe, hno, hc, t', hwrite, hopen⟩ := hsafe
  let s1 := s.say (ascii "(1/1) Installing " ++ n ++ ascii "..." ++ [nl])
  let mid : State := { s1 with tree := t, calls := s.calls + 1 }
  -- the line is safe: fetch, extraction and registration are known to succeed
  have hfetch : osdPkgFetch host n tartmp s1 = (.ok (), mid) := by
    rw [fetchedTree] at ht
    simp only [osdPkgFetch, s1, State.say_calls, State.say_tree, htar, ht]
    rfl
  have hadd : doAdd host false n s = installTarFile n false mid := by
    simp only [doAdd, hprobe]
    rw [show osdPkgFetch host n tartmp _ = _ from hfetch]
  obtain ⟨-, -, -, hok⟩ := osdPkgFetch_spec hfetch
  obtain ⟨tar', htar', harch, hfile, -⟩ := hok rfl
  obtain rfl : tar = tar' := Except.ok.inj (htar.symm.trans htar')
  have hmidfile : mid.tree.file tartmpRef.key = some tar := by
    rw [hfile, Function.update_self]
  have hex := tarExtract_of_extracts hmidfile hno hc hwrite
  have hret : (installTarFile n false mid).1 = some 0 :=
    installTarFile_isSome hex hopen (by simp)
  rcases hinst : installTarFile n false mid with ⟨r, s'⟩
  rw [hinst] at hret
  obtain rfl : r = some 0 := hret
  have hmid : Holds mid ss := by
    have hdb : mid.tree.file dbRef.key = s.tree.file dbRef.key := by
      rw [hfile, Function.update_of_ne dbRef_ne_tartmpRef]
      rfl
    rw [Holds, hdb, hs]
  obtain ⟨st, hst, hholds, -⟩ := hmid.install hn (harch.symm ▸ hsafe) hinst
  refine ⟨st, s', by rw [hadd, hinst], hst, ?_⟩
  rcases hholds with h | ⟨h, -⟩
  · exact h
  · simp at h

/-- A loop over names installs each of them. -/
theorem Holds.each_line {host : Host} {ns : List Bytes} {s : State} {ss : List Stanza}
    (hs : Holds s ss) (hns : ∀ n ∈ ns, Plain n)
    (hsafe : EachSafe (doAdd host false) (lineSafe host) ns s) :
    ∃ new s', each (doAdd host false) ns s = (some (ns.map fun _ => 0), s') ∧
      new.map Stanza.name = ns ∧ Holds s' (ss ++ new) := by
  induction ns generalizing s ss with
  | nil => exact ⟨[], s, rfl, rfl, by simpa using hs⟩
  | cons n ns ih =>
    obtain ⟨hn, hrest⟩ := hsafe
    obtain ⟨st, mid, hadd, hst, hmid⟩ := hs.doAdd_line (hns n List.mem_cons_self) hn
    rw [hadd] at hrest
    obtain ⟨new, s', heach, hnew, hs'⟩ :=
      ih hmid (fun n' hn' => hns n' (List.mem_cons_of_mem _ hn')) (hrest rfl)
    refine ⟨st :: new, s', ?_, by simp [hst, hnew], by simpa using hs'⟩
    rw [each, hadd, Result.andThen_some, heach, Result.andThen_some]
    rfl

/-- **`sync-world`** installs exactly the lines of the world. -/
theorem WorldIs.syncWorld {host : Host} {s : State} {ws : List Bytes} (hs : WorldIs s ws)
    (hsafe : SyncSafe host s) :
    (syncWorld host s).1 = some 0 ∧
      ∃ ss, Holds (syncWorld host s).2 ss ∧ ss.map Stanza.name = ws := by
  have hstart : WorldIs (syncStart s) ws := hs.of_eq (file_unlinkPath_of_ne
    (by simpa [keyOf, fileRef_db] using dbRef_ne_worldRef) _)
  have hempty : Holds (syncStart s) [] := by
    rw [Holds, file_syncStart_db]
    rfl
  unfold SyncSafe at hsafe
  rw [hstart.tokens] at hsafe
  obtain ⟨new, s', heach, hnew, hs'⟩ :=
    hempty.each_line (fun n hn => (hs.names n hn).2.2) hsafe
  have hsync : Apk.syncWorld host s = (some (orAll (ws.map fun _ => 0)), s') := by
    rw [Apk.syncWorld, show { s with tree := unlinkPath s.tree dbPath } = syncStart s from rfl,
      hstart.tokens, heach, Result.andThen_some]
  have hzero : orAll (ws.map fun _ => 0) = 0 := by
    rw [orAll, List.foldl_map]
    simp only [Nat.or_zero]
    exact List.foldl_fixed ws
  rw [hsync, hzero]
  exact ⟨rfl, new, by simpa using hs', hnew⟩

/-- **The world tracks what the user asked for** along every safe run from an empty world, and
when it survives a reboot, `sync-world` reinstalls exactly the names in it. -/
theorem world_tracks_of_safe_run {host : Host} {cmds : List Command} {s : State}
    (hempty : worldRaw s = []) (hsafe : RunSafe host (worldSafe host) cmds s) :
    ∃ ws, WorldIs (runAll host cmds s) ws ∧ (∀ n, n ∈ ws ↔ Wanted (history host cmds s) n) ∧
      ∀ (host' : Host) (boot : State), worldRaw boot = worldRaw (runAll host cmds s) →
        SyncSafe host' boot → (syncWorld host' boot).1 = some 0 ∧
          ∃ ss, Holds (syncWorld host' boot).2 ss ∧ ss.map Stanza.name = ws := by
  have hstart : WorldInv [] s := ⟨[], ⟨hempty, List.nodup_nil, by simp⟩, fun n => by
    simp [not_wanted_nil]⟩
  obtain ⟨ws, hws, hwant⟩ := runAll_inv (h := []) (worldInv_keeps host) hsafe hstart
  rw [List.nil_append] at hwant
  refine ⟨ws, hws, hwant, fun host' boot hboot hsync => ?_⟩
  have hbootw : WorldIs boot ws := ⟨by rw [hboot, hws.raw], hws.nodup, hws.names⟩
  exact hbootw.syncWorld hsync

/-! ## A name that another one ends in -/

/-- `apk add less`, `apk del less`, `apk add nano`. -/
def changeOfMind : List Command :=
  [.add true [ascii "less"], .del [ascii "less"], .add true [ascii "nano"]]

theorem world_tracks_changeOfMind :
    RunSafe bareHost (worldSafe bareHost) changeOfMind bareState ∧
    ∃ ws, WorldIs (runAll bareHost changeOfMind bareState) ws ∧
      ∀ n, n ∈ ws ↔ Wanted (history bareHost changeOfMind bareState) n := by
  have hsafe : RunSafe bareHost (worldSafe bareHost) changeOfMind bareState := by
    refine ⟨⟨⟨by decide, fun _ => ?_, fun _ tar htar => ?_⟩, fun _ => trivial⟩,
      ⟨⟨by decide, ?_, fun _ _ => ?_⟩, fun _ => trivial⟩,
      ⟨⟨by decide, fun _ => ?_, fun _ tar htar => ?_⟩, fun _ => trivial⟩, trivial⟩
    · decide +kernel
    · obtain rfl : [] = tar := Except.ok.inj htar
      exact sparesWorld_nil
    · intro before stanza after hloc
      have hpaths : (located (readFileOrEmpty (runCommand bareHost bareState
          (.add true [ascii "less"])).2 dbPath) (ascii "less")).map (fun c => filePaths c.2.1)
          = some [] := by
        decide +kernel
      rw [hloc, Option.map_some, Option.some.injEq] at hpaths
      rw [doomed, hpaths]
      simp
    · decide +kernel
    · decide +kernel
    · obtain rfl : [] = tar := Except.ok.inj htar
      exact sparesWorld_nil
  obtain ⟨ws, hws, hwant, -⟩ := world_tracks_of_safe_run rfl hsafe
  exact ⟨hsafe, ws, hws, hwant⟩

/-- `apk add unless less` and then `apk del less`. -/
def unlessLess : List Command :=
  [.add true [ascii "unless", ascii "less"], .del [ascii "less"]]

/-- The last successful command about `less` is its removal, and `less` is still a line of the
world: the search for it stopped at the end of `unless`. -/
theorem world_keeps_less :
    worldRaw bareState = [] ∧
    history bareHost unlessLess bareState
      = [(ascii "unless", true), (ascii "less", true), (ascii "less", false)] ∧
    worldRaw (runAll bareHost unlessLess bareState) = ascii "unless\nless\n" ∧
    ¬ ∃ ws, WorldIs (runAll bareHost unlessLess bareState) ws ∧
      ∀ n, n ∈ ws ↔ Wanted (history bareHost unlessLess bareState) n := by
  have hhist : history bareHost unlessLess bareState
      = [(ascii "unless", true), (ascii "less", true), (ascii "less", false)] := by
    decide +kernel
  have hworld : worldRaw (runAll bareHost unlessLess bareState) = ascii "unless\nless\n" := by
    decide +kernel
  refine ⟨rfl, hhist, hworld, ?_⟩
  rintro ⟨ws, hws, hwant⟩
  have hlines : ws = [ascii "unless", ascii "less"] := by
    have htokens := tokens_unlines nl fun l hl => ⟨(hws.names l hl).2.2.1, (hws.names l hl).1⟩
    rw [← hws.raw, hworld] at htokens
    rw [← htokens]
    decide
  have hwanted := (hwant (ascii "less")).mp (by rw [hlines]; simp)
  rw [hhist, show [(ascii "unless", true), (ascii "less", true), (ascii "less", false)]
    = [(ascii "unless", true), (ascii "less", true)] ++ [(ascii "less", false)] from rfl,
    wanted_append_singleton] at hwanted
  simp at hwanted

end OsMoap.Apk
