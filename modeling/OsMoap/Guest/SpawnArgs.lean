import OsMoap.Lib.Lines
import Mathlib.Data.BitVec

/-!
# What Reaches the Host of a Spawn

`osd_flatten` and `osd_spawn` of `guest/busybox/wasi-compat/wasi-compat.c`.  A list of strings
goes to the host as one buffer, each string with its NUL, and the program as a path that the guest
makes absolute because the host knows no current directory.

- the buffer is the strings and nothing else: the size loop counts what the copy loop writes, and
  the host splits at the NULs (`osdFlatten_lossless`)
- the path is made absolute where it fits the buffers, and handed over as it is otherwise
  (`osdSpawn_iff`)

The allocator and the host are parameters.
-/

namespace OsMoap.Guest

open OsMoap.Lib

/-- The bytes of a C string, without the NUL that ends it. -/
structure CString where
  bytes : List UInt8
  nul_free : 0 ∉ bytes
  deriving DecidableEq

namespace CString

def strlen (s : CString) : ℕ := s.bytes.length

theorem bytes_injective : Function.Injective bytes := by
  rintro ⟨b, hb⟩ ⟨c, hc⟩ rfl
  rfl

end CString

/-- A NULL-terminated array of strings, or NULL. -/
abbrev StringList := Option (List CString)

/-- `malloc`: no block, or one of the size asked for that holds anything. -/
structure Malloc where
  block : ℕ → Option (List UInt8)
  size : ∀ {n b}, block n = some b → b.length = n

/-! ## `osd_flatten` -/

/-- The loop that sums the sizes, in an `int`. -/
def flatSize : List CString → BitVec 32 → BitVec 32
  | [], n => n
  | s :: rest, n => flatSize rest (n + BitVec.ofNat 32 (s.strlen + 1))

/-- `memcpy` into a block; `none` where it would write behind the end. -/
def memcpy (buf : List UInt8) (w : ℕ) (src : List UInt8) : Option (List UInt8) :=
  if w + src.length ≤ buf.length then
    some (buf.take w ++ (src ++ buf.drop (w + src.length)))
  else none

/-- The loop that copies: the block and how far it is written. -/
def copyStrings : List CString → List UInt8 → ℕ → Option (List UInt8 × ℕ)
  | [], buf, w => some (buf, w)
  | s :: rest, buf, w => do
    let buf ← memcpy buf w (s.bytes ++ [0])
    copyStrings rest buf (w + (s.strlen + 1))

/-- What `osd_flatten` returns and leaves in `*out`, with the size of the block and the bytes
written to it. -/
structure Flat where
  ret : ℤ
  out : Option (List UInt8)
  allocated : ℕ
  written : ℕ
  deriving DecidableEq

/-- The bytes behind a pointer and a length, as the host gets them. -/
def Flat.buffer (r : Flat) : List UInt8 := r.out.getD []

/-- `osd_flatten`; `none` where it writes behind its block. -/
def osdFlatten (malloc : Malloc) (list : StringList) : Option Flat :=
  let strings := list.getD []
  let n := flatSize strings 0
  -- no strings, or none at all: `malloc` is not called
  if n = 0 then some ⟨0, none, 0, 0⟩
  else
    match malloc.block n.toNat with
    | none => some ⟨-1, none, 0, 0⟩
    | some buf => do
      let (bytes, w) ← copyStrings strings buf 0
      return ⟨n.toInt, some bytes, n.toNat, w⟩

/-- The size of the strings with their NULs. -/
def totalLength (strings : List CString) : ℕ := (strings.map fun s => s.strlen + 1).sum

/-- The size fits an `int`. -/
def FitsInt (list : StringList) : Prop := totalLength (list.getD []) < 2 ^ 31

/-- The texts before each NUL. -/
def splitNul (buf : List UInt8) : List (List UInt8) := (lines 0 buf).dropLast

/-- What the buffer should be. -/
def flatten (strings : List CString) : List UInt8 := unlines 0 (strings.map CString.bytes)

@[simp]
theorem flatten_nil : flatten [] = [] := rfl

theorem flatten_cons (s : CString) (rest : List CString) :
    flatten (s :: rest) = (s.bytes ++ [0]) ++ flatten rest := by
  simp [flatten]

theorem length_flatten (strings : List CString) : (flatten strings).length = totalLength strings := by
  induction strings with
  | nil => rfl
  | cons s rest ih =>
    rw [flatten_cons, List.length_append, ih]
    simp [totalLength, CString.strlen]

/-- The host reads the strings back. -/
theorem splitNul_flatten (strings : List CString) :
    splitNul (flatten strings) = strings.map CString.bytes := by
  have hfree : ∀ b ∈ strings.map CString.bytes, (0 : UInt8) ∉ b := by
    intro b hb
    obtain ⟨s, -, rfl⟩ := List.mem_map.mp hb
    exact s.nul_free
  rw [splitNul, flatten, lines_unlines 0 hfree, List.dropLast_concat]

theorem flatten_injective : Function.Injective flatten := by
  intro as bs h
  have hsplit := congrArg splitNul h
  rw [splitNul_flatten, splitNul_flatten] at hsplit
  exact List.map_injective_iff.mpr CString.bytes_injective hsplit

/-- The size loop counts modulo the width of an `int`. -/
theorem flatSize_eq (strings : List CString) (n : BitVec 32) :
    flatSize strings n = n + BitVec.ofNat 32 (totalLength strings) := by
  induction strings generalizing n with
  | nil => simp [flatSize, totalLength]
  | cons s rest ih =>
    rw [flatSize, ih]
    simp only [totalLength, List.map_cons, List.sum_cons, BitVec.ofNat_add, BitVec.add_assoc]

theorem memcpy_append {src todo : List UInt8} (done : List UInt8) (hfit : src.length ≤ todo.length) :
    memcpy (done ++ todo) done.length src = some ((done ++ src) ++ todo.drop src.length) := by
  have hroom : done.length + src.length ≤ (done ++ todo).length := by
    rw [List.length_append]
    omega
  rw [memcpy, if_pos hroom, List.take_left, List.drop_append, List.drop_of_length_le (by omega),
    Nat.add_sub_cancel_left, List.nil_append, List.append_assoc]

/-- **The copy loop** writes the strings behind what is written, and nothing else, when they fit. -/
theorem copyStrings_append (strings : List CString) (done : List UInt8) {todo : List UInt8}
    (hfit : totalLength strings ≤ todo.length) :
    copyStrings strings (done ++ todo) done.length
      = some ((done ++ flatten strings) ++ todo.drop (totalLength strings),
          done.length + totalLength strings) := by
  induction strings generalizing done todo with
  | nil => simp [copyStrings, totalLength]
  | cons s rest ih =>
    have htotal : totalLength (s :: rest) = (s.bytes ++ [0]).length + totalLength rest := by
      simp [totalLength, CString.strlen]
    have hnext : done.length + (s.strlen + 1) = (done ++ (s.bytes ++ [0])).length := by
      simp [CString.strlen]
    rw [htotal] at hfit
    rw [copyStrings, memcpy_append done (by omega), Option.bind_eq_bind, Option.bind_some, hnext,
      ih (done ++ (s.bytes ++ [0])) (by rw [List.length_drop]; omega), List.drop_drop, flatten_cons,
      htotal, @List.length_append _ done (s.bytes ++ [0]), Nat.add_assoc, List.append_assoc done]

/-- `osd_flatten` of strings that fit an `int`. -/
theorem osdFlatten_of_fits (malloc : Malloc) {list : StringList} (hfit : FitsInt list) :
    ∃ r, osdFlatten malloc list = some r ∧
      ((0 < totalLength (list.getD []) ∧ malloc.block (totalLength (list.getD [])) = none ∧
          r = ⟨-1, none, 0, 0⟩) ∨
        (r.ret = totalLength (list.getD []) ∧ r.written = r.allocated ∧
          (r.allocated : ℤ) = r.ret ∧ r.buffer = flatten (list.getD []))) := by
  have hsize : flatSize (list.getD []) 0 = BitVec.ofNat 32 (totalLength (list.getD [])) := by
    rw [flatSize_eq]
    simp
  have hnat : (BitVec.ofNat 32 (totalLength (list.getD []))).toNat = totalLength (list.getD []) := by
    rw [BitVec.toNat_ofNat, Nat.mod_eq_of_lt]
    exact Nat.lt_trans hfit (by decide)
  -- the sum in 32 bits is the sum itself, and not negative as an `int`
  have hint : (BitVec.ofNat 32 (totalLength (list.getD []))).toInt = totalLength (list.getD []) := by
    rw [BitVec.toInt_eq_toNat_of_lt, hnat]
    rw [hnat]
    unfold FitsInt at hfit
    omega
  rw [osdFlatten]
  simp only [hsize, hnat, hint]
  split_ifs with hzero
  · have hnone : totalLength (list.getD []) = 0 := by
      rw [← hnat, hzero]
      rfl
    refine ⟨_, rfl, Or.inr ⟨by simp [hnone], rfl, rfl, ?_⟩⟩
    rw [← length_flatten, List.length_eq_zero_iff] at hnone
    rw [hnone]
    rfl
  · have hpos : 0 < totalLength (list.getD []) := by
      apply Nat.pos_of_ne_zero
      intro h
      rw [h] at hzero
      exact hzero rfl
    cases hmalloc : malloc.block (totalLength (list.getD [])) with
    | none => exact ⟨_, rfl, Or.inl ⟨hpos, rfl, rfl⟩⟩
    | some buf =>
      have hlen : buf.length = totalLength (list.getD []) := malloc.size hmalloc
      have hcopy : copyStrings (list.getD []) buf 0
          = some (flatten (list.getD []), totalLength (list.getD [])) := by
        have hall := copyStrings_append (list.getD []) [] hlen.ge
        rwa [List.drop_of_length_le hlen.le, List.append_nil, List.length_nil, Nat.zero_add] at hall
      simp only [hcopy]
      exact ⟨_, rfl, Or.inr ⟨rfl, rfl, rfl, rfl⟩⟩

/-- **Flattening is lossless.**  Lists that fit an `int` are written into the block to its last
byte, the strings are read back from the buffer, and different lists give different buffers. -/
theorem osdFlatten_lossless :
    (∀ (malloc : Malloc) (list : StringList), FitsInt list → ∃ r, osdFlatten malloc list = some r ∧
      (r.ret ≠ -1 → r.written = r.allocated ∧ (r.allocated : ℤ) = r.ret ∧
        (r.buffer.length : ℤ) = r.ret ∧
        splitNul r.buffer = (list.getD []).map CString.bytes) ∧
      (r.ret = -1 → 0 < totalLength (list.getD []) ∧
        malloc.block (totalLength (list.getD [])) = none ∧ r.out = none)) ∧
    ∀ (malloc malloc' : Malloc) (list list' : StringList) (r r' : Flat),
      FitsInt list → FitsInt list' →
      osdFlatten malloc list = some r → osdFlatten malloc' list' = some r' →
      r.ret ≠ -1 → r'.ret ≠ -1 → r.buffer = r'.buffer → list.getD [] = list'.getD [] := by
  constructor
  · intro malloc list hfit
    obtain ⟨r, hr, ⟨hpos, hnone, rfl⟩ | ⟨hret, hwritten, hallocated, hbuffer⟩⟩ :=
      osdFlatten_of_fits malloc hfit
    · exact ⟨_, hr, fun hne => absurd rfl hne, fun _ => ⟨hpos, hnone, rfl⟩⟩
    · refine ⟨r, hr, fun _ => ⟨hwritten, hallocated, ?_, ?_⟩, fun hneg => ?_⟩
      · rw [hbuffer, length_flatten, hret]
      · rw [hbuffer, splitNul_flatten]
      · omega
  · intro malloc malloc' list list' r r' hfit hfit' hr hr' hne hne' hbuf
    -- the buffer does not depend on what `malloc` gave
    have hbuffer : ∀ {malloc : Malloc} {list : StringList} {r : Flat}, FitsInt list →
        osdFlatten malloc list = some r → r.ret ≠ -1 → r.buffer = flatten (list.getD []) := by
      intro malloc list r hfit hr hne
      obtain ⟨r', hr', ⟨-, -, rfl⟩ | ⟨-, -, -, hbuffer⟩⟩ := osdFlatten_of_fits malloc hfit
      · obtain rfl := Option.some.inj (hr.symm.trans hr')
        exact absurd rfl hne
      · obtain rfl := Option.some.inj (hr.symm.trans hr')
        exact hbuffer
    rw [hbuffer hfit hr hne, hbuffer hfit' hr' hne'] at hbuf
    exact flatten_injective hbuf

/-- An allocator of zeroed blocks that never runs out. -/
def zeroMalloc : Malloc where
  block n := some (List.replicate n 0)
  size h := by
    obtain rfl := Option.some.inj h
    exact List.length_replicate

def argA : CString := ⟨[97], by decide⟩

def argEmpty : CString := ⟨[], by decide⟩

/-- `["a", ""]` and `["a"]`. -/
theorem osdFlatten_lossless_trailing :
    ∃ r r', osdFlatten zeroMalloc (some [argA, argEmpty]) = some r ∧
      osdFlatten zeroMalloc (some [argA]) = some r' ∧
      splitNul r.buffer = [[97], []] ∧ r.buffer ≠ r'.buffer := by
  have hfit : FitsInt (some [argA, argEmpty]) := by unfold FitsInt; decide
  have hfit' : FitsInt (some [argA]) := by unfold FitsInt; decide
  have hrun : osdFlatten zeroMalloc (some [argA, argEmpty]) = some ⟨3, some [97, 0, 0], 3, 3⟩ := by
    decide
  have hrun' : osdFlatten zeroMalloc (some [argA]) = some ⟨2, some [97, 0], 2, 2⟩ := by decide
  refine ⟨_, _, hrun, hrun', ?_, fun hbuf => ?_⟩
  · obtain ⟨r, hr, hok, -⟩ := osdFlatten_lossless.1 zeroMalloc _ hfit
    obtain rfl := Option.some.inj (hrun.symm.trans hr)
    exact (hok (by decide)).2.2.2
  · have hlists := osdFlatten_lossless.2 zeroMalloc zeroMalloc _ _ _ _ hfit hfit' hrun hrun'
      (by decide) (by decide) hbuf
    exact absurd hlists (by decide)

/-! ## `osd_spawn` -/

def slash : UInt8 := 47

/-- The current directory of an instance: an absolute path. -/
structure Cwd extends CString where
  absolute : bytes.head? = some slash

/-- `getcwd` into a buffer of some size: the path, unless it does not fit with its NUL. -/
def getcwd (cwd : Cwd) (size : ℕ) : Option (List UInt8) :=
  if cwd.strlen + 1 ≤ size then some cwd.bytes else none

/-- `snprintf` of a text: cut to leave room for the NUL. -/
def snprintf (size : ℕ) (text : List UInt8) : List UInt8 := text.take (size - 1)

/-- The path `osd_spawn` goes on with, and how many bytes its two buffers were written. -/
structure Absolutized where
  path : List UInt8
  inCwd : ℕ
  inAbs : ℕ

/-- `sizeof abs` and `sizeof cwd`. -/
def absSize : ℕ := 1024

def cwdSize : ℕ := 900

/-- The first part of `osd_spawn`.  The path and the buffers share one address space, so the sum
of the lengths does not wrap. -/
def absolutize (cwd : Cwd) (path : CString) : Absolutized :=
  if path.bytes.head? ≠ some slash then
    match getcwd cwd cwdSize with
    | some dir =>
      if dir.length + path.strlen + 2 < absSize then
        let text := snprintf absSize (dir ++ slash :: path.bytes)
        ⟨text, dir.length + 1, text.length + 1⟩
      else ⟨path.bytes, dir.length + 1, 0⟩
    | none => ⟨path.bytes, 0, 0⟩
  else ⟨path.bytes, 0, 0⟩

/-- The arguments of the host's `__osd_spawn`. -/
structure HostCall where
  path : List UInt8
  argvFlat : List UInt8
  envFlat : List UInt8

def ENOMEM : ℤ := 12

/-- How `osd_spawn` ends: the call it made of the host, its value and `errno`. -/
structure Spawned where
  call : Option HostCall
  ret : ℤ
  errno : Option ℤ
  buffers : Absolutized

/-- `osd_spawn`; `none` where `osd_flatten` writes behind its block. -/
def osdSpawn (host : HostCall → ℤ) (mallocArgv mallocEnv : Malloc) (cwd : Cwd) (path : CString)
    (argv envp : StringList) : Option Spawned := do
  let p := absolutize cwd path
  let a ← osdFlatten mallocArgv argv
  let e ← osdFlatten mallocEnv envp
  if a.ret < 0 ∨ e.ret < 0 then
    return ⟨none, -1, some ENOMEM, p⟩
  else
    let call : HostCall := ⟨p.path, a.buffer, e.buffer⟩
    let st := host call
    if st < 0 then return ⟨some call, -1, some (-st), p⟩
    else return ⟨some call, st, none, p⟩

/-- What a path denotes: itself, or the path below the current directory. -/
def resolve (cwd : Cwd) (path : CString) : List UInt8 :=
  if path.bytes.head? = some slash then path.bytes else cwd.bytes ++ slash :: path.bytes

/-- The host gets an absolute path that denotes what the given one does, or is not called; the
buffers hold what is written to them. -/
def NamesFile (cwd : Cwd) (path : CString) (r : Spawned) : Prop :=
  (r.call = none → r.ret = -1) ∧
  (∀ call, r.call = some call →
    call.path.head? = some slash ∧ call.path = resolve cwd path) ∧
  r.buffers.inCwd ≤ cwdSize ∧ r.buffers.inAbs ≤ absSize

/-- The allocator has no block for a list, or the size is none. -/
def Refused (malloc : Malloc) (list : StringList) : Prop :=
  flatSize (list.getD []) 0 ≠ 0 ∧ (malloc.block (flatSize (list.getD []) 0).toNat = none ∨
    (flatSize (list.getD []) 0).toInt < 0)

/-- The path is absolute, or it fits the buffers below the current directory. -/
def Resolvable (cwd : Cwd) (path : CString) : Prop :=
  path.bytes.head? = some slash ∨
    cwd.strlen + 1 ≤ cwdSize ∧ cwd.strlen + path.strlen + 2 < absSize

theorem absolutize_of_absolute (cwd : Cwd) {path : CString} (h : path.bytes.head? = some slash) :
    absolutize cwd path = ⟨path.bytes, 0, 0⟩ := by
  rw [absolutize, if_neg (not_not.mpr h)]

/-- A relative path that fits is put below the current directory whole. -/
theorem absolutize_of_fits {cwd : Cwd} {path : CString} (h : path.bytes.head? ≠ some slash)
    (hcwd : cwd.strlen + 1 ≤ cwdSize) (hfit : cwd.strlen + path.strlen + 2 < absSize) :
    absolutize cwd path
      = ⟨cwd.bytes ++ slash :: path.bytes, cwd.strlen + 1, cwd.strlen + path.strlen + 2⟩ := by
  have hlen : (cwd.bytes ++ slash :: path.bytes).length = cwd.strlen + path.strlen + 1 := by
    simp only [List.length_append, List.length_cons, CString.strlen]
    omega
  have hwhole : snprintf absSize (cwd.bytes ++ slash :: path.bytes)
      = cwd.bytes ++ slash :: path.bytes := List.take_of_length_le (by omega)
  have hdir : cwd.bytes.length + path.strlen + 2 < absSize := hfit
  rw [absolutize, if_pos h, getcwd, if_pos hcwd]
  simp only [if_pos hdir, hwhole, hlen]
  rfl

/-- A path that is not resolved is handed over as it is. -/
theorem absolutize_of_not_resolvable {cwd : Cwd} {path : CString} (h : ¬ Resolvable cwd path) :
    (absolutize cwd path).path = path.bytes := by
  obtain ⟨habs, hlong⟩ := not_or.mp h
  rw [absolutize, if_pos habs, getcwd]
  by_cases hcwd : cwd.strlen + 1 ≤ cwdSize
  · have hfit : ¬ cwd.bytes.length + path.strlen + 2 < absSize := fun hfit => hlong ⟨hcwd, hfit⟩
    rw [if_pos hcwd]
    simp only [if_neg hfit]
  · rw [if_neg hcwd]

theorem absolutize_path_iff (cwd : Cwd) (path : CString) :
    ((absolutize cwd path).path.head? = some slash ∧ (absolutize cwd path).path = resolve cwd path)
      ↔ Resolvable cwd path := by
  constructor
  · rintro ⟨habsolute, -⟩
    by_contra hnot
    rw [absolutize_of_not_resolvable hnot] at habsolute
    exact hnot (Or.inl habsolute)
  · intro h
    by_cases habs : path.bytes.head? = some slash
    · rw [absolutize_of_absolute cwd habs, resolve, if_pos habs]
      exact ⟨habs, rfl⟩
    · obtain ⟨hcwd, hfit⟩ := h.resolve_left habs
      rw [absolutize_of_fits habs hcwd hfit, resolve, if_neg habs]
      refine ⟨?_, rfl⟩
      rw [List.head?_append, cwd.absolute]
      rfl

/-- The buffers hold what is written to them, whatever the lengths. -/
theorem absolutize_buffers (cwd : Cwd) (path : CString) :
    (absolutize cwd path).inCwd ≤ cwdSize ∧ (absolutize cwd path).inAbs ≤ absSize := by
  by_cases habs : path.bytes.head? = some slash
  · rw [absolutize_of_absolute cwd habs]
    exact ⟨Nat.zero_le _, Nat.zero_le _⟩
  · rw [absolutize, if_pos habs, getcwd]
    by_cases hcwd : cwd.strlen + 1 ≤ cwdSize
    · have hcut : (snprintf absSize (cwd.bytes ++ slash :: path.bytes)).length + 1 ≤ absSize := by
        have htake : (snprintf absSize (cwd.bytes ++ slash :: path.bytes)).length ≤ absSize - 1 :=
          List.length_take_le _ _
        have hsize : absSize = 1024 := rfl
        omega
      rw [if_pos hcwd]
      simp only
      split_ifs
      · exact ⟨hcwd, hcut⟩
      · exact ⟨hcwd, Nat.zero_le _⟩
    · rw [if_neg hcwd]
      exact ⟨Nat.zero_le _, Nat.zero_le _⟩

/-- `osd_flatten` fails exactly when it is refused. -/
theorem osdFlatten_neg_iff {malloc : Malloc} {list : StringList} {r : Flat}
    (h : osdFlatten malloc list = some r) : r.ret < 0 ↔ Refused malloc list := by
  unfold osdFlatten at h
  simp only at h
  split_ifs at h with hzero
  · obtain rfl := Option.some.inj h
    exact ⟨fun hneg => absurd hneg (by decide), fun hrefused => absurd hzero hrefused.1⟩
  · cases hmalloc : malloc.block (flatSize (list.getD []) 0).toNat with
    | none =>
      rw [hmalloc] at h
      obtain rfl := Option.some.inj h
      exact ⟨fun _ => ⟨hzero, Or.inl hmalloc⟩, fun _ => by decide⟩
    | some buf =>
      rw [hmalloc] at h
      obtain ⟨copied, -, hret⟩ := Option.bind_eq_some_iff.mp h
      obtain rfl := Option.some.inj hret
      refine ⟨fun hneg => ⟨hzero, Or.inr hneg⟩, fun hrefused => ?_⟩
      exact hrefused.2.resolve_left (by rw [hmalloc]; exact Option.some_ne_none buf)

/-- How `osd_spawn` ends, told by its parts. -/
theorem osdSpawn_eq_some {host : HostCall → ℤ} {mallocArgv mallocEnv : Malloc} {cwd : Cwd}
    {path : CString} {argv envp : StringList} {r : Spawned}
    (h : osdSpawn host mallocArgv mallocEnv cwd path argv envp = some r) :
    r.buffers = absolutize cwd path ∧
      ((Refused mallocArgv argv ∨ Refused mallocEnv envp) ∧ r.call = none ∧ r.ret = -1 ∨
        ¬ (Refused mallocArgv argv ∨ Refused mallocEnv envp) ∧
          ∃ a e, r.call = some ⟨(absolutize cwd path).path, a, e⟩) := by
  obtain ⟨a, ha, h⟩ := Option.bind_eq_some_iff.mp h
  obtain ⟨e, he, h⟩ := Option.bind_eq_some_iff.mp h
  have hrefused : (a.ret < 0 ∨ e.ret < 0) ↔ Refused mallocArgv argv ∨ Refused mallocEnv envp :=
    or_congr (osdFlatten_neg_iff ha) (osdFlatten_neg_iff he)
  simp only at h
  split_ifs at h with hneg hst
  · obtain rfl := Option.some.inj h
    exact ⟨rfl, Or.inl ⟨hrefused.mp hneg, rfl, rfl⟩⟩
  · obtain rfl := Option.some.inj h
    exact ⟨rfl, Or.inr ⟨fun href => hneg (hrefused.mpr href), _, _, rfl⟩⟩
  · obtain rfl := Option.some.inj h
    exact ⟨rfl, Or.inr ⟨fun href => hneg (hrefused.mpr href), _, _, rfl⟩⟩

/-- **The host gets the right path** exactly when the path is absolute, or it fits the buffers
below the current directory, or the lists cannot be flattened; lists that fit an `int` always get
that far. -/
theorem osdSpawn_iff (host : HostCall → ℤ) (mallocArgv mallocEnv : Malloc) (cwd : Cwd)
    (path : CString) (argv envp : StringList) :
    (FitsInt argv → FitsInt envp →
      ∃ r, osdSpawn host mallocArgv mallocEnv cwd path argv envp = some r) ∧
    ∀ r, osdSpawn host mallocArgv mallocEnv cwd path argv envp = some r →
      (NamesFile cwd path r ↔
        Resolvable cwd path ∨ Refused mallocArgv argv ∨ Refused mallocEnv envp) := by
  constructor
  · intro hargv henvp
    obtain ⟨a, ha, -⟩ := osdFlatten_of_fits mallocArgv hargv
    obtain ⟨e, he, -⟩ := osdFlatten_of_fits mallocEnv henvp
    rw [osdSpawn, ha, he]
    simp only [Option.bind_eq_bind, Option.bind_some]
    split_ifs
    · exact ⟨_, rfl⟩
    · exact ⟨_, rfl⟩
    · exact ⟨_, rfl⟩
  · intro r hr
    obtain ⟨hbuffers, ⟨hrefused, hcall, hret⟩ | ⟨hgranted, a, e, hcall⟩⟩ := osdSpawn_eq_some hr
    · -- out of memory: the host is not called
      have hnames : NamesFile cwd path r := by
        refine ⟨fun _ => hret, fun call hsome => ?_, ?_⟩
        · rw [hcall] at hsome
          cases hsome
        · rw [hbuffers]
          exact absolutize_buffers cwd path
      exact ⟨fun _ => Or.inr hrefused, fun _ => hnames⟩
    · rw [← absolutize_path_iff cwd path]
      constructor
      · intro hnames
        exact Or.inl (hnames.2.1 _ hcall)
      · intro h
        refine ⟨fun hnone => ?_, fun call hsome => ?_, ?_⟩
        · rw [hcall] at hnone
          cases hnone
        · rw [hcall] at hsome
          obtain rfl := Option.some.inj hsome
          exact h.resolve_right hgranted
        · rw [hbuffers]
          exact absolutize_buffers cwd path

/-- `/h`. -/
def shortCwd : Cwd where
  bytes := [slash, 104]
  nul_free := by decide
  absolute := rfl

theorem osdSpawn_iff_short :
    ∃ r, osdSpawn (fun _ => 0) zeroMalloc zeroMalloc shortCwd argA (some [argA]) none = some r ∧
      NamesFile shortCwd argA r := by
  obtain ⟨hruns, hiff⟩ :=
    osdSpawn_iff (fun _ => 0) zeroMalloc zeroMalloc shortCwd argA (some [argA]) none
  obtain ⟨r, hr⟩ := hruns (by unfold FitsInt; decide) (by unfold FitsInt; decide)
  exact ⟨r, hr, (hiff r hr).mpr (Or.inl (Or.inr ⟨by decide, by decide⟩))⟩

/-- A current directory of 900 bytes. -/
def longCwd : Cwd where
  bytes := slash :: List.replicate 899 97
  nul_free := by
    intro h
    rcases List.mem_cons.mp h with h | h
    · exact absurd h (by decide)
    · exact absurd (List.eq_of_mem_replicate h) (by decide)
  absolute := rfl

theorem strlen_longCwd : longCwd.strlen = 900 := by
  change (slash :: List.replicate 899 97).length = 900
  rw [List.length_cons, List.length_replicate]

/-- Below it the host is asked for `a`. -/
theorem not_namesFile_longCwd :
    ∃ r, osdSpawn (fun _ => 0) zeroMalloc zeroMalloc longCwd argA none none = some r ∧
      r.call = some ⟨[97], [], []⟩ ∧ ¬ NamesFile longCwd argA r := by
  have hlong : ¬ Resolvable longCwd argA := by
    rintro (habs | ⟨hcwd, -⟩)
    · exact absurd habs (by decide)
    · rw [strlen_longCwd] at hcwd
      exact absurd hcwd (by decide)
  have hpath : (absolutize longCwd argA).path = [97] := absolutize_of_not_resolvable hlong
  have hnone : osdFlatten zeroMalloc none = some ⟨0, none, 0, 0⟩ := by decide
  have hrun : osdSpawn (fun _ => 0) zeroMalloc zeroMalloc longCwd argA none none
      = some ⟨some ⟨[97], [], []⟩, 0, none, absolutize longCwd argA⟩ := by
    rw [osdSpawn, hnone, ← hpath]
    rfl
  refine ⟨_, hrun, rfl, fun h => ?_⟩
  have hright := h.2.1 _ rfl
  exact absurd hright.1 (by decide)

end OsMoap.Guest
