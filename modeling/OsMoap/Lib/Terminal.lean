import Mathlib.Data.Nat.Notation

/-!
# Terminals

A character terminal as the bytes that are written to it drive it: printable characters in ASCII
and UTF-8, carriage return and line feed, and the control sequences that move the cursor
(`CSI row ; col H`) and set the colours (`CSI 38;2;r;g;b m`, `CSI 48;2;r;g;b m` and the indexed and
default ones).  Other control sequences are read and ignored.

A character in the last column leaves the cursor there and marks that the line is full (`wrap`);
only a further character moves to the next line.  A line break in the last row scrolls.

`feed` runs the bytes.  The rules say what whole items do: `feed_csi` for a control sequence,
`feed_utf8` for a character of three bytes, `feed_crlf` for a line break.
-/

namespace OsMoap.Lib

/-- A colour of three channels. -/
structure Rgb where
  r : ℕ
  g : ℕ
  b : ℕ
  deriving DecidableEq

/-- What a cell may be coloured with. -/
inductive Colour
  | default
  | indexed (n : ℕ)
  | direct (c : Rgb)
  deriving DecidableEq

/-- A code point with the colours it was printed in. -/
structure Cell where
  glyph : ℕ
  fg : Colour
  bg : Colour
  deriving DecidableEq

/-- How far the terminal is in reading an item. -/
inductive Mode
  | ground
  | escape
  /-- In a control sequence, behind some parameters and in the digits of the next. -/
  | csi (params : List ℕ) (current : ℕ)
  /-- In a character of which so many bytes are to come. -/
  | utf8 (more code : ℕ)
  deriving DecidableEq

/-- The state of a terminal, with how many characters it has printed and lines it has broken. -/
structure Terminal where
  mode : Mode
  cells : ℕ → ℕ → Cell
  row : ℕ
  col : ℕ
  wrap : Bool
  fg : Colour
  bg : Colour
  glyphs : ℕ
  breaks : ℕ

namespace Terminal

/-! ## What a terminal does -/

/-- One line down; the last row scrolls. -/
def lineFeed (rows : ℕ) (t : Terminal) : Terminal :=
  if t.row + 1 < rows then { t with row := t.row + 1, wrap := false, breaks := t.breaks + 1 }
  else
    { t with
      cells := fun r c => if r + 1 < rows then t.cells (r + 1) c else ⟨0x20, .default, t.bg⟩
      wrap := false
      breaks := t.breaks + 1 }

def carriageReturn (t : Terminal) : Terminal := { t with col := 0, wrap := false }

/-- A character at the cursor, with the cursor on it. -/
def paint (cols glyph : ℕ) (t : Terminal) : Terminal :=
  { t with
    cells := fun r c => if r = t.row ∧ c = t.col then ⟨glyph, t.fg, t.bg⟩ else t.cells r c
    col := if t.col + 1 < cols then t.col + 1 else t.col
    wrap := !decide (t.col + 1 < cols)
    glyphs := t.glyphs + 1 }

/-- A character, on the next line if this one is full. -/
def put (cols rows glyph : ℕ) (t : Terminal) : Terminal :=
  if t.wrap then paint cols glyph (carriageReturn (lineFeed rows t)) else paint cols glyph t

/-- `CSI row ; col H`, counted from 1. -/
def moveTo (cols rows : ℕ) (params : List ℕ) (t : Terminal) : Terminal :=
  { t with
    row := min (params.getD 0 1 - 1) (rows - 1)
    col := min (params.getD 1 1 - 1) (cols - 1)
    wrap := false }

/-- `CSI … m`. -/
def setColours : List ℕ → Terminal → Terminal
  | 38 :: 2 :: r :: g :: b :: params, t => setColours params { t with fg := .direct ⟨r, g, b⟩ }
  | 48 :: 2 :: r :: g :: b :: params, t => setColours params { t with bg := .direct ⟨r, g, b⟩ }
  | 38 :: 5 :: n :: params, t => setColours params { t with fg := .indexed n }
  | 48 :: 5 :: n :: params, t => setColours params { t with bg := .indexed n }
  | 0 :: params, t => setColours params { t with fg := .default, bg := .default }
  | 39 :: params, t => setColours params { t with fg := .default }
  | 49 :: params, t => setColours params { t with bg := .default }
  | _ :: params, t => setColours params t
  | [], t => t

/-- A control sequence by its last byte. -/
def control (cols rows : ℕ) (final : UInt8) (params : List ℕ) (t : Terminal) : Terminal :=
  if final = 0x48 then moveTo cols rows params t
  else if final = 0x6d then setColours params t
  else t

/-- A byte that begins an item. -/
def ground (cols rows : ℕ) (b : UInt8) (t : Terminal) : Terminal :=
  if b = 0x1b then { t with mode := .escape }
  else if b = 0x0d then carriageReturn t
  else if b = 0x0a then lineFeed rows t
  else if 0x20 ≤ b ∧ b < 0x7f then put cols rows b.toNat t
  else if 0xc2 ≤ b ∧ b < 0xe0 then { t with mode := .utf8 1 (b.toNat - 0xc0) }
  else if 0xe0 ≤ b ∧ b < 0xf0 then { t with mode := .utf8 2 (b.toNat - 0xe0) }
  else if 0xf0 ≤ b ∧ b < 0xf5 then { t with mode := .utf8 3 (b.toNat - 0xf0) }
  else t

def step (cols rows : ℕ) (t : Terminal) (b : UInt8) : Terminal :=
  match t.mode with
  | .ground => ground cols rows b t
  | .escape => { t with mode := if b = 0x5b then .csi [] 0 else .ground }
  | .csi params n =>
    if 0x30 ≤ b ∧ b < 0x3a then { t with mode := .csi params (10 * n + (b.toNat - 0x30)) }
    else if b = 0x3b then { t with mode := .csi (params ++ [n]) 0 }
    else if 0x40 ≤ b then control cols rows b (params ++ [n]) { t with mode := .ground }
    else t
  | .utf8 more code =>
    if 0x80 ≤ b ∧ b < 0xc0 then
      let code := 64 * code + (b.toNat - 0x80)
      if more = 1 then put cols rows code { t with mode := .ground }
      else { t with mode := .utf8 (more - 1) code }
    else ground cols rows b { t with mode := .ground }

/-- What a terminal makes of the bytes that are written to it. -/
def feed (cols rows : ℕ) (bytes : List UInt8) (t : Terminal) : Terminal :=
  bytes.foldl (step cols rows) t

/-! ## Rules -/

section Rules

variable {cols rows : ℕ} {t : Terminal}

@[simp]
theorem feed_nil : feed cols rows [] t = t := rfl

theorem feed_cons (b : UInt8) (bytes : List UInt8) :
    feed cols rows (b :: bytes) t = feed cols rows bytes (step cols rows t b) := rfl

theorem feed_append (xs ys : List UInt8) :
    feed cols rows (xs ++ ys) t = feed cols rows ys (feed cols rows xs t) :=
  List.foldl_append

/-- The decimal digits of a number. -/
def decimalBytes (n : ℕ) : List UInt8 := (Nat.toDigits 10 n).map fun c => UInt8.ofNat c.toNat

/-- A control sequence with one parameter or more. -/
def csiBytes (n : ℕ) (params : List ℕ) (final : UInt8) : List UInt8 :=
  0x1b :: 0x5b :: (decimalBytes n ++ (params.flatMap fun n => 0x3b :: decimalBytes n) ++ [final])

theorem step_digit {params : List ℕ} {n : ℕ} {c : Char} (hmode : t.mode = .csi params n)
    (hdigit : c.isDigit = true) :
    step cols rows t (UInt8.ofNat c.toNat) =
      { t with mode := .csi params (10 * n + (c.toNat - 48)) } := by
  have hrange : 48 ≤ c.toNat ∧ c.toNat ≤ 57 := Char.isDigit_iff_toNat.mp hdigit
  have htoNat : (UInt8.ofNat c.toNat).toNat = c.toNat := by
    rw [UInt8.toNat_ofNat']
    exact Nat.mod_eq_of_lt (by omega)
  have hbyte : (0x30 : UInt8) ≤ UInt8.ofNat c.toNat ∧ UInt8.ofNat c.toNat < (0x3a : UInt8) := by
    rw [UInt8.le_iff_toNat_le, UInt8.lt_iff_toNat_lt, htoNat]
    exact ⟨hrange.1, Nat.lt_succ_of_le hrange.2⟩
  simp only [step, hmode, hbyte, and_self, if_true, htoNat]

theorem feed_digits {params : List ℕ} {n : ℕ} {cs : List Char} (hmode : t.mode = .csi params n)
    (hdigits : ∀ c ∈ cs, c.isDigit = true) :
    feed cols rows (cs.map fun c => UInt8.ofNat c.toNat) t =
      { t with mode := .csi params (Nat.ofDigitChars 10 cs n) } := by
  induction cs generalizing t n with
  | nil => rw [List.map_nil, feed_nil, Nat.ofDigitChars_nil, ← hmode]
  | cons c cs ih =>
    obtain ⟨hc, hcs⟩ := List.forall_mem_cons.mp hdigits
    rw [List.map_cons, feed_cons, step_digit hmode hc, ih rfl hcs, Nat.ofDigitChars_cons]
    rfl

/-- A number behind a separator is read back. -/
theorem feed_decimalBytes {params : List ℕ} (hmode : t.mode = .csi params 0) (n : ℕ) :
    feed cols rows (decimalBytes n) t = { t with mode := .csi params n } := by
  have hdigits : ∀ c ∈ Nat.toDigits 10 n, c.isDigit = true := fun c hc =>
    Nat.isDigit_of_mem_toDigits (by decide) (by decide) hc
  rw [decimalBytes, feed_digits hmode hdigits,
    Nat.ofDigitChars_toDigits (by decide) (by decide)]

theorem feed_params {final : UInt8} (hfinal : 0x40 ≤ final) {params : List ℕ} {n : ℕ} {ns : List ℕ}
    (hmode : t.mode = .csi params n) :
    feed cols rows ((ns.flatMap fun n => 0x3b :: decimalBytes n) ++ [final]) t =
      control cols rows final (params ++ n :: ns) { t with mode := .ground } := by
  induction ns generalizing t params n with
  | nil =>
    have hdigit : ¬(0x30 ≤ final ∧ final < 0x3a) := fun h =>
      absurd (UInt8.lt_of_le_of_lt hfinal h.2) (by decide)
    have hsep : final ≠ 0x3b := by
      rintro rfl
      exact absurd hfinal (by decide)
    rw [List.flatMap_nil, List.nil_append, feed_cons, feed_nil]
    simp only [step, hmode, if_neg hdigit, if_neg hsep, if_pos hfinal]
  | cons m ns ih =>
    have hstep : step cols rows t 0x3b = { t with mode := .csi (params ++ [n]) 0 } := by
      simp only [step, hmode]
      rfl
    rw [List.flatMap_cons, List.cons_append, List.cons_append, feed_cons, hstep, List.append_assoc,
      feed_append, feed_decimalBytes rfl, ih rfl, List.append_assoc, List.singleton_append]

/-- A control sequence acts with the parameters that were written. -/
theorem feed_csi (hmode : t.mode = .ground) (n : ℕ) (params : List ℕ) {final : UInt8}
    (hfinal : 0x40 ≤ final) :
    feed cols rows (csiBytes n params final) t = control cols rows final (n :: params) t := by
  have hopen : step cols rows (step cols rows t 0x1b) 0x5b = { t with mode := .csi [] 0 } := by
    simp only [step, hmode]
    rfl
  have hback : { t with mode := Mode.ground } = t := by
    rw [← hmode]
  rw [csiBytes, feed_cons, feed_cons, hopen, List.append_assoc, feed_append, feed_decimalBytes rfl,
    feed_params hfinal rfl, List.nil_append]
  exact congrArg _ hback

theorem step_ground (hmode : t.mode = .ground) (b : UInt8) :
    step cols rows t b = ground cols rows b t := by
  rw [step, hmode]

theorem step_utf8 {more code : ℕ} (hmode : t.mode = .utf8 more code) {b : UInt8}
    (hb : 0x80 ≤ b ∧ b < 0xc0) :
    step cols rows t b =
      if more = 1 then put cols rows (64 * code + (b.toNat - 0x80)) { t with mode := .ground }
      else { t with mode := .utf8 (more - 1) (64 * code + (b.toNat - 0x80)) } := by
  simp only [step, hmode, if_pos hb]

/-- A character of three bytes. -/
theorem feed_utf8 (hmode : t.mode = .ground) {a b c : UInt8} (ha : 0xe0 ≤ a ∧ a < 0xf0)
    (hb : 0x80 ≤ b ∧ b < 0xc0) (hc : 0x80 ≤ c ∧ c < 0xc0) :
    feed cols rows [a, b, c] t =
      put cols rows (64 * (64 * (a.toNat - 0xe0) + (b.toNat - 0x80)) + (c.toNat - 0x80)) t := by
  have hlead : ground cols rows a t = { t with mode := .utf8 2 (a.toNat - 0xe0) } := by
    have hle := UInt8.le_iff_toNat_le.mp ha.1
    have hlt := UInt8.lt_iff_toNat_lt.mp ha.2
    simp only [UInt8.reduceToNat] at hle hlt
    simp only [ground, ← UInt8.toNat_inj, UInt8.le_iff_toNat_le, UInt8.lt_iff_toNat_lt,
      UInt8.reduceToNat]
    rw [if_neg (by omega), if_neg (by omega), if_neg (by omega), if_neg (by omega),
      if_neg (by omega), if_pos (by omega)]
  have hback : { t with mode := Mode.ground } = t := by
    rw [← hmode]
  rw [feed_cons, feed_cons, feed_cons, feed_nil, step_ground hmode, hlead, step_utf8 rfl hb,
    if_neg (by decide), step_utf8 rfl hc, if_pos rfl]
  exact congrArg _ hback

/-- `CSI H` without parameters moves the cursor to the first cell. -/
theorem feed_home (hmode : t.mode = .ground) :
    feed cols rows [0x1b, 0x5b, 0x48] t = { t with row := 0, col := 0, wrap := false } := by
  have hopen : step cols rows (step cols rows t 0x1b) 0x5b = { t with mode := .csi [] 0 } := by
    simp only [step, hmode]
    rfl
  have hmove : step cols rows { t with mode := .csi [] 0 } 0x48 =
      moveTo cols rows [0] { t with mode := .ground } := rfl
  rw [feed_cons, feed_cons, feed_cons, feed_nil, hopen, hmove, ← hmode, moveTo]
  simp only [List.getD_cons_zero, List.getD_cons_succ, List.getD_nil, Nat.zero_sub, Nat.sub_self,
    Nat.zero_min]

/-- Both colours in one sequence. -/
theorem setColours_pair (fg bg : Rgb) :
    setColours [38, 2, fg.r, fg.g, fg.b, 48, 2, bg.r, bg.g, bg.b] t =
      { t with fg := .direct fg, bg := .direct bg } := rfl

theorem feed_crlf (hmode : t.mode = .ground) :
    feed cols rows [0x0d, 0x0a] t = lineFeed rows (carriageReturn t) := by
  have hback : (carriageReturn t).mode = .ground := hmode
  have hcr : ground cols rows 0x0d t = carriageReturn t := rfl
  have hlf : ground cols rows 0x0a (carriageReturn t) = lineFeed rows (carriageReturn t) := rfl
  rw [feed_cons, feed_cons, feed_nil, step_ground hmode, hcr, step_ground hback, hlf]

end Rules

end Terminal

end OsMoap.Lib
