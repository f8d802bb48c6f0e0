import OsMoap.Guest.DoomFrame
import OsMoap.Apk.Tar
import OsMoap.Lib.Bounded

/-!
# Doom's Frame Stream

`DG_DrawFrame` of `guest/pkgs/doom/doomgeneric_osmoap.c`: a frame is written into `g_out` as half
blocks, with a colour sequence only where the colours are not those that were set last.

Every write is checked against the room `g_out` has, the NUL behind a `sprintf` too.  What the
program writes is `frameBytes`, where each cell depends on its own colours and on those of the cell
before it; it fits when it is not longer than the room (`dgDrawFrame_eq`).

How long it can become is `TermSize.worstFrame`, which some frame reaches
(`length_frameBytes_checkered`).  So the size of the terminal alone decides whether the buffer is
large enough (`safe_iff`).
-/

namespace OsMoap.Guest

open OsMoap.Lib OsMoap.Lib.Terminal
open OsMoap.Apk (ascii)

/-! ## DG_DrawFrame -/

/-- `g_out` up to `o`, and the colours that were set last, which are -1 before any. -/
structure Pen where
  o : List UInt8
  prevFg : ℤ
  prevBg : ℤ

/-- `memcpy` or `sprintf` to `o`, which moves on by the bytes; `sprintf` also writes a NUL. -/
def writeOut (room nul : ℕ) (bytes : List UInt8) (pen : Pen) : Option Pen :=
  if pen.o.length + bytes.length + nul ≤ room then some { pen with o := pen.o ++ bytes } else none

/-- `\x1b[38;2;%d;%d;%d;48;2;%d;%d;%dm`. -/
def sgr (fg bg : ℕ) : List UInt8 :=
  ascii "\x1b[38;2;" ++ decimalBytes (fg >>> 16 &&& 255) ++ ascii ";" ++
    decimalBytes (fg >>> 8 &&& 255) ++ ascii ";" ++ decimalBytes (fg &&& 255) ++ ascii ";48;2;" ++
    decimalBytes (bg >>> 16 &&& 255) ++ ascii ";" ++ decimalBytes (bg >>> 8 &&& 255) ++ ascii ";" ++
    decimalBytes (bg &&& 255) ++ ascii "m"

/-- The upper half block in UTF-8. -/
def halfBlock : List UInt8 := [0xe2, 0x96, 0x80]

/-- `avg_block(g_xe[c], g_xe[c+1], g_ye[p], g_ye[p+1])`. -/
def avgHalf (scr : Screen) (frame : Frame) (c p : ℕ) : Option ℕ := do
  let x0 ← scr.xe[c]?
  let x1 ← scr.xe[c + 1]?
  let y0 ← scr.ye[p]?
  let y1 ← scr.ye[p + 1]?
  avgBlock frame x0 x1 y0 y1

/-- The body of the inner loop. -/
def drawCell (scr : Screen) (frame : Frame) (r : ℕ) (pen : Pen) (c : ℕ) : Option Pen := do
  let fg ← avgHalf scr frame c (2 * r)
  let bg ← avgHalf scr frame c (2 * r + 1)
  let pen ←
    if (fg : ℤ) ≠ pen.prevFg ∨ (bg : ℤ) ≠ pen.prevBg then
      -- `sprintf` needs room for its NUL, which the next write covers
      (writeOut scr.room 1 (sgr fg bg) pen).map fun pen => { pen with prevFg := fg, prevBg := bg }
    else some pen
  writeOut scr.room 0 halfBlock pen

/-- The body of the outer loop. -/
def drawRow (scr : Screen) (frame : Frame) (pen : Pen) (r : ℕ) : Option Pen := do
  let pen ← (List.range scr.size.cols).foldlM (drawCell scr frame r) pen
  -- no line break behind the last row: the terminal would scroll
  if r ≠ scr.size.rows - 1 then writeOut scr.room 0 (ascii "\r\n") pen else some pen

/-- `DG_DrawFrame` at the tick `now`: what it writes to the terminal, and `g_last_ms`. -/
def dgDrawFrame (scr : Screen) (frame : Frame) (throttle now last : BitVec 32) :
    Option (List UInt8 × BitVec 32) :=
  -- unsigned, so that a tick counter that has wrapped still counts
  if now - last < throttle then some ([], last)
  else do
    let pen ← writeOut scr.room 0 (ascii "\x1b[H") ⟨[], -1, -1⟩
    let pen ← (List.range scr.size.rows).foldlM (drawRow scr frame) pen
    some (pen.o, now)

/-! ## What it writes -/

/-- The value `avg_block` returns for each half cell. -/
abbrev Image := ℕ → ℕ → ℕ

section Bytes

variable (image : Image) (cols rows : ℕ)

/-- The colours of a cell. -/
def pair (r c : ℕ) : ℤ × ℤ := (image c (2 * r), image c (2 * r + 1))

/-- The colours of the cell before, in reading order. -/
def prevPair : ℕ → ℕ → ℤ × ℤ
  | r, c + 1 => pair image r c
  | r + 1, 0 => pair image r (cols - 1)
  | 0, 0 => (-1, -1)

def sgrBytes (r c : ℕ) : List UInt8 :=
  if pair image r c = prevPair image cols r c then []
  else sgr (image c (2 * r)) (image c (2 * r + 1))

def rowBytes (r : ℕ) : List UInt8 :=
  ((List.range cols).flatMap fun c => sgrBytes image cols r c ++ halfBlock) ++
    if r ≠ rows - 1 then ascii "\r\n" else []

/-- A frame as it is written. -/
def frameBytes : List UInt8 :=
  ascii "\x1b[H" ++ (List.range rows).flatMap (rowBytes image cols rows)

end Bytes

/-! ## The program writes it -/

section Ink

/-- How much of `g_out` is used. -/
def Pen.used (pen : Pen) : ℕ := pen.o.length

/-- A write without a check. -/
def Pen.add (bytes : List UInt8) (pen : Pen) : Pen := { pen with o := pen.o ++ bytes }

/-- The body of the inner loop without checks. -/
def Pen.ink (fg bg : ℕ) (pen : Pen) : Pen :=
  let sequence := if (fg : ℤ) ≠ pen.prevFg ∨ (bg : ℤ) ≠ pen.prevBg then sgr fg bg else []
  ⟨pen.o ++ (sequence ++ halfBlock), fg, bg⟩

/-- The body of the outer loop without checks. -/
def Pen.inkRow (image : Image) (cols rows : ℕ) (pen : Pen) (r : ℕ) : Pen :=
  Pen.add (if r ≠ rows - 1 then ascii "\r\n" else [])
    ((List.range cols).foldl (fun pen c => pen.ink (image c (2 * r)) (image c (2 * r + 1))) pen)

theorem bounded_writeOut (room : ℕ) (bytes : List UInt8) :
    Bounded Pen.used room (writeOut room 0 bytes) (Pen.add bytes) where
  grows pen := by
    rw [Pen.used, Pen.used, Pen.add, List.length_append]
    exact Nat.le_add_right _ _
  eq pen _ := by
    rw [writeOut, Pen.used, Pen.add, List.length_append, Nat.add_zero]

variable {scr : Screen} {frame : Frame} {image : Image}

/-- The NUL behind a colour sequence lies where the half block comes next. -/
theorem bounded_drawCell {r c : ℕ} (hfg : avgHalf scr frame c (2 * r) = some (image c (2 * r)))
    (hbg : avgHalf scr frame c (2 * r + 1) = some (image c (2 * r + 1))) :
    Bounded Pen.used scr.room (drawCell scr frame r · c)
      (Pen.ink (image c (2 * r)) (image c (2 * r + 1))) where
  grows pen := by
    rw [Pen.used, Pen.used, Pen.ink, List.length_append]
    exact Nat.le_add_right _ _
  eq pen _ := by
    have hhalf : halfBlock.length = 3 := rfl
    simp only [drawCell, hfg, hbg, bind, Option.bind_some, Pen.used, Pen.ink, List.length_append]
    split_ifs with hchanged hfits hfits
    · rw [writeOut, if_pos (by omega), Option.map_some, Option.bind_some, writeOut,
        if_pos (by rw [List.length_append]; omega), List.append_assoc]
    · rw [writeOut]
      split_ifs
      · rw [Option.map_some, Option.bind_some, writeOut,
          if_neg (by rw [List.length_append]; omega)]
      · rfl
    · rw [not_or, not_not, not_not] at hchanged
      rw [List.length_nil, Nat.zero_add] at hfits
      rw [writeOut, Nat.add_zero, if_pos hfits, List.nil_append, ← hchanged.1, ← hchanged.2]
    · rw [List.length_nil, Nat.zero_add] at hfits
      rw [writeOut, Nat.add_zero, if_neg hfits]

/-- The colours `avg_block` finds for the cells of a screen. -/
def Depicts (scr : Screen) (frame : Frame) (image : Image) : Prop :=
  ∀ c < scr.size.cols, ∀ p < scr.size.rows * 2, avgHalf scr frame c p = some (image c p)

variable (h : Depicts scr frame image)

include h

theorem bounded_drawRow {r : ℕ} (hr : r < scr.size.rows) :
    Bounded Pen.used scr.room (drawRow scr frame · r)
      (Pen.inkRow image scr.size.cols scr.size.rows · r) := by
  have hcells : Bounded Pen.used scr.room
      (fun pen => (List.range scr.size.cols).foldlM (drawCell scr frame r) pen)
      fun pen => (List.range scr.size.cols).foldl
        (fun pen c => pen.ink (image c (2 * r)) (image c (2 * r + 1))) pen := by
    apply Bounded.foldlM
    intro c hc
    have hcol := List.mem_range.mp hc
    exact bounded_drawCell (h c hcol (2 * r) (by omega)) (h c hcol (2 * r + 1) (by omega))
  have hbreak : Bounded Pen.used scr.room
      (fun pen => if r ≠ scr.size.rows - 1 then writeOut scr.room 0 (ascii "\r\n") pen else some pen)
      (Pen.add (if r ≠ scr.size.rows - 1 then ascii "\r\n" else [])) := by
    split_ifs
    · exact bounded_writeOut scr.room _
    · have hnone : Pen.add [] = id := by
        funext pen
        rw [Pen.add, List.append_nil, id]
      rw [hnone]
      exact Bounded.skip
  exact hcells.bind hbreak

end Ink

section Closed

variable {image : Image} {cols rows : ℕ}

/-- A pen that has written `o` and last set the colours `colours`. -/
def Pen.mkPair (o : List UInt8) (colours : ℤ × ℤ) : Pen := ⟨o, colours.1, colours.2⟩

theorem ink_mkPair (o : List UInt8) (r c : ℕ) :
    (Pen.mkPair o (prevPair image cols r c)).ink (image c (2 * r)) (image c (2 * r + 1)) =
      .mkPair (o ++ (sgrBytes image cols r c ++ halfBlock)) (prevPair image cols r (c + 1)) := by
  have hchanged : ((image c (2 * r) : ℤ) ≠ (prevPair image cols r c).1 ∨
      (image c (2 * r + 1) : ℤ) ≠ (prevPair image cols r c).2) ↔
        ¬pair image r c = prevPair image cols r c := by
    rw [Prod.ext_iff, not_and_or]
    rfl
  have hnext : prevPair image cols r (c + 1) = pair image r c := by
    rw [prevPair]
  simp only [Pen.ink, Pen.mkPair, hchanged, sgrBytes, hnext, ite_not]
  rfl

/-- The inner loop writes its cells one after the other. -/
theorem foldl_ink (o : List UInt8) (r k : ℕ) :
    (List.range k).foldl (fun pen c => Pen.ink (image c (2 * r)) (image c (2 * r + 1)) pen)
        (.mkPair o (prevPair image cols r 0)) =
      .mkPair (o ++ (List.range k).flatMap fun c => sgrBytes image cols r c ++ halfBlock)
        (prevPair image cols r k) := by
  induction k with
  | zero => rw [List.range_zero, List.foldl_nil, List.flatMap_nil, List.append_nil]
  | succ k ih =>
    rw [List.range_succ, List.foldl_append, ih, List.foldl_cons, List.foldl_nil, ink_mkPair,
      List.flatMap_append, List.flatMap_singleton, List.append_assoc]

theorem prevPair_cols (hcols : 0 < cols) (r : ℕ) :
    prevPair image cols r cols = prevPair image cols (r + 1) 0 := by
  obtain ⟨n, rfl⟩ := Nat.exists_eq_succ_of_ne_zero hcols.ne'
  rfl

theorem inkRow_eq (hcols : 0 < cols) (o : List UInt8) (r : ℕ) :
    (Pen.mkPair o (prevPair image cols r 0)).inkRow image cols rows r =
      .mkPair (o ++ rowBytes image cols rows r) (prevPair image cols (r + 1) 0) := by
  rw [Pen.inkRow, foldl_ink, prevPair_cols hcols, rowBytes, ← List.append_assoc]
  rfl

/-- The outer loop writes its rows one after the other. -/
theorem foldl_inkRow (hcols : 0 < cols) (o : List UInt8) (k : ℕ) :
    (List.range k).foldl (Pen.inkRow image cols rows) (.mkPair o (prevPair image cols 0 0)) =
      .mkPair (o ++ (List.range k).flatMap (rowBytes image cols rows))
        (prevPair image cols k 0) := by
  induction k with
  | zero => rw [List.range_zero, List.foldl_nil, List.flatMap_nil, List.append_nil]
  | succ k ih =>
    rw [List.range_succ, List.foldl_append, ih, List.foldl_cons, List.foldl_nil, inkRow_eq hcols,
      List.flatMap_append, List.flatMap_singleton, List.append_assoc]

end Closed

/-- The colours of a screen's half cells. -/
def TermSize.image (size : TermSize) (frame : Frame) : Image := fun c p =>
  pack (size.halfColour frame c p)

theorem depicts_screen (size : TermSize) (frame : Frame) :
    Depicts size.screen frame (size.image frame) := by
  intro c hc p hp
  simp only [avgHalf, size.xe_getElem? hc.le, size.xe_getElem? (Nat.succ_le_of_lt hc),
    size.ye_getElem? hp.le, size.ye_getElem? (Nat.succ_le_of_lt hp), bind, Option.bind_some]
  exact size.avgBlock_half frame hc hp

/-- **What `DG_DrawFrame` does.**  It returns early, or it writes the frame's bytes, all of which
have to fit. -/
theorem dgDrawFrame_eq (size : TermSize) (frame : Frame) (throttle now last : BitVec 32) :
    dgDrawFrame size.screen frame throttle now last =
      if now - last < throttle then some ([], last)
      else if (frameBytes (size.image frame) size.cols size.rows).length ≤ size.room then
        some (frameBytes (size.image frame) size.cols size.rows, now)
      else none := by
  have hhome := bounded_writeOut size.room (ascii "\x1b[H")
  have hrows : Bounded Pen.used size.room
      (fun pen => (List.range size.rows).foldlM (drawRow size.screen frame) pen)
      fun pen => (List.range size.rows).foldl (Pen.inkRow (size.image frame) size.cols size.rows)
        pen := by
    apply Bounded.foldlM
    intro r hr
    exact bounded_drawRow (depicts_screen size frame) (List.mem_range.mp hr)
  -- `fg` and `bg` start at -1, which no pixel has
  have hall := (hhome.bind hrows).eq ⟨[], -1, -1⟩ (Nat.zero_le _)
  have hink : (List.range size.rows).foldl (Pen.inkRow (size.image frame) size.cols size.rows)
      (Pen.add (ascii "\x1b[H") ⟨[], -1, -1⟩) =
        .mkPair (frameBytes (size.image frame) size.cols size.rows)
          (prevPair (size.image frame) size.cols size.rows 0) :=
    foldl_inkRow size.cols_pos (ascii "\x1b[H") size.rows
  rw [hink] at hall
  rw [dgDrawFrame]
  apply if_congr Iff.rfl rfl
  calc _ = ((writeOut size.room 0 (ascii "\x1b[H") ⟨[], -1, -1⟩).bind fun pen =>
          (List.range size.rows).foldlM (drawRow size.screen frame) pen).bind
            fun pen => some (pen.o, now) := (Option.bind_assoc ..).symm
    _ = _ := by
      rw [hall]
      split_ifs with hfits hfits' hfits'
      · rfl
      · exact absurd hfits hfits'
      · exact absurd hfits' hfits
      · rfl

/-! ## Colour sequences -/

/-- A colour whose channels are bytes. -/
def Rgb.IsByte (c : Rgb) : Prop := c.r ≤ 255 ∧ c.g ≤ 255 ∧ c.b ≤ 255

theorem isByte_halfColour (size : TermSize) (frame : Frame) (c p : ℕ) :
    Rgb.IsByte (size.halfColour frame c p) := boxAverage_le

theorem pack_eq {c : Rgb} (h : Rgb.IsByte c) : pack c = c.r * 65536 + c.g * 256 + c.b := by
  obtain ⟨-, hg, hb⟩ := h
  have hgb : c.g <<< 8 ||| c.b = c.g * 256 + c.b := by
    rw [← Nat.shiftLeft_add_eq_or_of_lt (by omega), Nat.shiftLeft_eq]
  rw [pack, Nat.or_assoc, hgb, ← Nat.shiftLeft_add_eq_or_of_lt (by omega), Nat.shiftLeft_eq]
  omega

/-- The channels are found again. -/
theorem channels_pack {c : Rgb} (h : Rgb.IsByte c) :
    pack c >>> 16 &&& 255 = c.r ∧ pack c >>> 8 &&& 255 = c.g ∧ pack c &&& 255 = c.b := by
  have hand : ∀ n, n &&& 255 = n % 256 := fun n => Nat.and_two_pow_sub_one_eq_mod n 8
  obtain ⟨hr, hg, hb⟩ := h
  rw [hand, hand, hand, Nat.shiftRight_eq_div_pow, Nat.shiftRight_eq_div_pow, pack_eq ⟨hr, hg, hb⟩]
  omega

theorem pack_injective {c c' : Rgb} (h : Rgb.IsByte c) (h' : Rgb.IsByte c')
    (heq : pack c = pack c') : c = c' := by
  have hchannels := channels_pack h
  rw [heq, (channels_pack h').1, (channels_pack h').2.1, (channels_pack h').2.2] at hchannels
  obtain ⟨hr, hg, hb⟩ := hchannels
  calc c = ⟨c.r, c.g, c.b⟩ := rfl
    _ = ⟨c'.r, c'.g, c'.b⟩ := by rw [hr, hg, hb]

/-- The sequence sets both colours. -/
theorem sgr_pack {fg bg : Rgb} (hfg : Rgb.IsByte fg) (hbg : Rgb.IsByte bg) :
    sgr (pack fg) (pack bg) =
      csiBytes 38 [2, fg.r, fg.g, fg.b, 48, 2, bg.r, bg.g, bg.b] 0x6d := by
  obtain ⟨hr, hg, hb⟩ := channels_pack hfg
  obtain ⟨hr', hg', hb'⟩ := channels_pack hbg
  have htwo : decimalBytes 2 = ascii "2" := by decide
  have hfront : decimalBytes 38 = ascii "38" := by decide
  have hback : decimalBytes 48 = ascii "48" := by decide
  rw [sgr, hr, hg, hb, hr', hg', hb']
  simp only [csiBytes, List.flatMap_cons, List.flatMap_nil, htwo, hfront, hback, List.append_assoc,
    List.cons_append, List.append_nil]
  rfl

/-- How many digits a colour takes. -/
def digits (c : Rgb) : ℕ :=
  (decimalBytes c.r).length + (decimalBytes c.g).length + (decimalBytes c.b).length

theorem length_sgr {fg bg : Rgb} (hfg : Rgb.IsByte fg) (hbg : Rgb.IsByte bg) :
    (sgr (pack fg) (pack bg)).length = 18 + digits fg + digits bg := by
  have htwo : (decimalBytes 2).length = 1 := by decide
  have hfront : (decimalBytes 38).length = 2 := by decide
  have hback : (decimalBytes 48).length = 2 := by decide
  rw [sgr_pack hfg hbg]
  simp only [csiBytes, List.flatMap_cons, List.flatMap_nil, List.length_append, List.length_cons,
    List.length_nil, htwo, hfront, hback, digits]
  omega

theorem digits_le {c : Rgb} (h : Rgb.IsByte c) : digits c ≤ 9 := by
  have hthree : ∀ n ≤ 255, (decimalBytes n).length ≤ 3 := by
    intro n hn
    rw [decimalBytes, List.length_map, Nat.length_toDigits_le_iff (by decide) (by decide)]
    omega
  have hr := hthree _ h.1
  have hg := hthree _ h.2.1
  have hb := hthree _ h.2.2
  rw [digits]
  omega

/-! ## How long a frame is -/

theorem length_flatMap_range {α : Type*} (f : ℕ → List α) (n : ℕ) :
    ((List.range n).flatMap f).length = ∑ i ∈ Finset.range n, (f i).length := by
  induction n with
  | zero => rfl
  | succ n ih =>
    rw [List.range_succ, List.flatMap_append, List.length_append, List.flatMap_singleton, ih,
      Finset.sum_range_succ]

theorem length_rowBytes (image : Image) (cols rows r : ℕ) :
    (rowBytes image cols rows r).length =
      ∑ c ∈ Finset.range cols, ((sgrBytes image cols r c).length + 3) +
        if r ≠ rows - 1 then 2 else 0 := by
  have hcell : ∀ c, (sgrBytes image cols r c ++ halfBlock).length =
      (sgrBytes image cols r c).length + 3 := fun c => List.length_append
  have hbreak : (ascii "\r\n").length = 2 := rfl
  rw [rowBytes, List.length_append, length_flatMap_range, Finset.sum_congr rfl fun c _ => hcell c,
    apply_ite List.length, hbreak, List.length_nil]

/-- The line breaks stand behind all rows but the last. -/
theorem length_frameBytes (image : Image) (cols : ℕ) {rows : ℕ} (hrows : 0 < rows) :
    (frameBytes image cols rows).length =
      3 + ∑ r ∈ Finset.range rows,
          ∑ c ∈ Finset.range cols, ((sgrBytes image cols r c).length + 3) + 2 * (rows - 1) := by
  obtain ⟨n, rfl⟩ := Nat.exists_eq_succ_of_ne_zero hrows.ne'
  have hbreaks : ∑ r ∈ Finset.range (n + 1), (if r ≠ n + 1 - 1 then 2 else 0) = 2 * n := by
    have hbefore : ∀ r ∈ Finset.range n, (if r ≠ n + 1 - 1 then 2 else 0) = 2 := fun r hr =>
      if_pos (Finset.mem_range.mp hr).ne
    rw [Finset.sum_range_succ, Finset.sum_congr rfl hbefore, Finset.sum_const, Finset.card_range,
      smul_eq_mul, if_neg fun hne : n ≠ n + 1 - 1 => hne rfl, Nat.add_zero, Nat.mul_comm]
  have hhome : (ascii "\x1b[H").length = 3 := rfl
  rw [frameBytes, List.length_append, length_flatMap_range,
    Finset.sum_congr rfl fun r _ => length_rowBytes image cols (n + 1) r,
    Finset.sum_add_distrib, hbreaks, hhome, Nat.add_assoc]
  rfl

namespace TermSize

variable (size : TermSize)

theorem rows_pos : 0 < size.rows := Nat.zero_lt_of_lt size.rows_gt

/-- The rectangle of a half cell has pixels. -/
def Lit (c p : ℕ) : Prop := size.left c < size.left (c + 1) ∧ size.top p < size.top (p + 1)

instance (c p : ℕ) : Decidable (size.Lit c p) := inferInstanceAs (Decidable (_ ∧ _))

/-- Neither half of a cell has pixels. -/
def Dark (r c : ℕ) : Prop := ¬size.Lit c (2 * r) ∧ ¬size.Lit c (2 * r + 1)

instance (r c : ℕ) : Decidable (size.Dark r c) := inferInstanceAs (Decidable (_ ∧ _))

/-- The cell before has no pixels. -/
def DarkBefore : ℕ → ℕ → Prop
  | r, c + 1 => size.Dark r c
  | r + 1, 0 => size.Dark r (size.cols - 1)
  | 0, 0 => False

instance : ∀ r c, Decidable (size.DarkBefore r c)
  | r, c + 1 => inferInstanceAs (Decidable (size.Dark r c))
  | r + 1, 0 => inferInstanceAs (Decidable (size.Dark r (size.cols - 1)))
  | 0, 0 => inferInstanceAs (Decidable False)

/-- The longest digits of a half cell. -/
def worstDigits (c p : ℕ) : ℕ := if size.Lit c p then 9 else 3

/-- The longest colour sequence of a cell: a cell without pixels is black, and needs none behind
another. -/
def worstSgr (r c : ℕ) : ℕ :=
  if size.Dark r c ∧ size.DarkBefore r c then 0
  else 18 + size.worstDigits c (2 * r) + size.worstDigits c (2 * r + 1)

/-- The longest frame. -/
def worstFrame : ℕ :=
  3 + ∑ r ∈ Finset.range size.rows, ∑ c ∈ Finset.range size.cols, (size.worstSgr r c + 3) +
    2 * (size.rows - 1)

/-- `DG_Init` computes no product that overflows, and `g_out` has room for the longest frame. -/
def Fits : Prop := size.NoOverflow ∧ size.worstFrame ≤ size.room

end TermSize

section Worst

variable {size : TermSize} {frame : Frame}

theorem halfColour_of_not_lit {c p : ℕ} (h : ¬size.Lit c p) : size.halfColour frame c p = ⟨0, 0, 0⟩ := by
  apply size.halfColour_of_empty
  by_contra hne
  rw [not_or] at hne
  exact h ⟨lt_of_le_of_ne (size.left_le_succ c) hne.1, lt_of_le_of_ne (size.top_le_succ p) hne.2⟩

/-- A cell without pixels is black on black. -/
theorem pair_of_dark {r c : ℕ} (h : size.Dark r c) : pair (size.image frame) r c = (0, 0) := by
  simp only [pair, TermSize.image, halfColour_of_not_lit h.1, halfColour_of_not_lit h.2]
  rfl

theorem prevPair_of_darkBefore {r c : ℕ} (h : size.DarkBefore r c) :
    prevPair (size.image frame) size.cols r c = (0, 0) := by
  rcases r with _ | r <;> rcases c with _ | c
  · exact h.elim
  · exact pair_of_dark h
  · exact pair_of_dark h
  · exact pair_of_dark h

theorem digits_le_worst (c p : ℕ) : digits (size.halfColour frame c p) ≤ size.worstDigits c p := by
  rw [TermSize.worstDigits]
  split_ifs with h
  · exact digits_le (isByte_halfColour size frame c p)
  · rw [halfColour_of_not_lit h]
    decide

theorem length_sgrBytes_le (r c : ℕ) :
    (sgrBytes (size.image frame) size.cols r c).length ≤ size.worstSgr r c := by
  rw [TermSize.worstSgr, sgrBytes]
  split_ifs with heq hdark hdark
  · exact Nat.zero_le _
  · exact Nat.zero_le _
  · exact absurd (by rw [pair_of_dark hdark.1, prevPair_of_darkBefore hdark.2]) heq
  · rw [TermSize.image, TermSize.image,
      length_sgr (isByte_halfColour size frame c _) (isByte_halfColour size frame c _)]
    have hfg := @digits_le_worst size frame c (2 * r)
    have hbg := @digits_le_worst size frame c (2 * r + 1)
    omega

theorem length_frameBytes_le :
    (frameBytes (size.image frame) size.cols size.rows).length ≤ size.worstFrame := by
  have hsum : ∑ r ∈ Finset.range size.rows, ∑ c ∈ Finset.range size.cols,
      ((sgrBytes (size.image frame) size.cols r c).length + 3) ≤
        ∑ r ∈ Finset.range size.rows, ∑ c ∈ Finset.range size.cols, (size.worstSgr r c + 3) := by
    apply Finset.sum_le_sum
    intro r _
    apply Finset.sum_le_sum
    intro c _
    exact Nat.add_le_add_right (length_sgrBytes_le r c) 3
  rw [length_frameBytes _ _ size.rows_pos, TermSize.worstFrame]
  omega

end Worst

/-! ## A frame that is as long -/

/-- Two greys of three digits, in turn. -/
def shade (i : ℕ) : ℕ := if i % 2 = 0 then 100 else 200

/-- A checkerboard of the cells: each pixel has the grey of the cell it is averaged into. -/
def checkered (size : TermSize) : Frame := fun k =>
  let c := partAt resX size.cols (k % resX)
  let p := partAt resY (size.rows * 2) (k / resX)
  BitVec.ofNat 32 (shade (p / 2 * size.cols + c) * 65793)

theorem shade_eq (i : ℕ) : shade i = 100 ∨ shade i = 200 := by
  rw [shade]
  split_ifs
  · exact Or.inl rfl
  · exact Or.inr rfl

theorem shade_succ_ne (i : ℕ) : shade (i + 1) ≠ shade i := by
  rw [shade, shade]
  split_ifs <;> omega

/-- A grey has its value in every channel. -/
theorem channel_shade (i : ℕ) {shift : ℕ} (h : shift = 16 ∨ shift = 8 ∨ shift = 0) :
    (channel shift (BitVec.ofNat 32 (shade i * 65793))).toNat = shade i := by
  rcases shade_eq i with hshade | hshade <;> rw [hshade] <;> rcases h with rfl | rfl | rfl <;> rfl

section Checkered

variable {size : TermSize}

theorem pixel_checkered {c p x y : ℕ} (hc : c < size.cols) (hp : p < size.rows * 2)
    (hx : size.left c ≤ x ∧ x < size.left (c + 1)) (hy : size.top p ≤ y ∧ y < size.top (p + 1)) :
    (checkered size).pixel x y = BitVec.ofNat 32 (shade (p / 2 * size.cols + c) * 65793) := by
  have hxlt : x < resX := hx.2.trans_le (size.left_le (Nat.succ_le_of_lt hc))
  have hylt : y < resY := hy.2.trans_le (size.top_le (Nat.succ_le_of_lt hp))
  have hcol : (y * resX + x) % resX = x := by
    rw [Nat.mul_add_mod_self_right, Nat.mod_eq_of_lt hxlt]
  have hrow : (y * resX + x) / resX = y := by
    rw [Nat.mul_comm, Nat.mul_add_div (by decide), Nat.div_eq_of_lt hxlt, Nat.add_zero]
  have hread := @read_eq_some (checkered size) x y hxlt hylt
  rw [Frame.read] at hread
  split_ifs at hread with hlt
  rw [← Option.some.inj hread, checkered]
  simp only [hcol, hrow, partAt_eq size.cols_pos hxlt hx, partAt_eq size.halfRows_pos hylt hy]

theorem boxSum_const {frame : Frame} {shift x0 x1 y0 y1 v : ℕ}
    (h : ∀ x, x0 ≤ x ∧ x < x1 → ∀ y, y0 ≤ y ∧ y < y1 → (channel shift (frame.pixel x y)).toNat = v) :
    boxSum frame shift x0 x1 y0 y1 = (x1 - x0) * (y1 - y0) * v := by
  have hrow : ∀ y ∈ Finset.Ico y0 y1,
      ∑ x ∈ Finset.Ico x0 x1, (channel shift (frame.pixel x y)).toNat = (x1 - x0) * v := by
    intro y hy
    rw [Finset.sum_congr rfl fun x hx => h x (Finset.mem_Ico.mp hx) y (Finset.mem_Ico.mp hy),
      Finset.sum_const, Nat.card_Ico, smul_eq_mul]
  rw [boxSum, Finset.sum_congr rfl hrow, Finset.sum_const, Nat.card_Ico, smul_eq_mul]
  ring

theorem halfColour_checkered {c p : ℕ} (hc : c < size.cols) (hp : p < size.rows * 2)
    (hlit : size.Lit c p) :
    size.halfColour (checkered size) c p =
      ⟨shade (p / 2 * size.cols + c), shade (p / 2 * size.cols + c),
        shade (p / 2 * size.cols + c)⟩ := by
  have harea : 0 < (size.left (c + 1) - size.left c) * (size.top (p + 1) - size.top p) :=
    Nat.mul_pos (Nat.sub_pos_of_lt hlit.1) (Nat.sub_pos_of_lt hlit.2)
  have hsum : ∀ shift, shift = 16 ∨ shift = 8 ∨ shift = 0 →
      boxSum (checkered size) shift (size.left c) (size.left (c + 1)) (size.top p)
        (size.top (p + 1)) / ((size.left (c + 1) - size.left c) * (size.top (p + 1) - size.top p)) =
          shade (p / 2 * size.cols + c) := by
    intro shift hshift
    have hconst := boxSum_const fun x hx y hy => by
      rw [pixel_checkered hc hp hx hy, channel_shade _ hshift]
    rw [hconst, Nat.mul_div_cancel_left _ harea]
  rw [TermSize.halfColour, boxAverage, hsum 16 (by decide), hsum 8 (by decide), hsum 0 (by decide)]

theorem digits_checkered {c p : ℕ} (hc : c < size.cols) (hp : p < size.rows * 2) :
    digits (size.halfColour (checkered size) c p) = size.worstDigits c p := by
  rw [TermSize.worstDigits]
  split_ifs with hlit
  · rw [halfColour_checkered hc hp hlit]
    rcases shade_eq (p / 2 * size.cols + c) with hshade | hshade <;> rw [hshade] <;> decide
  · rw [halfColour_of_not_lit hlit]
    decide

/-- The colours of the checkerboard: a grey where there are pixels. -/
theorem image_checkered {c p : ℕ} (hc : c < size.cols) (hp : p < size.rows * 2) :
    size.image (checkered size) c p =
      if size.Lit c p then shade (p / 2 * size.cols + c) * 65793 else 0 := by
  rw [TermSize.image]
  split_ifs with hlit
  · rw [halfColour_checkered hc hp hlit]
    rcases shade_eq (p / 2 * size.cols + c) with hshade | hshade <;> rw [hshade] <;> rfl
  · rw [halfColour_of_not_lit hlit]
    rfl

/-- The colours of cell `i` in reading order. -/
def checks (size : TermSize) (r c i : ℕ) : ℤ × ℤ :=
  (if size.Lit c (2 * r) then shade i * 65793 else 0,
    if size.Lit c (2 * r + 1) then shade i * 65793 else 0)

theorem pair_checkered {r c : ℕ} (hr : r < size.rows) (hc : c < size.cols) :
    pair (size.image (checkered size)) r c = checks size r c (r * size.cols + c) := by
  have hupper : 2 * r / 2 = r := by omega
  have hlower : (2 * r + 1) / 2 = r := by omega
  rw [pair, image_checkered hc (by omega), image_checkered hc (by omega), hupper, hlower, checks]
  split_ifs <;> rfl

/-- Neighbours differ unless both are dark. -/
theorem checks_ne {r c r' c' i : ℕ} (h : ¬(size.Dark r c ∧ size.Dark r' c')) :
    checks size r c (i + 1) ≠ checks size r' c' i := by
  have hnext := shade_succ_ne i
  have hshade := shade_eq i
  have hshade' := shade_eq (i + 1)
  intro heq
  obtain ⟨hupper, hlower⟩ := Prod.mk.inj heq
  -- A half that is lit on either side would make the two sides differ.
  refine h ⟨⟨?_, ?_⟩, ?_, ?_⟩
  · intro hlit
    rw [if_pos hlit] at hupper
    split_ifs at hupper <;> omega
  · intro hlit
    rw [if_pos hlit] at hlower
    split_ifs at hlower <;> omega
  · intro hlit
    rw [if_pos hlit] at hupper
    split_ifs at hupper <;> omega
  · intro hlit
    rw [if_pos hlit] at hlower
    split_ifs at hlower <;> omega

/-- The checkerboard elides nothing that can be set. -/
theorem pair_ne_prevPair {r c : ℕ} (hr : r < size.rows) (hc : c < size.cols)
    (h : ¬(size.Dark r c ∧ size.DarkBefore r c)) :
    pair (size.image (checkered size)) r c ≠ prevPair (size.image (checkered size)) size.cols r c := by
  rcases c with _ | c
  · rcases r with _ | r
    · intro heq
      have hneg : ((size.image (checkered size) 0 (2 * 0) : ℕ) : ℤ) = -1 := congrArg Prod.fst heq
      omega
    · have hprev : pair (size.image (checkered size)) r (size.cols - 1) =
          checks size r (size.cols - 1) (r * size.cols + (size.cols - 1)) :=
        pair_checkered (Nat.lt_of_succ_lt hr) (Nat.sub_lt hc Nat.one_pos)
      have hindex : (r + 1) * size.cols + 0 = r * size.cols + (size.cols - 1) + 1 := by
        rw [Nat.succ_mul]
        omega
      rw [prevPair, hprev, pair_checkered hr hc, hindex]
      exact checks_ne h
  · rw [prevPair, pair_checkered hr (Nat.lt_of_succ_lt hc), pair_checkered hr hc, ← Nat.add_assoc]
    exact checks_ne h

theorem length_sgrBytes_checkered {r c : ℕ} (hr : r < size.rows) (hc : c < size.cols) :
    (sgrBytes (size.image (checkered size)) size.cols r c).length = size.worstSgr r c := by
  rw [TermSize.worstSgr, sgrBytes]
  split_ifs with heq hdark hdark
  · rfl
  · exact absurd heq (pair_ne_prevPair hr hc hdark)
  · exact absurd (by rw [pair_of_dark hdark.1, prevPair_of_darkBefore hdark.2]) heq
  · rw [TermSize.image, TermSize.image, length_sgr (isByte_halfColour size _ c _)
      (isByte_halfColour size _ c _), digits_checkered hc (by omega), digits_checkered hc (by omega)]

/-- The checkerboard is as long as a frame can be. -/
theorem length_frameBytes_checkered :
    (frameBytes (size.image (checkered size)) size.cols size.rows).length = size.worstFrame := by
  have hsum : ∑ r ∈ Finset.range size.rows, ∑ c ∈ Finset.range size.cols,
      ((sgrBytes (size.image (checkered size)) size.cols r c).length + 3) =
        ∑ r ∈ Finset.range size.rows, ∑ c ∈ Finset.range size.cols, (size.worstSgr r c + 3) := by
    apply Finset.sum_congr rfl
    intro r hr
    apply Finset.sum_congr rfl
    intro c hc
    rw [length_sgrBytes_checkered (Finset.mem_range.mp hr) (Finset.mem_range.mp hc)]
  rw [length_frameBytes _ _ size.rows_pos, hsum, TermSize.worstFrame]

end Checkered

/-! ## Whether the buffer is large enough -/

namespace TermSize

variable (size : TermSize)

/-- `DG_Init` runs, and no `DG_DrawFrame` behind it writes or reads outside of what was
allocated. -/
def Safe : Prop :=
  ∃ scr, dgInitScreen size = some scr ∧
    ∀ frame throttle now last, (dgDrawFrame scr frame throttle now last).isSome = true

variable {size}

theorem Fits.dgDrawFrame_eq_some (h : size.Fits) (frame : Frame) (throttle now last : BitVec 32) :
    dgDrawFrame size.screen frame throttle now last =
      if now - last < throttle then some ([], last)
      else some (frameBytes (size.image frame) size.cols size.rows, now) := by
  rw [dgDrawFrame_eq, if_pos (length_frameBytes_le.trans h.2)]

/-- The checkerboard's frame has to fit. -/
theorem fits_of_checkered (hinit : dgInitScreen size ≠ none)
    (hdraw : dgDrawFrame size.screen (checkered size) 0 0 0 ≠ none) : size.Fits := by
  have hover : size.NoOverflow := by
    by_contra hover
    exact hinit (by rw [dgInitScreen_eq, if_neg hover])
  refine ⟨hover, ?_⟩
  by_contra hlong
  apply hdraw
  rw [dgDrawFrame_eq, length_frameBytes_checkered, if_neg hlong]
  rfl

theorem fits_of_safe (h : size.Safe) : size.Fits := by
  obtain ⟨scr, hinit, hdraw⟩ := h
  have hsome : dgInitScreen size ≠ none := by
    rw [hinit]
    exact Option.some_ne_none scr
  have hscr : scr = size.screen := by
    rw [dgInitScreen_eq] at hinit
    split_ifs at hinit
    exact (Option.some.inj hinit).symm
  apply fits_of_checkered hsome
  rw [← hscr]
  exact Option.isSome_iff_ne_none.mp (hdraw (checkered size) 0 0 0)

/-- Where the size of `g_out` is computed without a wrap, it is large enough. -/
theorem fits_of_room_lt (h : size.NoOverflow)
    (hroom : size.cols * size.rows * 48 + size.rows * 8 + 64 < 2 ^ 32) : size.Fits := by
  refine ⟨h, ?_⟩
  have hcell : ∀ r c, size.worstSgr r c + 3 ≤ 39 := by
    intro r c
    rw [worstSgr, worstDigits, worstDigits]
    split_ifs <;> omega
  have hsum : ∑ r ∈ Finset.range size.rows, ∑ c ∈ Finset.range size.cols,
      (size.worstSgr r c + 3) ≤ size.rows * (size.cols * 39) := by
    have hrow : ∀ r ∈ Finset.range size.rows,
        ∑ c ∈ Finset.range size.cols, (size.worstSgr r c + 3) ≤ size.cols * 39 := by
      intro r _
      have hbound := Finset.sum_le_card_nsmul (Finset.range size.cols) _ 39 fun c _ => hcell r c
      rwa [Finset.card_range, smul_eq_mul] at hbound
    have hbound := Finset.sum_le_card_nsmul _ _ _ hrow
    rwa [Finset.card_range, smul_eq_mul] at hbound
  have hcells : size.rows * (size.cols * 39) ≤ size.cols * size.rows * 48 := by
    calc size.rows * (size.cols * 39) = size.cols * size.rows * 39 := by ring
      _ ≤ size.cols * size.rows * 48 := Nat.mul_le_mul_left _ (by decide)
  rw [worstFrame, room, Nat.mod_eq_of_lt hroom]
  omega

/-- Every cell takes its glyph. -/
theorem three_mul_lt_worstFrame : 3 * (size.rows * size.cols) < size.worstFrame := by
  have hsum : size.rows * (size.cols * 3) ≤
      ∑ r ∈ Finset.range size.rows, ∑ c ∈ Finset.range size.cols, (size.worstSgr r c + 3) := by
    have hrow : ∀ r ∈ Finset.range size.rows,
        size.cols * 3 ≤ ∑ c ∈ Finset.range size.cols, (size.worstSgr r c + 3) := by
      intro r _
      have hbound := Finset.card_nsmul_le_sum (Finset.range size.cols)
        (fun c => size.worstSgr r c + 3) 3 fun c _ => Nat.le_add_left _ _
      rwa [Finset.card_range, smul_eq_mul] at hbound
    have hbound := Finset.card_nsmul_le_sum _ _ _ hrow
    rwa [Finset.card_range, smul_eq_mul] at hbound
  have hcells : 3 * (size.rows * size.cols) = size.rows * (size.cols * 3) := by ring
  rw [worstFrame]
  omega

end TermSize

/-- 22370 columns of 4000 rows: `malloc` is asked for 104768 bytes, and the glyphs alone are
268440000. -/
theorem not_fits_wrapped :
    ¬TermSize.Fits ⟨22370, 4000, by decide, by decide, by decide, by decide⟩ := by
  intro h
  exact absurd (TermSize.three_mul_lt_worstFrame.trans_le h.2) (by decide)

/-- **The frame buffer is large enough** for every frame exactly when the longest frame fits what
`malloc` was asked for, modulo 2^32. -/
theorem safe_iff (size : TermSize) : size.Safe ↔ size.Fits := by
  constructor
  · exact TermSize.fits_of_safe
  · intro h
    refine ⟨size.screen, by rw [dgInitScreen_eq, if_pos h.1], ?_⟩
    intro frame throttle now last
    rw [h.dgDrawFrame_eq_some]
    split_ifs <;> rfl

/-- On that terminal a frame is written over the end of the buffer. -/
theorem not_safe_wrapped :
    ¬TermSize.Safe ⟨22370, 4000, by decide, by decide, by decide, by decide⟩ := by
  intro h
  exact not_fits_wrapped (TermSize.fits_of_safe h)

end OsMoap.Guest
