import OsMoap.Lib.Edges
import OsMoap.Lib.Terminal
import Mathlib.Algebra.BigOperators.Intervals
import Mathlib.Algebra.Group.Action.Defs
import Mathlib.Algebra.Order.BigOperators.Group.Finset
import Mathlib.Data.BitVec
import Mathlib.Tactic.Ring

/-!
# Doom's Sample Rectangles

`DG_Init` and `avg_block` of `guest/pkgs/doom/doomgeneric_osmoap.c`: the frame of 320 by 200 pixels
is divided into a rectangle for each half of a terminal cell, and a half is painted with the
average over its rectangle.

`int` is 32 bits wide and so is `size_t`, as on wasm32.  `none` is behaviour that C leaves
undefined: an `int` overflow, or an index outside of what was allocated.  `malloc` finds the memory
it is asked for.

The edges are those of an even division (`OsMoap.Lib.Edges`), so the rectangles are disjoint and
cover the frame.  Above 320 columns or 100 rows some are empty, and `avg_block` has a value for
those.
-/

namespace OsMoap.Guest

open OsMoap.Lib

/-! ## DG_Init -/

/-- `DOOMGENERIC_RESX` and `DOOMGENERIC_RESY` of `build.sh`. -/
def resX : ℕ := 320

def resY : ℕ := 200

/-- `g_cols` and `g_rows` as `DG_Init` leaves them. -/
structure TermSize where
  cols : ℕ
  rows : ℕ
  cols_gt : 19 < cols
  cols_lt : cols < 2 ^ 31
  rows_gt : 9 < rows
  rows_lt : rows < 2 ^ 31

/-- `if ((e = getenv(..)) && atoi(e) > least) g = atoi(e)`, from the value of `atoi`. -/
def fromEnv (least dflt : ℕ) : Option (BitVec 32) → ℕ
  | some v => if least < v.toInt then v.toInt.toNat else dflt
  | none => dflt

theorem fromEnv_gt {least dflt : ℕ} (h : least < dflt) (e : Option (BitVec 32)) :
    least < fromEnv least dflt e := by
  cases e with
  | none => exact h
  | some v =>
    rw [fromEnv]
    split_ifs with hv
    · omega
    · exact h

theorem fromEnv_lt {least dflt : ℕ} (h : dflt < 2 ^ 31) (e : Option (BitVec 32)) :
    fromEnv least dflt e < 2 ^ 31 := by
  cases e with
  | none => exact h
  | some v =>
    have hv : v.toInt < 2 ^ 31 := BitVec.toInt_lt
    rw [fromEnv]
    split_ifs
    · omega
    · exact h

/-- The size from `COLUMNS` and `LINES`; a terminal has 80 columns and 24 rows unless they say
otherwise. -/
def TermSize.ofEnv (columns lines : Option (BitVec 32)) : TermSize where
  cols := fromEnv 19 80 columns
  rows := fromEnv 9 24 lines
  cols_gt := fromEnv_gt (by decide) columns
  cols_lt := fromEnv_lt (by decide) columns
  rows_gt := fromEnv_gt (by decide) lines
  rows_lt := fromEnv_lt (by decide) lines

/-- A value of type `int`. -/
def asInt (n : ℕ) : Option ℕ := if n < 2 ^ 31 then some n else none

/-- `g_xe` or `g_ye` of `n` parts: as many `int`s as `malloc` was asked for, and the loop that sets
them. -/
def fillEdges (res n : ℕ) : Option (List ℕ) :=
  (asInt (n + 1)).bind fun count =>
    (List.range count).mapM fun i =>
      (asInt (i * res)).bind fun p =>
        if i < count * 4 % 2 ^ 32 / 4 then some (p / n) else none

/-- What `DG_Init` sets up: the size, the edges and how many bytes `g_out` has. -/
structure Screen where
  size : TermSize
  xe : List ℕ
  ye : List ℕ
  room : ℕ

/-- `DG_Init` up to the `malloc` of `g_out`; what it does with the tty is `dgInit` of
`OsMoap.Guest.Tty`. -/
def dgInitScreen (size : TermSize) : Option Screen :=
  (asInt (size.rows * 2)).bind fun py =>
    (fillEdges resX size.cols).bind fun xe =>
      (fillEdges resY py).bind fun ye =>
        (asInt (size.rows * 8)).bind fun overhead =>
          -- `(size_t)g_cols * g_rows * 48 + g_rows * 8 + 64`
          some ⟨size, xe, ye, (size.cols * size.rows * 48 + overhead + 64) % 2 ^ 32⟩

/-! ## avg_block -/

/-- `DG_ScreenBuffer`. -/
abbrev Frame := Fin (resY * resX) → BitVec 32

/-- `DG_ScreenBuffer[k]`. -/
def Frame.read (frame : Frame) (k : ℕ) : Option (BitVec 32) :=
  if h : k < resY * resX then some (frame ⟨k, h⟩) else none

/-- `(p >> shift) & 255`. -/
def channel (shift : ℕ) (p : BitVec 32) : BitVec 32 := p >>> shift &&& 255

/-- The locals of `avg_block`. -/
structure Sums where
  r : BitVec 32
  g : BitVec 32
  b : BitVec 32
  n : ℕ

/-- The body of the inner loop. -/
def Sums.add (s : Sums) (p : BitVec 32) : Sums :=
  ⟨s.r + channel 16 p, s.g + channel 8 p, s.b + channel 0 p, s.n + 1⟩

/-- The inner loop of `avg_block`. -/
def sumRow (frame : Frame) (x0 x1 y : ℕ) (s : Sums) : Option Sums :=
  (List.range' x0 (x1 - x0)).foldlM (fun s x => (frame.read (y * resX + x)).map s.add) s

/-- The loops of `avg_block`. -/
def sumBlock (frame : Frame) (x0 x1 y0 y1 : ℕ) : Option Sums :=
  (List.range' y0 (y1 - y0)).foldlM (fun s y => sumRow frame x0 x1 y s) ⟨0, 0, 0, 0⟩

/-- `avg_block`. -/
def avgBlock (frame : Frame) (x0 x1 y0 y1 : ℕ) : Option ℕ :=
  (sumBlock frame x0 x1 y0 y1).map fun s =>
    if s.n = 0 then 0
    else
      let n := BitVec.ofNat 32 s.n
      ((s.r / n) <<< 16 ||| (s.g / n) <<< 8 ||| s.b / n).toNat

/-! ## What DG_Init computes -/

theorem asInt_of_lt {n : ℕ} (h : n < 2 ^ 31) : asInt n = some n := if_pos h

theorem asInt_of_le {n : ℕ} (h : 2 ^ 31 ≤ n) : asInt n = none := if_neg (Nat.not_lt.mpr h)

section MapM

variable {α β : Type*} {f : α → Option β}

theorem mapM_eq_some_map {g : α → β} {l : List α} (h : ∀ a ∈ l, f a = some (g a)) :
    l.mapM f = some (l.map g) := by
  induction l with
  | nil => rfl
  | cons a l ih =>
    obtain ⟨ha, hl⟩ := List.forall_mem_cons.mp h
    rw [List.mapM_cons, ha, ih hl]
    rfl

theorem mapM_eq_none {l : List α} {a : α} (ha : a ∈ l) (h : f a = none) : l.mapM f = none := by
  induction l with
  | nil => cases ha
  | cons b l ih =>
    rw [List.mapM_cons]
    rcases List.mem_cons.mp ha with rfl | ha
    · rw [h]
      rfl
    · cases f b with
      | none => rfl
      | some c =>
        rw [ih ha]
        rfl

end MapM

theorem fillEdges_of_lt {res n : ℕ} (hres : 4 ≤ res) (h : n * res < 2 ^ 31) :
    fillEdges res n = some ((List.range (n + 1)).map (edge res n)) := by
  have hfour : n * 4 ≤ n * res := Nat.mul_le_mul_left n hres
  rw [fillEdges, asInt_of_lt (by omega), Option.bind_some]
  apply mapM_eq_some_map
  intro i hi
  have hle : i ≤ n := Nat.lt_succ_iff.mp (List.mem_range.mp hi)
  have hprod : i * res ≤ n * res := Nat.mul_le_mul_right res hle
  have hroom : i < (n + 1) * 4 % 2 ^ 32 / 4 := by omega
  rw [asInt_of_lt (by omega), Option.bind_some, if_pos hroom, edge]

/-- The loop reaches the last product. -/
theorem fillEdges_of_le {res n : ℕ} (h : 2 ^ 31 ≤ n * res) : fillEdges res n = none := by
  rw [fillEdges]
  rcases Nat.lt_or_ge (n + 1) (2 ^ 31) with hlt | hge
  · rw [asInt_of_lt hlt, Option.bind_some]
    apply mapM_eq_none (List.mem_range.mpr (Nat.lt_succ_self n))
    rw [asInt_of_le h, Option.bind_none]
  · rw [asInt_of_le hge, Option.bind_none]

namespace TermSize

variable (size : TermSize)

/-- No product of `DG_Init` overflows. -/
def NoOverflow : Prop := size.cols * resX < 2 ^ 31 ∧ size.rows * 2 * resY < 2 ^ 31

instance : Decidable size.NoOverflow := inferInstanceAs (Decidable (_ ∧ _))

/-- What `malloc` is asked for `g_out`. -/
def room : ℕ := (size.cols * size.rows * 48 + size.rows * 8 + 64) % 2 ^ 32

/-- What `DG_Init` sets up if no product overflows. -/
def screen : Screen where
  size := size
  xe := (List.range (size.cols + 1)).map (edge resX size.cols)
  ye := (List.range (size.rows * 2 + 1)).map (edge resY (size.rows * 2))
  room := size.room

end TermSize

theorem dgInitScreen_eq (size : TermSize) :
    dgInitScreen size = if size.NoOverflow then some size.screen else none := by
  split_ifs with h
  · obtain ⟨hcols, hrows⟩ := h
    have hprod : size.rows * 2 * 200 < 2 ^ 31 := hrows
    rw [dgInitScreen, asInt_of_lt (by omega), Option.bind_some, fillEdges_of_lt (by decide) hcols,
      Option.bind_some, fillEdges_of_lt (by decide) hrows, Option.bind_some,
      asInt_of_lt (by omega), Option.bind_some]
    rfl
  · rw [dgInitScreen]
    rcases Nat.lt_or_ge (size.rows * 2) (2 ^ 31) with hpy | hpy
    · rw [asInt_of_lt hpy, Option.bind_some]
      rcases Nat.lt_or_ge (size.cols * resX) (2 ^ 31) with hcols | hcols
      · have hrows : 2 ^ 31 ≤ size.rows * 2 * resY := by
          apply Nat.not_lt.mp
          exact fun hlt => h ⟨hcols, hlt⟩
        rw [fillEdges_of_lt (by decide) hcols, Option.bind_some, fillEdges_of_le hrows,
          Option.bind_none]
      · rw [fillEdges_of_le hcols, Option.bind_none]
    · rw [asInt_of_le hpy, Option.bind_none]

/-! ## What avg_block computes -/

/-- The pixel in column `x` of row `y`. -/
def Frame.pixel (frame : Frame) (x y : ℕ) : BitVec 32 := (frame.read (y * resX + x)).getD 0

/-- A channel's sum over a rectangle. -/
def boxSum (frame : Frame) (shift x0 x1 y0 y1 : ℕ) : ℕ :=
  ∑ y ∈ Finset.Ico y0 y1, ∑ x ∈ Finset.Ico x0 x1, (channel shift (frame.pixel x y)).toNat

/-- The average colour of a rectangle; black for an empty one. -/
def boxAverage (frame : Frame) (x0 x1 y0 y1 : ℕ) : Rgb where
  r := boxSum frame 16 x0 x1 y0 y1 / ((x1 - x0) * (y1 - y0))
  g := boxSum frame 8 x0 x1 y0 y1 / ((x1 - x0) * (y1 - y0))
  b := boxSum frame 0 x0 x1 y0 y1 / ((x1 - x0) * (y1 - y0))

/-- A colour as `avg_block` returns it. -/
def pack (c : Rgb) : ℕ := c.r <<< 16 ||| c.g <<< 8 ||| c.b

theorem read_eq_some {frame : Frame} {x y : ℕ} (hx : x < resX) (hy : y < resY) :
    frame.read (y * resX + x) = some (frame.pixel x y) := by
  have hlt : y * resX + x < resY * resX := by
    calc y * resX + x < (y + 1) * resX := by rw [Nat.succ_mul]; omega
      _ ≤ resY * resX := Nat.mul_le_mul_right resX hy
  rw [Frame.pixel, Frame.read, dif_pos hlt, Option.getD_some]

theorem channel_le (shift : ℕ) (p : BitVec 32) : (channel shift p).toNat ≤ 255 := by
  rw [channel, BitVec.toNat_and]
  exact Nat.and_le_right

/-- The locals after so much more has been added. -/
def Sums.plus (s : Sums) (r g b n : ℕ) : Sums :=
  ⟨s.r + .ofNat 32 r, s.g + .ofNat 32 g, s.b + .ofNat 32 b, s.n + n⟩

theorem Sums.plus_plus (s : Sums) (r g b n r' g' b' n' : ℕ) :
    (s.plus r g b n).plus r' g' b' n' = s.plus (r + r') (g + g') (b + b') (n + n') := by
  simp only [Sums.plus, BitVec.add_assoc, BitVec.ofNat_add, Nat.add_assoc]

theorem Sums.add_eq_plus (s : Sums) (p : BitVec 32) :
    s.add p = s.plus (channel 16 p).toNat (channel 8 p).toNat (channel 0 p).toNat 1 := by
  simp only [Sums.add, Sums.plus, BitVec.ofNat_toNat, BitVec.setWidth_eq]

/-- A loop adds up what its rounds add. -/
theorem foldlM_plus {f : Sums → ℕ → Option Sums} {R G B N : ℕ → ℕ} {a k : ℕ}
    (h : ∀ i ∈ Finset.Ico a (a + k), ∀ s, f s i = some (s.plus (R i) (G i) (B i) (N i)))
    (s : Sums) :
    (List.range' a k).foldlM f s =
      some (s.plus (∑ i ∈ Finset.Ico a (a + k), R i) (∑ i ∈ Finset.Ico a (a + k), G i)
        (∑ i ∈ Finset.Ico a (a + k), B i) (∑ i ∈ Finset.Ico a (a + k), N i)) := by
  induction k with
  | zero => simp [Sums.plus]
  | succ k ih =>
    have hbefore : ∀ i ∈ Finset.Ico a (a + k), ∀ s,
        f s i = some (s.plus (R i) (G i) (B i) (N i)) := fun i hi =>
      h i (Finset.Ico_subset_Ico_right (Nat.le_succ _) hi)
    have hlast := h (a + k) (Finset.mem_Ico.mpr ⟨Nat.le_add_right a k, Nat.lt_succ_self _⟩)
    rw [List.range'_concat, Nat.one_mul, List.foldlM_append, ih hbefore, ← Nat.add_assoc,
      Finset.sum_Ico_succ_top (Nat.le_add_right a k), Finset.sum_Ico_succ_top (Nat.le_add_right a k),
      Finset.sum_Ico_succ_top (Nat.le_add_right a k), Finset.sum_Ico_succ_top (Nat.le_add_right a k),
      ← Sums.plus_plus]
    exact (congrArg (· >>= pure) (hlast _))

section Block

variable {frame : Frame} {x0 x1 y0 y1 : ℕ} (hx : x0 ≤ x1) (hx1 : x1 ≤ resX)

include hx hx1

theorem sumRow_eq {y : ℕ} (hy : y < resY) (s : Sums) :
    sumRow frame x0 x1 y s =
      some (s.plus (∑ x ∈ Finset.Ico x0 x1, (channel 16 (frame.pixel x y)).toNat)
        (∑ x ∈ Finset.Ico x0 x1, (channel 8 (frame.pixel x y)).toNat)
        (∑ x ∈ Finset.Ico x0 x1, (channel 0 (frame.pixel x y)).toNat) (x1 - x0)) := by
  obtain ⟨k, rfl⟩ := Nat.exists_eq_add_of_le hx
  have hround : ∀ x ∈ Finset.Ico x0 (x0 + k), ∀ s : Sums,
      (frame.read (y * resX + x)).map s.add =
        some (s.plus (channel 16 (frame.pixel x y)).toNat (channel 8 (frame.pixel x y)).toNat
          (channel 0 (frame.pixel x y)).toNat 1) := by
    intro x hxk s
    have hlt : x < resX := (Finset.mem_Ico.mp hxk).2.trans_le hx1
    rw [read_eq_some hlt hy, Option.map_some, Sums.add_eq_plus]
  rw [sumRow, Nat.add_sub_cancel_left, foldlM_plus hround, Finset.sum_const, Nat.card_Ico,
    Nat.add_sub_cancel_left, smul_eq_mul, Nat.mul_one]

theorem sumBlock_eq (hy : y0 ≤ y1) (hy1 : y1 ≤ resY) :
    sumBlock frame x0 x1 y0 y1 =
      some (Sums.plus ⟨0, 0, 0, 0⟩ (boxSum frame 16 x0 x1 y0 y1) (boxSum frame 8 x0 x1 y0 y1)
        (boxSum frame 0 x0 x1 y0 y1) ((x1 - x0) * (y1 - y0))) := by
  obtain ⟨k, rfl⟩ := Nat.exists_eq_add_of_le hy
  rw [sumBlock, Nat.add_sub_cancel_left,
    foldlM_plus fun y hyk => sumRow_eq hx hx1 ((Finset.mem_Ico.mp hyk).2.trans_le hy1),
    Finset.sum_const, Nat.card_Ico, Nat.add_sub_cancel_left, smul_eq_mul, Nat.mul_comm k]
  rfl

omit hx hx1 in
theorem boxSum_le (shift : ℕ) :
    boxSum frame shift x0 x1 y0 y1 ≤ 255 * ((x1 - x0) * (y1 - y0)) := by
  have hrow : ∀ y ∈ Finset.Ico y0 y1,
      ∑ x ∈ Finset.Ico x0 x1, (channel shift (frame.pixel x y)).toNat ≤ (x1 - x0) * 255 := by
    intro y _
    have hsum := Finset.sum_le_card_nsmul (Finset.Ico x0 x1)
      (fun x => (channel shift (frame.pixel x y)).toNat) 255 fun x _ => channel_le _ _
    rwa [Nat.card_Ico, smul_eq_mul] at hsum
  have hsum := Finset.sum_le_card_nsmul _ _ _ hrow
  rw [Nat.card_Ico, smul_eq_mul] at hsum
  calc boxSum frame shift x0 x1 y0 y1 ≤ (y1 - y0) * ((x1 - x0) * 255) := hsum
    _ = 255 * ((x1 - x0) * (y1 - y0)) := by ring

omit hx hx1 in
theorem boxAverage_le : (boxAverage frame x0 x1 y0 y1).r ≤ 255 ∧
    (boxAverage frame x0 x1 y0 y1).g ≤ 255 ∧ (boxAverage frame x0 x1 y0 y1).b ≤ 255 :=
  ⟨Nat.div_le_of_le_mul (by rw [Nat.mul_comm]; exact boxSum_le 16),
    Nat.div_le_of_le_mul (by rw [Nat.mul_comm]; exact boxSum_le 8),
    Nat.div_le_of_le_mul (by rw [Nat.mul_comm]; exact boxSum_le 0)⟩

omit hx hx1 in
/-- The division of two locals. -/
theorem udiv_ofNat {sum n : ℕ} (hsum : sum ≤ 255 * n) (hn : n ≤ 320 * 200) :
    (BitVec.ofNat 32 sum / BitVec.ofNat 32 n).toNat = sum / n := by
  rw [BitVec.toNat_udiv, BitVec.toNat_ofNat, BitVec.toNat_ofNat, Nat.mod_eq_of_lt (by omega),
    Nat.mod_eq_of_lt (by omega)]

theorem avgBlock_eq (hy : y0 ≤ y1) (hy1 : y1 ≤ resY) :
    avgBlock frame x0 x1 y0 y1 = some (pack (boxAverage frame x0 x1 y0 y1)) := by
  have harea : (x1 - x0) * (y1 - y0) ≤ 320 * 200 :=
    Nat.mul_le_mul ((Nat.sub_le x1 x0).trans hx1) ((Nat.sub_le y1 y0).trans hy1)
  rw [avgBlock, sumBlock_eq hx hx1 hy hy1, Option.map_some]
  apply congrArg some
  simp only [Sums.plus, zero_add]
  rcases Nat.eq_zero_or_pos ((x1 - x0) * (y1 - y0)) with hzero | hpos
  · simp only [hzero, if_true, pack, boxAverage, Nat.div_zero]
    rfl
  · obtain ⟨hr, hg, hb⟩ := @boxAverage_le frame x0 x1 y0 y1
    rw [if_neg hpos.ne', BitVec.toNat_or, BitVec.toNat_or, BitVec.toNat_shiftLeft,
      BitVec.toNat_shiftLeft, udiv_ofNat (boxSum_le 16) harea, udiv_ofNat (boxSum_le 8) harea,
      udiv_ofNat (boxSum_le 0) harea]
    have hred : (boxAverage frame x0 x1 y0 y1).r <<< 16 < 2 ^ 32 := by
      rw [Nat.shiftLeft_eq]
      omega
    have hgreen : (boxAverage frame x0 x1 y0 y1).g <<< 8 < 2 ^ 32 := by
      rw [Nat.shiftLeft_eq]
      omega
    rw [pack, ← Nat.mod_eq_of_lt hred, ← Nat.mod_eq_of_lt hgreen]
    rfl

end Block

/-! ## The rectangles -/

/-- Edges from 0 to `res` in order, one more than there are parts. -/
structure RunsTo (edges : List ℕ) (n res : ℕ) : Prop where
  length : edges.length = n + 1
  sorted : edges.Pairwise (· ≤ ·)
  first : edges.head? = some 0
  last : edges.getLast? = some res

/-- Pixel `(x, y)` lies in the rectangle of column `c` and half row `p`. -/
def Screen.InHalf (scr : Screen) (c p x y : ℕ) : Prop :=
  (scr.xe.getD c 0 ≤ x ∧ x < scr.xe.getD (c + 1) 0) ∧
    scr.ye.getD p 0 ≤ y ∧ y < scr.ye.getD (p + 1) 0

/-- The rectangles cover each pixel once. -/
structure Screen.Tiles (scr : Screen) : Prop where
  columns : RunsTo scr.xe scr.size.cols resX
  halfRows : RunsTo scr.ye (scr.size.rows * 2) resY
  once : ∀ x < resX, ∀ y < resY, ∃! half : ℕ × ℕ,
    half.1 < scr.size.cols ∧ half.2 < scr.size.rows * 2 ∧ scr.InHalf half.1 half.2 x y

/-- Every rectangle has a pixel. -/
def Screen.NoneEmpty (scr : Screen) : Prop :=
  ∀ c < scr.size.cols, ∀ p < scr.size.rows * 2, ∃ x y, scr.InHalf c p x y

/-- `DG_Init` sets the edges, they tile the frame and no rectangle is empty. -/
def TermSize.Tiled (size : TermSize) : Prop :=
  ∃ scr, dgInitScreen size = some scr ∧ scr.Tiles ∧ scr.NoneEmpty

theorem runsTo_edges {res n : ℕ} (hn : 0 < n) :
    RunsTo ((List.range (n + 1)).map (edge res n)) n res where
  length := by rw [List.length_map, List.length_range]
  sorted := List.pairwise_map.mpr (List.pairwise_le_range.imp fun h => edge_mono h)
  first := by rw [List.head?_map, List.range_succ_eq_map, List.head?_cons, Option.map_some, edge_zero]
  last := by
    rw [List.getLast?_map, List.range_succ, List.getLast?_concat, Option.map_some, edge_last hn]

theorem getElem?_edges {res n i : ℕ} (h : i ≤ n) :
    ((List.range (n + 1)).map (edge res n))[i]? = some (edge res n i) := by
  rw [List.getElem?_map, List.getElem?_range (Nat.lt_succ_of_le h), Option.map_some]

namespace TermSize

variable (size : TermSize)

theorem cols_pos : 0 < size.cols := Nat.zero_lt_of_lt size.cols_gt

theorem halfRows_pos : 0 < size.rows * 2 := by
  have := size.rows_gt
  omega

/-- Where a column begins. -/
def left (c : ℕ) : ℕ := edge resX size.cols c

/-- Where a half row begins. -/
def top (p : ℕ) : ℕ := edge resY (size.rows * 2) p

theorem xe_getElem? {c : ℕ} (h : c ≤ size.cols) : size.screen.xe[c]? = some (size.left c) :=
  getElem?_edges h

theorem ye_getElem? {p : ℕ} (h : p ≤ size.rows * 2) : size.screen.ye[p]? = some (size.top p) :=
  getElem?_edges h

theorem xe_getD {c : ℕ} (h : c ≤ size.cols) : size.screen.xe.getD c 0 = size.left c := by
  rw [List.getD_eq_getElem?_getD, size.xe_getElem? h, Option.getD_some]

theorem ye_getD {p : ℕ} (h : p ≤ size.rows * 2) : size.screen.ye.getD p 0 = size.top p := by
  rw [List.getD_eq_getElem?_getD, size.ye_getElem? h, Option.getD_some]

theorem left_le_succ (c : ℕ) : size.left c ≤ size.left (c + 1) := edge_mono (Nat.le_succ c)

theorem top_le_succ (p : ℕ) : size.top p ≤ size.top (p + 1) := edge_mono (Nat.le_succ p)

theorem left_le {c : ℕ} (h : c ≤ size.cols) : size.left c ≤ resX := edge_le h size.cols_pos

theorem top_le {p : ℕ} (h : p ≤ size.rows * 2) : size.top p ≤ resY := edge_le h size.halfRows_pos

theorem inHalf_iff {c p x y : ℕ} (hc : c < size.cols) (hp : p < size.rows * 2) :
    size.screen.InHalf c p x y ↔
      (size.left c ≤ x ∧ x < size.left (c + 1)) ∧ size.top p ≤ y ∧ y < size.top (p + 1) := by
  rw [Screen.InHalf, size.xe_getD hc.le, size.xe_getD (Nat.succ_le_of_lt hc), size.ye_getD hp.le,
    size.ye_getD (Nat.succ_le_of_lt hp)]

theorem tiles_screen : size.screen.Tiles where
  columns := runsTo_edges size.cols_pos
  halfRows := runsTo_edges size.halfRows_pos
  once := by
    intro x hx y hy
    obtain ⟨c, ⟨hc, hxc⟩, -⟩ := existsUnique_part size.cols_pos hx
    obtain ⟨p, ⟨hp, hyp⟩, -⟩ := existsUnique_part size.halfRows_pos hy
    refine ⟨(c, p), ⟨hc, hp, (size.inHalf_iff hc hp).mpr ⟨hxc, hyp⟩⟩, ?_⟩
    rintro ⟨c', p'⟩ ⟨hc', hp', hin⟩
    obtain ⟨hxc', hyp'⟩ := (size.inHalf_iff hc' hp').mp hin
    exact Prod.ext (part_unique hxc' hxc) (part_unique hyp' hyp)

/-- A rectangle has a pixel if it has a width and a height. -/
theorem exists_inHalf_iff {c p : ℕ} (hc : c < size.cols) (hp : p < size.rows * 2) :
    (∃ x y, size.screen.InHalf c p x y) ↔
      size.left c < size.left (c + 1) ∧ size.top p < size.top (p + 1) := by
  constructor
  · rintro ⟨x, y, hin⟩
    obtain ⟨hx, hy⟩ := (size.inHalf_iff hc hp).mp hin
    exact ⟨hx.1.trans_lt hx.2, hy.1.trans_lt hy.2⟩
  · rintro ⟨hwidth, hheight⟩
    exact ⟨size.left c, size.top p,
      (size.inHalf_iff hc hp).mpr ⟨⟨le_rfl, hwidth⟩, le_rfl, hheight⟩⟩

theorem noneEmpty_iff :
    size.screen.NoneEmpty ↔ size.cols ≤ resX ∧ size.rows * 2 ≤ resY := by
  rw [← forall_part_nonempty_iff size.cols_pos, ← forall_part_nonempty_iff size.halfRows_pos]
  constructor
  · intro h
    constructor
    · intro c hc
      exact ((size.exists_inHalf_iff hc size.halfRows_pos).mp (h c hc 0 size.halfRows_pos)).1
    · intro p hp
      exact ((size.exists_inHalf_iff size.cols_pos hp).mp (h 0 size.cols_pos p hp)).2
  · rintro ⟨hcols, hrows⟩ c hc p hp
    exact (size.exists_inHalf_iff hc hp).mpr ⟨hcols c hc, hrows p hp⟩

/-- The colour of a half cell. -/
def halfColour (frame : Frame) (c p : ℕ) : Rgb :=
  boxAverage frame (size.left c) (size.left (c + 1)) (size.top p) (size.top (p + 1))

theorem avgBlock_half (frame : Frame) {c p : ℕ} (hc : c < size.cols) (hp : p < size.rows * 2) :
    avgBlock frame (size.left c) (size.left (c + 1)) (size.top p) (size.top (p + 1)) =
      some (pack (size.halfColour frame c p)) :=
  avgBlock_eq (size.left_le_succ c) (size.left_le (Nat.succ_le_of_lt hc)) (size.top_le_succ p)
    (size.top_le (Nat.succ_le_of_lt hp))

/-- An empty rectangle is black. -/
theorem halfColour_of_empty (frame : Frame) {c p : ℕ}
    (h : size.left c = size.left (c + 1) ∨ size.top p = size.top (p + 1)) :
    size.halfColour frame c p = ⟨0, 0, 0⟩ := by
  have harea : (size.left (c + 1) - size.left c) * (size.top (p + 1) - size.top p) = 0 := by
    rcases h with h | h
    · rw [h, Nat.sub_self, Nat.zero_mul]
    · rw [h, Nat.sub_self, Nat.mul_zero]
  rw [halfColour, boxAverage, harea, Nat.div_zero, Nat.div_zero, Nat.div_zero]

end TermSize

/-- The rectangles tile the frame; above 320 columns or 100 rows some are empty, and `avg_block`
returns 0 for those. -/
theorem dgInitScreen_tiles (size : TermSize) (h : size.NoOverflow) :
    ∃ scr, dgInitScreen size = some scr ∧ scr.size = size ∧ scr.Tiles ∧
      (scr.NoneEmpty ↔ size.cols ≤ resX ∧ size.rows * 2 ≤ resY) ∧
      ∀ c < size.cols, ∀ p < size.rows * 2, (∀ x y, ¬scr.InHalf c p x y) →
        ∀ frame, avgBlock frame (scr.xe.getD c 0) (scr.xe.getD (c + 1) 0) (scr.ye.getD p 0)
          (scr.ye.getD (p + 1) 0) = some 0 := by
  refine ⟨size.screen, by rw [dgInitScreen_eq, if_pos h], rfl, size.tiles_screen, size.noneEmpty_iff, ?_⟩
  intro c hc p hp hempty frame
  have hdegenerate : size.left c = size.left (c + 1) ∨ size.top p = size.top (p + 1) := by
    by_contra hne
    rw [not_or] at hne
    obtain ⟨x, y, hin⟩ := (size.exists_inHalf_iff hc hp).mpr
      ⟨lt_of_le_of_ne (size.left_le_succ c) hne.1, lt_of_le_of_ne (size.top_le_succ p) hne.2⟩
    exact hempty x y hin
  rw [size.xe_getD hc.le, size.xe_getD (Nat.succ_le_of_lt hc), size.ye_getD hp.le,
    size.ye_getD (Nat.succ_le_of_lt hp), size.avgBlock_half frame hc hp,
    size.halfColour_of_empty frame hdegenerate]
  rfl

/-- The terminal `DG_Init` assumes if the environment says nothing. -/
theorem dgInitScreen_tiles_default :
    ∃ scr, dgInitScreen (.ofEnv none none) = some scr ∧ scr.size = .ofEnv none none ∧ scr.Tiles ∧
      (scr.NoneEmpty ↔ 80 ≤ resX ∧ 24 * 2 ≤ resY) ∧
      ∀ c < 80, ∀ p < 24 * 2, (∀ x y, ¬scr.InHalf c p x y) →
        ∀ frame, avgBlock frame (scr.xe.getD c 0) (scr.xe.getD (c + 1) 0) (scr.ye.getD p 0)
          (scr.ye.getD (p + 1) 0) = some 0 :=
  dgInitScreen_tiles (.ofEnv none none) (by decide)

/-- One column too many leaves a column without pixels, and from 6710887 columns on the last product
is no `int`. -/
theorem not_tiled_wide :
    ¬TermSize.Tiled ⟨321, 10, by decide, by decide, by decide, by decide⟩ ∧
      ¬TermSize.Tiled ⟨6710887, 10, by decide, by decide, by decide, by decide⟩ := by
  constructor
  · rintro ⟨scr, hinit, -, hnone⟩
    rw [dgInitScreen_eq, if_pos (by decide)] at hinit
    obtain rfl := Option.some.inj hinit
    exact absurd ((TermSize.noneEmpty_iff _).mp hnone).1 (by decide)
  · rintro ⟨scr, hinit, -⟩
    rw [dgInitScreen_eq, if_neg (by decide)] at hinit
    cases hinit

end OsMoap.Guest
