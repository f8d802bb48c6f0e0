import OsMoap.Guest.DoomStream

/-!
# Doom's Frames on the Terminal

What a terminal makes of the bytes of a frame (`OsMoap.Lib.Terminal`).  The program elides a colour
sequence where it remembers the same pair; the terminal elides nothing.  `Drawing` is the simulation
between them: wherever the program remembers colours, the terminal is set to them, and all cells
before the cursor show the averages.

The program remembers -1 before the first cell, which is no colour, so the state the terminal was in
does not matter.
-/

namespace OsMoap.Guest

open OsMoap.Lib OsMoap.Lib.Terminal
open OsMoap.Apk (ascii)

/-! ## What is to be shown -/

/-- The average over the rectangle of a half cell, by the edges `DG_Init` has set. -/
def Screen.halfColour (scr : Screen) (frame : Frame) (c p : ℕ) : Rgb :=
  boxAverage frame (scr.xe.getD c 0) (scr.xe.getD (c + 1) 0) (scr.ye.getD p 0)
    (scr.ye.getD (p + 1) 0)

/-- An upper half block in the averages of its halves. -/
def Screen.cell (scr : Screen) (frame : Frame) (r c : ℕ) : Cell :=
  ⟨0x2580, .direct (scr.halfColour frame c (2 * r)), .direct (scr.halfColour frame c (2 * r + 1))⟩

/-- The terminal `t'` that has read a frame: every cell shows its averages, and since `t` it has
printed a glyph for each and broken the line between the rows only. -/
structure Screen.Shown (scr : Screen) (frame : Frame) (t t' : Terminal) : Prop where
  mode : t'.mode = .ground
  cells : ∀ r < scr.size.rows, ∀ c < scr.size.cols, t'.cells r c = scr.cell frame r c
  glyphs : t'.glyphs = t.glyphs + scr.size.rows * scr.size.cols
  breaks : t'.breaks = t.breaks + (scr.size.rows - 1)
  row : t'.row = scr.size.rows - 1

/-- A frame that is drawn is shown by every terminal that reads it between two items, whatever its
colours, cells and cursor; a frame that is skipped has no bytes. -/
def TermSize.Decodes (size : TermSize) : Prop :=
  ∃ scr, dgInitScreen size = some scr ∧ ∀ frame throttle now last,
    ∃ out last', dgDrawFrame scr frame throttle now last = some (out, last') ∧
      (now - last < throttle → out = []) ∧
      (¬now - last < throttle → ∀ t : Terminal, t.mode = .ground →
        scr.Shown frame t (feed size.cols size.rows out t))

/-! ## The simulation -/

section Simulation

variable (size : TermSize) (frame : Frame)

/-- The cell in the averages of the size's own edges. -/
def TermSize.cell (r c : ℕ) : Cell :=
  ⟨0x2580, .direct (size.halfColour frame c (2 * r)), .direct (size.halfColour frame c (2 * r + 1))⟩

/-- The terminal at cell `(r, c)` of a frame that it began to read as `t₀`. -/
structure Drawing (t₀ : Terminal) (r c : ℕ) (t : Terminal) : Prop where
  mode : t.mode = .ground
  row : t.row = r
  col : t.col = min c (size.cols - 1)
  wrap : t.wrap = decide (c = size.cols)
  /-- The remembered colours are the terminal's. -/
  colours : ∀ fg bg : Rgb, Rgb.IsByte fg → Rgb.IsByte bg →
    prevPair (size.image frame) size.cols r c = ((pack fg : ℤ), (pack bg : ℤ)) →
      t.fg = .direct fg ∧ t.bg = .direct bg
  cells : ∀ r' c', c' < size.cols → r' < r ∨ r' = r ∧ c' < c →
    t.cells r' c' = size.cell frame r' c'
  glyphs : t.glyphs = t₀.glyphs + (r * size.cols + c)
  breaks : t.breaks = t₀.breaks + r

variable {size frame} {t₀ t : Terminal} {r c : ℕ}

/-- Nothing is remembered at the first cell. -/
theorem drawing_home (hmode : t₀.mode = .ground) :
    Drawing size frame t₀ 0 0 (feed size.cols size.rows (ascii "\x1b[H") t₀) := by
  have hhome : ascii "\x1b[H" = [0x1b, 0x5b, 0x48] := rfl
  rw [hhome, feed_home hmode]
  exact
    { mode := hmode
      row := rfl
      col := (Nat.zero_min _).symm
      wrap := (decide_eq_false size.cols_pos.ne).symm
      colours := by
        intro fg bg _ _ hnone
        have hneg : (-1 : ℤ) = (pack fg : ℤ) := congrArg Prod.fst hnone
        omega
      cells := by
        intro r' c' _ hbefore
        omega
      glyphs := by
        rw [Nat.zero_mul]
        rfl
      breaks := rfl }

/-- The colour sequence sets the colours of the cell, and where it is elided they are set. -/
theorem feed_sgrBytes (h : Drawing size frame t₀ r c t) :
    feed size.cols size.rows (sgrBytes (size.image frame) size.cols r c) t =
      { t with
        fg := .direct (size.halfColour frame c (2 * r))
        bg := .direct (size.halfColour frame c (2 * r + 1)) } := by
  have hfg := isByte_halfColour size frame c (2 * r)
  have hbg := isByte_halfColour size frame c (2 * r + 1)
  rw [sgrBytes]
  split_ifs with heq
  · obtain ⟨htfg, htbg⟩ := h.colours _ _ hfg hbg heq.symm
    rw [feed_nil, ← htfg, ← htbg]
  · rw [TermSize.image, TermSize.image, sgr_pack hfg hbg, feed_csi h.mode _ _ (by decide)]
    exact setColours_pair _ _

theorem feed_halfBlock (cols rows : ℕ) (hmode : t.mode = .ground) (hwrap : t.wrap = false) :
    feed cols rows halfBlock t = paint cols 0x2580 t := by
  rw [halfBlock, feed_utf8 hmode (by decide) (by decide) (by decide), put, hwrap]
  rfl

/-- **One cell.** -/
theorem Drawing.cell_step (h : Drawing size frame t₀ r c t) (hc : c < size.cols) :
    Drawing size frame t₀ r (c + 1)
      (feed size.cols size.rows (sgrBytes (size.image frame) size.cols r c ++ halfBlock) t) := by
  have hwrap : t.wrap = false := by
    rw [h.wrap]
    exact decide_eq_false hc.ne
  have hcol : t.col = c := by
    rw [h.col]
    omega
  have hglyph := feed_halfBlock size.cols size.rows (t :=
    { t with
      fg := .direct (size.halfColour frame c (2 * r))
      bg := .direct (size.halfColour frame c (2 * r + 1)) }) h.mode hwrap
  rw [feed_append, feed_sgrBytes h, hglyph]
  exact
    { mode := h.mode
      row := h.row
      col := by
        simp only [paint, hcol]
        split_ifs <;> omega
      wrap := by
        simp only [paint, hcol, ← decide_not]
        exact decide_eq_decide.mpr (by omega)
      -- colours are not sent again if the cell before had the same ones
      colours := by
        intro fg bg hfg hbg hsame
        rw [prevPair, pair, Prod.mk.injEq, Int.natCast_inj, Int.natCast_inj] at hsame
        rw [← pack_injective (isByte_halfColour size frame c _) hfg hsame.1,
          ← pack_injective (isByte_halfColour size frame c _) hbg hsame.2]
        exact ⟨rfl, rfl⟩
      cells := by
        intro r' c' hc' hbefore
        simp only [paint, h.row, hcol]
        split_ifs with hhere
        · rw [hhere.1, hhere.2, TermSize.cell]
        · exact h.cells r' c' hc' (by omega)
      glyphs := by
        simp only [paint, h.glyphs]
        omega
      breaks := h.breaks }

/-- **One line break**, which is there where another row follows. -/
theorem Drawing.break_step (h : Drawing size frame t₀ r size.cols t) (hr : r + 1 < size.rows) :
    Drawing size frame t₀ (r + 1) 0 (feed size.cols size.rows (ascii "\r\n") t) := by
  have hcrlf : ascii "\r\n" = [0x0d, 0x0a] := rfl
  have hdown : (carriageReturn t).row + 1 < size.rows := by
    rw [carriageReturn, h.row]
    exact hr
  rw [hcrlf, feed_crlf h.mode, lineFeed, if_pos hdown]
  exact
    { mode := h.mode
      row := congrArg (· + 1) h.row
      col := (Nat.zero_min _).symm
      wrap := (decide_eq_false size.cols_pos.ne).symm
      colours := by
        intro fg bg hfg hbg hsame
        rw [← prevPair_cols size.cols_pos] at hsame
        exact h.colours fg bg hfg hbg hsame
      cells := by
        intro r' c' hc' hbefore
        exact h.cells r' c' hc' (by omega)
      glyphs := by
        rw [Nat.succ_mul, Nat.add_zero]
        exact h.glyphs
      breaks := congrArg (· + 1) h.breaks }

/-- The cells of a row. -/
theorem Drawing.cells_run (h : Drawing size frame t₀ r 0 t) {k : ℕ} (hk : k ≤ size.cols) :
    Drawing size frame t₀ r k (feed size.cols size.rows
      ((List.range k).flatMap fun c => sgrBytes (size.image frame) size.cols r c ++ halfBlock)
      t) := by
  induction k with
  | zero => exact h
  | succ k ih =>
    rw [List.range_succ, List.flatMap_append, List.flatMap_singleton, feed_append]
    exact (ih (Nat.le_of_succ_le hk)).cell_step hk

/-- The rows before the last. -/
theorem Drawing.rows_run (h : Drawing size frame t₀ 0 0 t) {k : ℕ} (hk : k < size.rows) :
    Drawing size frame t₀ k 0 (feed size.cols size.rows
      ((List.range k).flatMap (rowBytes (size.image frame) size.cols size.rows)) t) := by
  induction k with
  | zero => exact h
  | succ k ih =>
    rw [List.range_succ, List.flatMap_append, List.flatMap_singleton, feed_append, rowBytes,
      if_pos (by omega), feed_append]
    exact ((ih (Nat.lt_of_succ_lt hk)).cells_run le_rfl).break_step hk

/-- **A whole frame.** -/
theorem drawing_frame (hmode : t₀.mode = .ground) :
    Drawing size frame t₀ (size.rows - 1) size.cols
      (feed size.cols size.rows (frameBytes (size.image frame) size.cols size.rows) t₀) := by
  obtain ⟨n, hn⟩ := Nat.exists_eq_succ_of_ne_zero size.rows_pos.ne'
  have hlast : rowBytes (size.image frame) size.cols size.rows n =
      (List.range size.cols).flatMap
        fun c => sgrBytes (size.image frame) size.cols n c ++ halfBlock := by
    rw [rowBytes, if_neg (by omega), List.append_nil]
  have hrange : List.range size.rows = List.range n ++ [n] := by
    rw [hn]
    exact List.range_succ
  have hbefore : size.rows - 1 = n := by omega
  have hrows := (@drawing_home size frame t₀ hmode).rows_run (k := n) (by omega)
  rw [frameBytes, feed_append, hrange, List.flatMap_append, List.flatMap_singleton, feed_append,
    hlast, hbefore]
  exact hrows.cells_run le_rfl

end Simulation

/-! ## Whether a frame is shown -/

theorem halfColour_screen (size : TermSize) (frame : Frame) {c p : ℕ} (hc : c < size.cols)
    (hp : p < size.rows * 2) :
    size.screen.halfColour frame c p = size.halfColour frame c p := by
  rw [Screen.halfColour, size.xe_getD hc.le, size.xe_getD (Nat.succ_le_of_lt hc), size.ye_getD hp.le,
    size.ye_getD (Nat.succ_le_of_lt hp), TermSize.halfColour]

theorem shown_frame (size : TermSize) (frame : Frame) {t : Terminal} (hmode : t.mode = .ground) :
    size.screen.Shown frame t
      (feed size.cols size.rows (frameBytes (size.image frame) size.cols size.rows) t) := by
  have hdrawn := @drawing_frame size frame t hmode
  exact
    { mode := hdrawn.mode
      cells := by
        intro r (hr : r < size.rows) c (hc : c < size.cols)
        rw [hdrawn.cells r c hc (by omega), Screen.cell, halfColour_screen size frame hc (by omega),
          halfColour_screen size frame hc (by omega), TermSize.cell]
      glyphs := by
        have hrows := size.rows_pos
        have hcells : (size.rows - 1) * size.cols + size.cols = size.rows * size.cols := by
          rw [← Nat.succ_mul, Nat.succ_eq_add_one, Nat.sub_add_cancel hrows]
        rw [hdrawn.glyphs, hcells]
        rfl
      breaks := hdrawn.breaks
      row := hdrawn.row }

theorem TermSize.Decodes.safe {size : TermSize} (h : size.Decodes) : size.Safe := by
  obtain ⟨scr, hinit, hframes⟩ := h
  refine ⟨scr, hinit, ?_⟩
  intro frame throttle now last
  obtain ⟨out, last', hdraw, -⟩ := hframes frame throttle now last
  rw [hdraw]
  rfl

/-- **The frame stream decodes to the averaged image** for every frame and every terminal exactly
when the longest frame fits into `g_out`. -/
theorem decodes_iff (size : TermSize) : size.Decodes ↔ size.Fits := by
  constructor
  · exact fun h => TermSize.fits_of_safe h.safe
  · intro h
    refine ⟨size.screen, by rw [dgInitScreen_eq, if_pos h.1], ?_⟩
    intro frame throttle now last
    by_cases hskip : now - last < throttle
    · exact ⟨[], last, by rw [h.dgDrawFrame_eq_some, if_pos hskip], fun _ => rfl,
        fun hdrawn => absurd hskip hdrawn⟩
    · exact ⟨frameBytes (size.image frame) size.cols size.rows, now,
        by rw [h.dgDrawFrame_eq_some, if_neg hskip], fun hskipped => absurd hskipped hskip,
        fun _ t hmode => shown_frame size frame hmode⟩

/-- The same terminal shows no frame: it is never written. -/
theorem not_decodes_wrapped :
    ¬TermSize.Decodes ⟨22370, 4000, by decide, by decide, by decide, by decide⟩ := by
  intro h
  exact not_fits_wrapped (TermSize.fits_of_safe h.safe)

end OsMoap.Guest
