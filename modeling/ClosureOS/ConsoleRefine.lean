import ClosureOS.BootTty
import ClosureOS.GridTerminal

/-!
The frame buffer console shows a grid terminal. The loops of boot_tty.c compute every
index in wrapping 32-bit arithmetic; on a screen of fewer than 2^32 pixels none wraps, so
the scroll moves the picture up by one line of text, and drawing a character changes the
pixels of its cell only. From this each class of characters is one step of the terminal.
-/
namespace ClosureOS

open Raster Raster.Buffer

namespace BootTty

/-- The grid of the console, in characters, and its sizes in pixels. -/
abbrev rows (t : BootTty) : ℕ := t.maxChNrY.toNat

abbrev cols (t : BootTty) : ℕ := t.maxChNrX.toNat

abbrev width (t : BootTty) : ℕ := t.bootFbWidth.toNat

abbrev height (t : BootTty) : ℕ := t.bootFbHeight.toNat

abbrev glyphWidth (t : BootTty) : ℕ := t.fontWidth.toNat

abbrev glyphHeight (t : BootTty) : ℕ := t.fontHeight.toNat

/-- The grid is not empty and lies on a screen of fewer than 2^32 pixels. -/
structure Fits (t : BootTty) : Prop where
  rows_pos : 0 < t.rows
  cols_pos : 0 < t.cols
  area : t.width * t.height < 2 ^ 32
  width : t.cols * t.glyphWidth ≤ t.width
  height : t.rows * t.glyphHeight ≤ t.height
  line : 0 < t.glyphHeight
  cols_lt : t.cols < 2 ^ 31

/-- The cell under the cursor lies on the screen, and neither its first pixel in whole lines nor
its own lines wrap in 32 bits. -/
structure CellFits (t : BootTty) (s : BootFb) : Prop where
  line : s.cursorY.toNat * t.glyphHeight + t.glyphHeight ≤ t.height
  column : s.cursorX.toNat * t.glyphWidth + t.glyphWidth ≤ t.width
  top : s.cursorY.toNat * t.glyphHeight * t.width < 2 ^ 32
  lines : ∀ y < t.glyphHeight, y * t.width < 2 ^ 32

/-- The mask with which column x of a glyph is tested. -/
def maskAt : ℕ → BitVec 8
  | 0 => 1#8 <<< 7
  | x + 1 => if x % 8 = 0 then 1#8 <<< 7 else maskAt x >>> 1

/-- Pixel (y, x) of a character, as the drawing loop tests it. -/
def glyphPixel (t : BootTty) (ch : BitVec 16) (fg bg : BitVec 32) (y x : ℕ) : BitVec 32 :=
  if t.fontBytes (t.glyphStart ch + y * t.fontWidthBytes.toNat + x / 8) &&& maskAt x ≠ 0#8 then fg
  else bg

section Arithmetic

variable {t : BootTty} {x y : ℕ}

theorem toNat_ofNat_of_lt {n : BitVec 32} (h : x < n.toNat) : (BitVec.ofNat 32 x).toNat = x := by
  rw [BitVec.toNat_ofNat, Nat.mod_eq_of_lt (h.trans n.isLt)]

theorem toNat_mul_of_lt {a b : BitVec 32} (h : a.toNat * b.toNat < 2 ^ 32) :
    (a * b).toNat = a.toNat * b.toNat := by
  rw [BitVec.toNat_mul, Nat.mod_eq_of_lt h]

/-- The rows above the last line of text. -/
theorem toNat_scrolled (ht : t.Fits) :
    ((t.maxChNrY - 1#32) * t.fontHeight).toNat = (t.rows - 1) * t.glyphHeight := by
  have hpos := ht.rows_pos
  have hsub : (t.maxChNrY - 1#32).toNat = t.rows - 1 := by
    rw [BitVec.toNat_sub_of_le (by rw [BitVec.le_def]; exact hpos)]
    rfl
  have hle : (t.rows - 1) * t.glyphHeight ≤ t.rows * t.glyphHeight :=
    Nat.mul_le_mul_right _ (Nat.sub_le _ _)
  have hheight := ht.height
  rw [toNat_mul_of_lt, hsub]
  rw [hsub]
  exact (hle.trans hheight).trans_lt t.bootFbHeight.isLt

theorem last_line (ht : t.Fits) :
    (t.rows - 1) * t.glyphHeight + t.glyphHeight = t.rows * t.glyphHeight := by
  rw [← Nat.succ_mul, Nat.succ_eq_add_one, Nat.sub_add_cancel ht.rows_pos]

/-- No index of the screen wraps. -/
theorem toNat_index {a b : BitVec 32} (harea : t.width * t.height < 2 ^ 32) (ha : a.toNat < t.width)
    (hb : b.toNat < t.height) : (a + b * t.bootFbWidth).toNat = a.toNat + b.toNat * t.width := by
  have hlt := (index_lt ha hb).trans harea
  rw [BitVec.toNat_add, toNat_mul_of_lt ((Nat.le_add_left _ _).trans_lt hlt), Nat.mod_eq_of_lt hlt]

theorem toNat_setWidth64 (a : BitVec 32) : (a.setWidth 64).toNat = a.toNat := by
  rw [BitVec.toNat_setWidth, Nat.mod_eq_of_lt (a.isLt.trans (by decide))]

/-- The same with the index computed on size_t. -/
theorem toNat_index64 {a b : BitVec 32} (harea : t.width * t.height < 2 ^ 32)
    (ha : a.toNat < t.width) (hb : b.toNat < t.height) :
    (b.setWidth 64 * t.bootFbWidth.setWidth 64 + a.setWidth 64).toNat =
      a.toNat + b.toNat * t.width := by
  have hlt : a.toNat + b.toNat * t.width < 2 ^ 64 :=
    ((index_lt ha hb).trans harea).trans (by decide)
  rw [BitVec.toNat_add, BitVec.toNat_mul, toNat_setWidth64, toNat_setWidth64, toNat_setWidth64,
    Nat.mod_eq_of_lt ((Nat.le_add_left _ _).trans_lt hlt), Nat.add_comm, Nat.mod_eq_of_lt hlt]

end Arithmetic

section Scroll

variable {t : BootTty} {b : Buffer (BitVec 32)} {y : ℕ}

theorem paints_scrollRow (ht : t.Fits) (hy : y < (t.rows - 1) * t.glyphHeight)
    (b : Buffer (BitVec 32)) :
    Paints t.width t.height b (t.scrollRow (BitVec.ofNat 32 y) b) fun y' x' =>
      if y' = y then b.pixel t.width (y + t.glyphHeight) x' else b.pixel t.width y' x' := by
  have hlast := last_line ht
  have hheight := ht.height
  have hlt : y + t.glyphHeight < t.height := by omega
  have hrow : (BitVec.ofNat 32 y).toNat = y :=
    toNat_ofNat_of_lt (n := t.bootFbHeight) (show y < t.height by omega)
  have hsrc : (BitVec.ofNat 32 y + t.fontHeight).toNat = y + t.glyphHeight := by
    rw [BitVec.toNat_add, hrow, Nat.mod_eq_of_lt (hlt.trans t.bootFbHeight.isLt)]
  refine paints_copyRow ht.line (by omega) (fun x hx => ?_) (fun x hx => ?_) b
  · have hcol := toNat_ofNat_of_lt (n := t.bootFbWidth) hx
    rw [toNat_index ht.area (hcol.trans_lt hx) (by omega), hcol, hrow]
  · have hcol := toNat_ofNat_of_lt (n := t.bootFbWidth) hx
    rw [toNat_index ht.area (hcol.trans_lt hx) (hsrc.trans_lt hlt), hcol, hsrc]

theorem paints_clearRow (ht : t.Fits) (bg : BitVec 32) (hy : y < t.glyphHeight)
    (b : Buffer (BitVec 32)) :
    Paints t.width t.height b (t.clearRow bg (BitVec.ofNat 32 y) b) fun y' x' =>
      if y' = (t.rows - 1) * t.glyphHeight + y ∧ 0 ≤ x' ∧ x' < 0 + t.width then bg
      else b.pixel t.width y' x' := by
  have hlast := last_line ht
  have hheight := ht.height
  have hlines : (BitVec.ofNat 32 y + (t.maxChNrY - 1#32) * t.fontHeight).toNat =
      (t.rows - 1) * t.glyphHeight + y := by
    rw [BitVec.toNat_add, toNat_scrolled ht, toNat_ofNat_of_lt hy, Nat.add_comm,
      Nat.mod_eq_of_lt ((show _ < t.height by omega).trans t.bootFbHeight.isLt)]
  refine paints_row (fun _ => bg) (Nat.zero_add _).le (by omega) (fun x hx => ?_) b
  have hcol := toNat_ofNat_of_lt (n := t.bootFbWidth) hx
  rw [toNat_index64 ht.area (hcol.trans_lt hx) (hlines.trans_lt (by omega)), hcol, hlines,
    Nat.zero_add]

/-- The scroll moves the picture up by one line of text and clears the last line. -/
theorem paints_scrollUp (ht : t.Fits) (bg : BitVec 32) (b : Buffer (BitVec 32)) :
    Paints t.width t.height b (t.scrollUp bg b) fun y' x' =>
      if y' < (t.rows - 1) * t.glyphHeight then b.pixel t.width (y' + t.glyphHeight) x'
      else if y' < t.rows * t.glyphHeight then bg else b.pixel t.width y' x' := by
  have hlast := last_line ht
  have hup := paints_copyRows (n := (t.rows - 1) * t.glyphHeight)
    (fun y hy => paints_scrollRow ht hy) ht.line b
  have hclear := paints_rect (fun _ _ => bg) (fun y hy => paints_clearRow ht bg hy)
    (countedLoop ((t.rows - 1) * t.glyphHeight) (fun y => t.scrollRow (BitVec.ofNat 32 y)) b)
  rw [scrollUp, toNat_scrolled ht]
  refine (hup.trans hclear).congr fun y' x' hx' => ?_
  rw [hup.pixel y' x' hx']
  by_cases hlow : y' < (t.rows - 1) * t.glyphHeight
  · rw [if_neg (by omega), if_pos hlow, if_pos hlow]
  · by_cases hhigh : y' < t.rows * t.glyphHeight
    · rw [if_pos (by omega), if_neg hlow, if_pos hhigh]
    · rw [if_neg (by omega), if_neg hlow, if_neg hlow, if_neg hhigh]

end Scroll

/-! ### Drawing a character -/

section Draw

variable {t : BootTty} {b : Buffer (BitVec 32)} {x y row col : ℕ} {fg bg : BitVec 32}

/-- The inner loop with the mask written out. -/
theorem drawPixel_loop (loc : BitVec 64) (glyph : ℕ) (fg bg chY : BitVec 32)
    (b : Buffer (BitVec 32)) {n : ℕ} (hn : n ≤ t.glyphWidth) :
    countedLoop n (t.drawPixel loc glyph fg bg chY) (1#8 <<< 7, b) =
      (maskAt n, countedLoop n (fun x b => b.store
        (loc + (chY * t.bootFbWidth).setWidth 64 + (BitVec.ofNat 32 x).setWidth 64).toNat
        (if t.fontBytes (glyph + x / 8) &&& maskAt x ≠ 0#8 then fg else bg)) b) := by
  induction n with
  | zero => rfl
  | succ n ih =>
    have hcol := toNat_ofNat_of_lt (n := t.fontWidth) (show n < t.fontWidth.toNat from hn)
    have hdiv : (BitVec.ofNat 32 n / 8#32).toNat = n / 8 := by
      rw [BitVec.toNat_udiv, hcol]
      rfl
    have hmod : BitVec.ofNat 32 n % 8#32 = 0#32 ↔ n % 8 = 0 := by
      rw [← BitVec.toNat_inj, BitVec.toNat_umod, hcol]
      rfl
    rw [countedLoop_succ, countedLoop_succ, ih (Nat.le_of_succ_le hn)]
    simp only [drawPixel, hdiv, hmod, maskAt]

/-- The outer loop with the glyph pointer written out. -/
theorem drawGlyphRow_loop (loc : BitVec 64) (glyph : ℕ) (fg bg : BitVec 32)
    (b : Buffer (BitVec 32)) (n : ℕ) :
    countedLoop n (t.drawGlyphRow loc fg bg) (glyph, b) =
      (glyph + n * t.fontWidthBytes.toNat, countedLoop n (fun y b =>
        (t.drawGlyphRow loc fg bg y (glyph + y * t.fontWidthBytes.toNat, b)).2) b) := by
  induction n with
  | zero => simp
  | succ n ih =>
    rw [countedLoop_succ, countedLoop_succ, ih]
    refine Prod.ext ?_ rfl
    simp only [drawGlyphRow, Nat.succ_mul, Nat.add_assoc]

/-- Every cell of a grid that fits. -/
theorem Fits.cell {s : BootFb} (ht : t.Fits) (hrow : s.cursorY.toNat < t.rows)
    (hcol : s.cursorX.toNat < t.cols) : t.CellFits s := by
  have hline : s.cursorY.toNat * t.glyphHeight + t.glyphHeight ≤ t.height := by
    rw [← Nat.succ_mul]
    exact (Nat.mul_le_mul_right _ hrow).trans ht.height
  have hcolumn : s.cursorX.toNat * t.glyphWidth + t.glyphWidth ≤ t.width := by
    rw [← Nat.succ_mul]
    exact (Nat.mul_le_mul_right _ hcol).trans ht.width
  have harea : ∀ y ≤ t.height, y * t.width < 2 ^ 32 := fun y hy =>
    ((Nat.mul_le_mul_right _ hy).trans_eq (Nat.mul_comm _ _)).trans_lt ht.area
  exact ⟨hline, hcolumn, harea _ (by omega), fun y hy => harea y (by omega)⟩

/-- The index at which the loops draw pixel (y, x) of the cell in the given row and
column. -/
theorem toNat_cell_index {s : BootFb} (hy : y < t.glyphHeight) (hx : x < t.glyphWidth)
    (hline : s.cursorY.toNat * t.glyphHeight + y < t.height)
    (hcolumn : s.cursorX.toNat * t.glyphWidth + x < t.width)
    (htop : s.cursorY.toNat * t.glyphHeight * t.width < 2 ^ 32) (hlines : y * t.width < 2 ^ 32) :
    ((s.cursorY * t.fontHeight * t.bootFbWidth).setWidth 64 +
        (s.cursorX * t.fontWidth).setWidth 64 +
        (BitVec.ofNat 32 y * t.bootFbWidth).setWidth 64 + (BitVec.ofNat 32 x).setWidth 64).toNat =
      s.cursorX.toNat * t.glyphWidth + x + (s.cursorY.toNat * t.glyphHeight + y) * t.width := by
  have hsum : s.cursorX.toNat * t.glyphWidth + x + (s.cursorY.toNat * t.glyphHeight + y) * t.width =
      s.cursorY.toNat * t.glyphHeight * t.width + s.cursorX.toNat * t.glyphWidth +
        y * t.width + x := by ring
  have hrow : (s.cursorY * t.fontHeight).toNat = s.cursorY.toNat * t.glyphHeight :=
    toNat_mul_of_lt ((Nat.le_add_right _ _).trans_lt (hline.trans t.bootFbHeight.isLt))
  have hleft : (s.cursorX * t.fontWidth).toNat = s.cursorX.toNat * t.glyphWidth :=
    toNat_mul_of_lt ((Nat.le_add_right _ _).trans_lt (hcolumn.trans t.bootFbWidth.isLt))
  have hy' := toNat_ofNat_of_lt (n := t.fontHeight) hy
  have hx' := toNat_ofNat_of_lt (n := t.fontWidth) hx
  have hcell : (s.cursorY * t.fontHeight * t.bootFbWidth).toNat =
      s.cursorY.toNat * t.glyphHeight * t.width := by
    rw [toNat_mul_of_lt, hrow]
    rwa [hrow]
  have hinner : (BitVec.ofNat 32 y * t.bootFbWidth).toNat = y * t.width := by
    rw [toNat_mul_of_lt, hy']
    rwa [hy']
  have hwidth := t.bootFbWidth.isLt
  rw [hsum, BitVec.toNat_add, BitVec.toNat_add, BitVec.toNat_add, toNat_setWidth64,
    toNat_setWidth64, toNat_setWidth64, toNat_setWidth64, hcell, hleft, hinner, hx']
  omega

/-- Drawing a character writes the pixels of the cell under the cursor. -/
theorem paints_glyph {s : BootFb} (hs : t.CellFits s) (ch : BitVec 16) (fg bg : BitVec 32) :
    Paints t.width t.height s.fb (countedLoop t.glyphHeight (t.drawGlyphRow
        ((s.cursorY * t.fontHeight * t.bootFbWidth).setWidth 64 +
          (s.cursorX * t.fontWidth).setWidth 64) fg bg) (t.glyphStart ch, s.fb)).2
      fun y' x' =>
        if (s.cursorY.toNat * t.glyphHeight ≤ y' ∧
            y' < s.cursorY.toNat * t.glyphHeight + t.glyphHeight) ∧
          s.cursorX.toNat * t.glyphWidth ≤ x' ∧
            x' < s.cursorX.toNat * t.glyphWidth + t.glyphWidth then
          t.glyphPixel ch fg bg (y' - s.cursorY.toNat * t.glyphHeight)
            (x' - s.cursorX.toNat * t.glyphWidth)
        else s.fb.pixel t.width y' x' := by
  rw [drawGlyphRow_loop]
  refine paints_rect (t.glyphPixel ch fg bg) (fun y hy b => ?_) s.fb
  have hline := hs.line
  have hcolumn := hs.column
  simp only [drawGlyphRow, drawPixel_loop _ _ _ _ _ _ (Nat.le_refl t.glyphWidth)]
  exact paints_row (t.glyphPixel ch fg bg y) hcolumn (by omega) (fun x hx =>
    toNat_cell_index hy hx (by omega) (by omega) hs.top (hs.lines y hy)) b

end Draw

/-! ### The terminal that is shown -/

/-- Pixel (y, x) of a cell; a blank one is black. -/
def cellPixel (t : BootTty) (held : Option (BitVec 16)) (y x : ℕ) : BitVec 32 :=
  match held with
  | none => 0#32
  | some ch => t.glyphPixel ch textFg textBg y x

/-- The frame buffer shows the terminal: the cursor is the same, each cell has the pixels
of the character it holds, the pixels outside the grid are black, and nothing was written
outside the screen. -/
structure Shows (t : BootTty) (s : BootFb) (T : Terminal (BitVec 16) t.rows t.cols) : Prop where
  cursorX : s.cursorX.toNat = T.col
  cursorY : s.cursorY.toNat = T.row
  cell : ∀ (r : Fin t.rows) (c : Fin t.cols) (y x : ℕ), y < t.glyphHeight → x < t.glyphWidth →
    s.fb.pixel t.width (r * t.glyphHeight + y) (c * t.glyphWidth + x) =
      t.cellPixel (T.cell r c) y x
  margin : ∀ y x, y < t.height → x < t.width →
    t.rows * t.glyphHeight ≤ y ∨ t.cols * t.glyphWidth ≤ x → s.fb.pixel t.width y x = 0#32
  stores : ∀ i ∈ s.fb.stores, i < t.width * t.height

section Steps

variable {t : BootTty} {s : BootFb} {T : Terminal (BitVec 16) t.rows t.cols}

theorem Shows.carriageReturn (h : t.Shows s T) : t.Shows (bootCursorBackFb s) T.carriageReturn :=
  ⟨rfl, h.cursorY, h.cell, h.margin, h.stores⟩

theorem Shows.backspace (h : t.Shows s T) : t.Shows (bootBackSpaceFb s) T.backspace := by
  have hx := h.cursorX
  refine ⟨?_, ?_, ?_, ?_, ?_⟩ <;> rw [bootBackSpaceFb] <;> split
  · next hpos =>
    have hone : (1#32).toNat ≤ s.cursorX.toNat := hpos
    rw [BitVec.toNat_sub_of_le hone, hx]
    rfl
  · next hpos =>
    have hzero : ¬ 0 < s.cursorX.toNat := hpos
    rw [Terminal.backspace]
    simp only
    omega
  · exact h.cursorY
  · exact h.cursorY
  · exact h.cell
  · exact h.cell
  · exact h.margin
  · exact h.margin
  · exact h.stores
  · exact h.stores

/-- The scroll loops turn the picture of a terminal into that of the scrolled one. -/
theorem Shows.scroll (ht : t.Fits) (h : t.Shows s T) :
    t.Shows { s with fb := t.scrollUp textBg s.fb } T.scroll := by
  have hp := paints_scrollUp ht textBg s.fb
  have hlast := last_line ht
  refine ⟨h.cursorX, h.cursorY, fun r c y x hy hx => ?_, fun y x hy hx hout => ?_, fun i hi => ?_⟩
  · have hcol := (band_lt c.isLt hx).trans_le ht.width
    rw [hp.pixel _ _ hcol]
    by_cases hr : r.val + 1 < t.rows
    · have hup : r.val * t.glyphHeight + y < (t.rows - 1) * t.glyphHeight :=
        band_lt (by omega) hy
      have hnext : r.val * t.glyphHeight + y + t.glyphHeight = (r.val + 1) * t.glyphHeight + y := by
        rw [Nat.succ_mul]
        omega
      rw [if_pos hup, Terminal.scroll_cell_of_lt hr, hnext]
      exact h.cell ⟨r.val + 1, hr⟩ c y x hy hx
    · have hlow : r.val = t.rows - 1 := by omega
      have hrow := band_lt r.isLt hy
      rw [if_neg (by rw [hlow]; omega), if_pos hrow, Terminal.scroll_cell_last hr]
      rfl
  · rw [hp.pixel y x hx]
    by_cases hup : y < (t.rows - 1) * t.glyphHeight
    · have hheight := ht.height
      rw [if_pos hup]
      exact h.margin _ x (by omega) hx (by omega)
    · rw [if_neg hup]
      split
      · rfl
      · exact h.margin y x hy hx hout
  · exact (hp.stores i hi).elim (h.stores i) id

theorem Shows.newLine (ht : t.Fits) (h : t.Shows s T) :
    t.Shows (t.bootPutcharFbNewLine textBg s) T.newLine := by
  have hrow : s.cursorY.toNat < t.rows := h.cursorY.trans_lt T.row.isLt
  have hnext : (s.cursorY + 1#32).toNat = T.row.val + 1 := by
    have hlt := t.maxChNrY.isLt
    rw [BitVec.toNat_add, h.cursorY]
    exact Nat.mod_eq_of_lt (Nat.lt_of_le_of_lt T.row.isLt hlt)
  have hbottom : s.cursorY + 1#32 ≥ t.maxChNrY ↔ ¬ T.row.val + 1 < t.rows := by
    rw [ge_iff_le, BitVec.le_def, hnext, Nat.not_lt]
  rw [bootPutcharFbNewLine, Terminal.newLine]
  by_cases hr : T.row.val + 1 < t.rows
  · rw [if_neg (fun hge => hbottom.mp hge hr), dif_pos hr]
    exact ⟨rfl, hnext, h.cell, h.margin, h.stores⟩
  · rw [if_pos (hbottom.mpr hr), dif_neg hr]
    have hscroll := h.scroll ht
    refine ⟨rfl, ?_, hscroll.cell, hscroll.margin, hscroll.stores⟩
    have hback : s.cursorY + 1#32 - 1#32 = s.cursorY := BitVec.add_sub_cancel _ _
    exact (congrArg BitVec.toNat hback).trans h.cursorY

/-- Drawing at the cursor, before the cursor moves. -/
theorem Shows.write (ht : t.Fits) (h : t.Shows s T) (ch : BitVec 16) :
    t.Shows { s with fb := (countedLoop t.glyphHeight (t.drawGlyphRow
      ((s.cursorY * t.fontHeight * t.bootFbWidth).setWidth 64 +
        (s.cursorX * t.fontWidth).setWidth 64) textFg textBg) (t.glyphStart ch, s.fb)).2 }
      (T.write ch) := by
  have hrow : s.cursorY.toNat < t.rows := h.cursorY.trans_lt T.row.isLt
  have hcol : s.cursorX.toNat < t.cols := h.cursorX.trans_lt T.col.isLt
  have hp := paints_glyph (ht.cell hrow hcol) ch textFg textBg
  refine ⟨h.cursorX, h.cursorY, fun r c y x hy hx => ?_, fun y x hy hx hout => ?_, fun i hi => ?_⟩
  · rw [hp.pixel _ _ ((band_lt c.isLt hx).trans_le ht.width)]
    simp only [band_iff hy, band_iff hx, Terminal.write]
    by_cases hcell : r = T.row ∧ c = T.col
    · rw [if_pos ⟨by rw [h.cursorY, hcell.1], by rw [h.cursorX, hcell.2]⟩, if_pos hcell, h.cursorY,
        h.cursorX, hcell.1, hcell.2, Nat.add_sub_cancel_left, Nat.add_sub_cancel_left]
      rfl
    · have hne : ¬ (r.val = s.cursorY.toNat ∧ c.val = s.cursorX.toNat) := by
        rintro ⟨hr, hc⟩
        exact hcell ⟨Fin.ext (hr.trans h.cursorY), Fin.ext (hc.trans h.cursorX)⟩
      rw [if_neg hne, if_neg hcell]
      exact h.cell r c y x hy hx
  · -- the cell that is drawn lies inside the grid
    have hbottom := Nat.mul_le_mul_right t.glyphHeight hrow
    have hright := Nat.mul_le_mul_right t.glyphWidth hcol
    rw [Nat.succ_eq_add_one, Nat.succ_mul] at hbottom hright
    rw [hp.pixel y x hx, if_neg (by omega)]
    exact h.margin y x hy hx hout
  · exact (hp.stores i hi).elim (h.stores i) id

theorem Shows.put (ht : t.Fits) (h : t.Shows s T) (ch : BitVec 16) :
    t.Shows (t.bootPutcharFb ch textFg textBg s) (T.put ch) := by
  have hwrite := h.write ht ch
  have hnext : (s.cursorX + 1#32).toNat = T.col.val + 1 := by
    rw [BitVec.toNat_add, h.cursorX]
    exact Nat.mod_eq_of_lt (Nat.lt_of_le_of_lt T.col.isLt t.maxChNrX.isLt)
  have hedge : s.cursorX + 1#32 ≥ t.maxChNrX ↔ ¬ T.col.val + 1 < t.cols := by
    rw [ge_iff_le, BitVec.le_def, hnext, Nat.not_lt]
  rw [bootPutcharFb, Terminal.put]
  by_cases hc : T.col.val + 1 < t.cols
  · rw [if_neg (fun hge => hedge.mp hge hc), dif_pos hc]
    exact ⟨hnext, hwrite.cursorY, hwrite.cell, hwrite.margin, hwrite.stores⟩
  · rw [if_pos (hedge.mpr hc), dif_neg hc]
    -- the new line resets the column, whatever it was
    have hline := hwrite.newLine ht
    exact hline

theorem Shows.tab (ht : t.Fits) (h : t.Shows s T) :
    t.Shows (t.bootPutcharTabFb s) (T.tab defaultTabSize 0x20#16) := by
  have hspaces : (t.tabSpaceNr s).toNat = min defaultTabSize (t.cols - T.col.val - 1) := by
    have hcol : s.cursorX.toNat < t.cols := h.cursorX.trans_lt T.col.isLt
    have hcols := ht.cols_lt
    have hleft : (t.maxChNrX - s.cursorX - 1#32).toNat = t.cols - T.col.val - 1 := by
      have hsub : (t.maxChNrX - s.cursorX).toNat = t.cols - T.col.val := by
        rw [BitVec.toNat_sub_of_le (show s.cursorX.toNat ≤ t.maxChNrX.toNat from hcol.le),
          h.cursorX]
      rw [BitVec.toNat_sub_of_le (show 1 ≤ (t.maxChNrX - s.cursorX).toNat by omega), hsub]
      rfl
    have hint : (t.maxChNrX - s.cursorX - 1#32).toInt = (t.cols - T.col.val - 1 : ℕ) := by
      rw [BitVec.toInt_eq_toNat_of_lt (by omega), hleft]
    simp only [tabSpaceNr, hint]
    split <;> omega
  rw [bootPutcharTabFb, hspaces, Terminal.tab]
  refine countedLoop_invariant (fun n s' => t.Shows s' ((Terminal.put 0x20#16)^[n] T)) h ?_
  intro n _ s' h'
  rw [Function.iterate_succ_apply']
  exact h'.put ht 0x20#16

end Steps

/-! ### Whole runs -/

/-- The screen after it was cleared: the cursor is home, all pixels are black. -/
structure Cleared (t : BootTty) (s : BootFb) : Prop where
  cursorX : s.cursorX = 0#32
  cursorY : s.cursorY = 0#32
  pixel : ∀ y x, y < t.height → x < t.width → s.fb.pixel t.width y x = 0#32
  stores : ∀ i ∈ s.fb.stores, i < t.width * t.height

/-- What boot_putchar is for, on the terminal. -/
def feed {rows cols : ℕ} (T : Terminal (BitVec 16) rows cols) (ch : BitVec 16) :
    Terminal (BitVec 16) rows cols :=
  if ch = 0x0D#16 then T.carriageReturn
  else if ch = 0x08#16 then T.backspace
  else if ch = 0x09#16 then T.tab defaultTabSize 0x20#16
  else if ch = 0x0A#16 then T.newLine
  else T.put ch

section Runs

variable {w h : BitVec 32} {font : Psf2Font} {t : BootTty}

theorem bootInitFont_cols :
    (bootInitFont w h font).cols = w.toNat / (bootInitFont w h font).glyphWidth :=
  BitVec.toNat_udiv

theorem bootInitFont_rows :
    (bootInitFont w h font).rows = h.toNat / (bootInitFont w h font).glyphHeight :=
  BitVec.toNat_udiv

theorem glyphWidth_pos (hcols : 0 < (bootInitFont w h font).cols) :
    0 < (bootInitFont w h font).glyphWidth := by
  refine Nat.pos_of_ne_zero fun hzero => ?_
  rw [bootInitFont_cols, hzero, Nat.div_zero] at hcols
  exact Nat.lt_irrefl 0 hcols

theorem glyphHeight_pos (hrows : 0 < (bootInitFont w h font).rows) :
    0 < (bootInitFont w h font).glyphHeight := by
  refine Nat.pos_of_ne_zero fun hzero => ?_
  rw [bootInitFont_rows, hzero, Nat.div_zero] at hrows
  exact Nat.lt_irrefl 0 hrows

/-- The grid lies on the screen. -/
theorem bootInitFont_grid_le :
    (bootInitFont w h font).cols * (bootInitFont w h font).glyphWidth ≤ w.toNat ∧
      (bootInitFont w h font).rows * (bootInitFont w h font).glyphHeight ≤ h.toNat := by
  rw [bootInitFont_cols, bootInitFont_rows]
  exact ⟨Nat.div_mul_le_self _ _, Nat.div_mul_le_self _ _⟩

theorem bootInitFont_fits (hcols : 0 < (bootInitFont w h font).cols)
    (hrows : 0 < (bootInitFont w h font).rows) (harea : w.toNat * h.toNat < 2 ^ 32) :
    (bootInitFont w h font).Fits := by
  obtain ⟨hwidth, hheight⟩ := @bootInitFont_grid_le w h font
  refine ⟨hrows, hcols, harea, hwidth, hheight, glyphHeight_pos hrows, ?_⟩
  -- a glyph is at least eight pixels wide
  have hfont : (bootInitFont w h font).glyphWidth =
      (bootInitFont w h font).fontWidthBytes.toNat * 8 % 2 ^ 32 := BitVec.toNat_mul ..
  have hpos := glyphWidth_pos hcols
  have height : 8 ≤ (bootInitFont w h font).glyphWidth := by omega
  have hlt := w.isLt
  rw [bootInitFont_cols]
  calc w.toNat / (bootInitFont w h font).glyphWidth ≤ w.toNat / 8 :=
        Nat.div_le_div_left height (by decide)
    _ < 2 ^ 31 := by omega

/-- boot_clear_screen leaves a cleared screen. -/
theorem cleared_bootClearScreen (ht : t.Fits) {b : Buffer (BitVec 32)} (hlog : b.stores = []) :
    t.Cleared ⟨0#32, 0#32, t.bootClearScreenInternalFb b⟩ := by
  have hp : Paints t.width t.height b (t.bootClearScreenInternalFb b) fun y' x' =>
      if (0 ≤ y' ∧ y' < 0 + t.height) ∧ 0 ≤ x' ∧ x' < 0 + t.width then 0#32
      else b.pixel t.width y' x' :=
    paints_rect (fun _ _ => 0#32)
      (fun y (hy : y < t.height) b =>
        paints_row (fun _ => 0#32) (Nat.zero_add _).le (by omega) (fun x hx => by
        have hrow := toNat_ofNat_of_lt (n := t.bootFbHeight) hy
        have hcol := toNat_ofNat_of_lt (n := t.bootFbWidth) hx
        rw [BitVec.add_comm, toNat_index ht.area (hcol.trans_lt hx) (hrow.trans_lt hy), hrow, hcol,
          Nat.zero_add, Nat.zero_add]) b) b
  refine ⟨rfl, rfl, fun y x hy hx => ?_, fun i hi => ?_⟩
  · rw [hp.pixel y x hx, if_pos (by omega)]
  · rcases hp.stores i hi with hi | hi
    · rw [hlog] at hi
      exact absurd hi (List.not_mem_nil)
    · exact hi

theorem Cleared.shows {s : BootFb} (ht : t.Fits) (hs : t.Cleared s) :
    t.Shows s (Terminal.blank ht.rows_pos ht.cols_pos) where
  cursorX := by
    rw [hs.cursorX]
    rfl
  cursorY := by
    rw [hs.cursorY]
    rfl
  cell r c y x hy hx := by
    have hline := (band_lt r.isLt hy).trans_le ht.height
    have hcol := (band_lt c.isLt hx).trans_le ht.width
    exact hs.pixel _ _ hline hcol
  margin y x hy hx _ := hs.pixel y x hy hx
  stores := hs.stores

/-- One call of boot_putchar. -/
theorem Shows.bootPutchar {s : BootConsole} {T : Terminal (BitVec 16) t.rows t.cols} (ht : t.Fits)
    (h : t.Shows s.fb T) (ch : BitVec 16) :
    ∃ fb, ClosureOS.bootPutchar t.handlersNoCom s ch = some { s with fb } ∧
      t.Shows fb (feed T ch) := by
  rw [ClosureOS.bootPutchar, feed]
  split
  · exact ⟨_, rfl, h.carriageReturn⟩
  · split
    · exact ⟨_, rfl, h.backspace⟩
    · split
      · exact ⟨_, rfl, h.tab ht⟩
      · split
        · exact ⟨_, rfl, h.newLine ht⟩
        · exact ⟨_, rfl, h.put ht ch⟩

theorem Shows.bootPutAll {s : BootConsole} {T : Terminal (BitVec 16) t.rows t.cols} (ht : t.Fits)
    (h : t.Shows s.fb T) (chs : List (BitVec 16)) :
    ∃ fb, ClosureOS.bootPutAll t.handlersNoCom s chs = some { s with fb } ∧
      t.Shows fb (chs.foldl feed T) := by
  induction chs generalizing s T with
  | nil => exact ⟨s.fb, rfl, h⟩
  | cons ch chs ih =>
    obtain ⟨fb, hstep, h'⟩ := h.bootPutchar ht ch
    obtain ⟨fb', hrun, h''⟩ := ih (s := { s with fb }) h'
    refine ⟨fb', ?_, h''⟩
    rw [ClosureOS.bootPutAll, List.foldlM_cons, hstep]
    exact hrun

/-- On every screen, with every font and for every sequence of characters, the frame
buffer shows the terminal that was fed these characters. -/
theorem console_shows_terminal (hcols : 0 < (bootInitFont w h font).cols)
    (hrows : 0 < (bootInitFont w h font).rows) (harea : w.toNat * h.toNat < 2 ^ 32)
    {s : BootConsole} (hs : (bootInitFont w h font).Cleared s.fb) (chs : List (BitVec 16)) :
    ∃ fb, ClosureOS.bootPutAll (bootInitFont w h font).handlersNoCom s chs = some { s with fb } ∧
      fb.cursorX < (bootInitFont w h font).maxChNrX ∧
      fb.cursorY < (bootInitFont w h font).maxChNrY ∧
      (bootInitFont w h font).Shows fb (chs.foldl feed (Terminal.blank hrows hcols)) := by
  have ht := bootInitFont_fits hcols hrows harea
  obtain ⟨fb, hrun, hshows⟩ := (hs.shows ht).bootPutAll ht chs
  refine ⟨fb, hrun, ?_, ?_, hshows⟩
  · exact hshows.cursorX.trans_lt (Fin.isLt _)
  · exact hshows.cursorY.trans_lt (Fin.isLt _)

/-- A screen of two lines of two characters, each eight pixels wide and one high, after
boot_clear_screen. -/
theorem console_shows_terminal_twoLines :
    let t := bootInitFont 16#32 2#32 ⟨32#32, 2#32, 1#32, 1#32, 8#32, fun i => BitVec.ofNat 8 i⟩
    ∃ fb, ClosureOS.bootPutAll t.handlersNoCom
      ⟨⟨0#32, 0#32, t.bootClearScreenInternalFb ⟨fun _ => 7#32, []⟩⟩, [], []⟩
      [0x41#16, 0x0A#16, 0x09#16, 0x42#16, 0x08#16] = some ⟨fb, [], []⟩ ∧ fb.cursorY < 2#32 := by
  intro t
  have hcols : 0 < t.cols := by decide
  have hrows : 0 < t.rows := by decide
  have hcleared : t.Cleared ⟨0#32, 0#32, t.bootClearScreenInternalFb ⟨fun _ => 7#32, []⟩⟩ :=
    cleared_bootClearScreen (bootInitFont_fits hcols hrows (by decide)) rfl
  obtain ⟨fb, hrun, _, hcursor, _⟩ := @console_shows_terminal 16#32 2#32
    ⟨32#32, 2#32, 1#32, 1#32, 8#32, fun i => BitVec.ofNat 8 i⟩ hcols hrows (by decide)
    ⟨⟨0#32, 0#32, t.bootClearScreenInternalFb ⟨fun _ => 7#32, []⟩⟩, [], []⟩ hcleared
    [0x41#16, 0x0A#16, 0x09#16, 0x42#16, 0x08#16]
  exact ⟨fb, hrun, hcursor⟩

end Runs

end BootTty

end ClosureOS
