import ClosureOS.ConsoleRefine

/-!
What boot_putchar_fb draws, compared with the font. The mask is set again after columns 0,
8, 16 and so on instead of before them, so a byte of a glyph appears one column further to
the right, and its last column is lost.
-/
namespace ClosureOS

open Raster Raster.Buffer

namespace Psf2Font

variable (font : Psf2Font)

/-- Byte k in row y of the glyph at an offset in the glyph table. -/
def glyphByte (off y k : ℕ) : BitVec 8 :=
  font.bytes (font.headerSize.toNat + off + y * ((font.width.toNat + 7) / 8) + k)

/-- The offset of a glyph in the table. -/
def glyphOffset (ch : BitVec 16) : ℕ := ch.toNat * font.bytesPerGlyph.toNat

/-- Pixel (y, x) of a character as the font defines it, the high bit of a byte on the left. -/
def pixel (ch : BitVec 16) (fg bg : BitVec 32) (y x : ℕ) : BitVec 32 :=
  if (font.glyphByte (font.glyphOffset ch) y (x / 8)).getLsbD (7 - x % 8) then fg else bg

end Psf2Font

namespace BootTty

/-- The picture that boot_putchar_fb has drawn when it moves the cursor. -/
def drawGlyph (t : BootTty) (ch : BitVec 16) (fg bg : BitVec 32) (s : BootFb) :
    Buffer (BitVec 32) :=
  (countedLoop t.fontHeight.toNat (t.drawGlyphRow
    ((s.cursorY * t.fontHeight * t.bootFbWidth).setWidth 64 +
      (s.cursorX * t.fontWidth).setWidth 64) fg bg) (t.glyphStart ch, s.fb)).2

theorem bootPutcharFb_eq (t : BootTty) (ch : BitVec 16) (fg bg : BitVec 32) (s : BootFb) :
    t.bootPutcharFb ch fg bg s =
      if s.cursorX + 1#32 ≥ t.maxChNrX then
        t.bootPutcharFbNewLine bg ⟨s.cursorX + 1#32, s.cursorY, t.drawGlyph ch fg bg s⟩
      else ⟨s.cursorX + 1#32, s.cursorY, t.drawGlyph ch fg bg s⟩ := rfl

/-! ### The mask -/

/-- Byte k of a row as it is drawn: one column further to the right. In the first byte the
left column stays, in the others it shows the bit that the byte lost on the right. -/
def movedRight (k : ℕ) (byte : BitVec 8) : BitVec 8 :=
  if k = 0 then byte.sshiftRight 1 else byte.rotateRight 1

theorem maskAt_succ (x : ℕ) : maskAt (x + 1) = 1#8 <<< (7 - x % 8) := by
  induction x with
  | zero => rfl
  | succ x ih =>
    have hshift : ∀ r < 7, (1#8 <<< (7 - r)) >>> 1 = 1#8 <<< (7 - (r + 1)) := by decide
    rw [maskAt]
    split
    · next hzero => rw [hzero]
    · next hne =>
      have hmod : (x + 1) % 8 = x % 8 + 1 := by omega
      rw [ih, hshift _ (by omega), hmod]

theorem and_bit_ne_zero_iff (byte : BitVec 8) {n : ℕ} (hn : n < 8) :
    byte &&& 1#8 <<< n ≠ 0#8 ↔ byte.getLsbD n = true := by
  have hpow : BitVec.twoPow 8 n ≠ 0#8 := by
    intro h
    have hbit := congrArg (fun v => BitVec.getLsbD v n) h
    simp [hn] at hbit
  rw [← BitVec.twoPow_eq, BitVec.and_twoPow]
  split
  · next hbit => exact iff_of_true hpow hbit
  · next hbit => exact iff_of_false (fun hne => hne rfl) hbit

theorem getLsbD_movedRight (k : ℕ) (byte : BitVec 8) {j : ℕ} (hj : j < 8) :
    (movedRight k byte).getLsbD (7 - j) =
      byte.getLsbD (if j = 0 then if k = 0 then 7 else 0 else 8 - j) := by
  have hshift : ∀ b : BitVec 8, ∀ j < 8, (b.sshiftRight 1).getLsbD (7 - j) =
    b.getLsbD (if j = 0 then 7 else 8 - j) := by decide +kernel
  have hrotate : ∀ b : BitVec 8, ∀ j < 8, (b.rotateRight 1).getLsbD (7 - j) =
    b.getLsbD (if j = 0 then 0 else 8 - j) := by decide +kernel
  unfold movedRight
  split
  · exact hshift byte j hj
  · exact hrotate byte j hj

theorem and_maskAt_ne_zero_iff (byte : BitVec 8) (x : ℕ) :
    byte &&& maskAt x ≠ 0#8 ↔ (movedRight (x / 8) byte).getLsbD (7 - x % 8) = true := by
  rw [getLsbD_movedRight _ _ (Nat.mod_lt _ (by decide))]
  cases x with
  | zero => exact and_bit_ne_zero_iff byte (by decide)
  | succ x =>
    rw [maskAt_succ, and_bit_ne_zero_iff byte (by omega)]
    have hbit : 7 - x % 8 = if (x + 1) % 8 = 0 then if (x + 1) / 8 = 0 then 7 else 0
        else 8 - (x + 1) % 8 := by
      split
      · rw [if_neg (by omega)]
        omega
      · omega
    rw [hbit]

theorem movedRight_eq_self_iff (k : ℕ) (byte : BitVec 8) :
    movedRight k byte = byte ↔ byte = 0x00#8 ∨ byte = 0xFF#8 := by
  have hshift : ∀ b : BitVec 8, b.sshiftRight 1 = b ↔ b = 0x00#8 ∨ b = 0xFF#8 := by decide +kernel
  have hrotate : ∀ b : BitVec 8, b.rotateRight 1 = b ↔ b = 0x00#8 ∨ b = 0xFF#8 := by
    decide +kernel
  unfold movedRight
  split
  · exact hshift byte
  · exact hrotate byte

/-- Two ways to draw a glyph agree on every pixel exactly when the colours are equal or they
take every byte alike. -/
theorem pixels_eq_iff {fg bg : BitVec 32} {m n : ℕ} (A B : ℕ → ℕ → BitVec 8) :
    (∀ y < m, ∀ x < 8 * n, (if (A y (x / 8)).getLsbD (7 - x % 8) then fg else bg) =
      if (B y (x / 8)).getLsbD (7 - x % 8) then fg else bg) ↔
    fg = bg ∨ ∀ y < m, ∀ k < n, A y k = B y k := by
  constructor
  · intro h
    by_cases hcolour : fg = bg
    · exact Or.inl hcolour
    · refine Or.inr fun y hy k hk => BitVec.eq_of_getLsbD_eq fun i hi => ?_
      have hx := h y hy (8 * k + (7 - i)) (by omega)
      have hbyte : (8 * k + (7 - i)) / 8 = k := by omega
      have hbit : 7 - (8 * k + (7 - i)) % 8 = i := by omega
      rw [hbyte, hbit] at hx
      cases hA : (A y k).getLsbD i <;> cases hB : (B y k).getLsbD i
      · rfl
      · rw [hA, hB] at hx
        exact absurd hx.symm hcolour
      · rw [hA, hB] at hx
        exact absurd hx hcolour
      · rfl
  · rintro (rfl | h) y hy x hx
    · rw [ite_self, ite_self]
    · rw [h y hy (x / 8) (by omega)]

section Font

variable {font : Psf2Font} {w h : BitVec 32} {s : BootFb} {ch : BitVec 16} {fg bg : BitVec 32}

theorem toNat_fontWidthBytes (hcols : 0 < (bootInitFont w h font).cols) :
    (bootInitFont w h font).fontWidthBytes.toNat = (font.width.toNat + 7) / 8 ∧
      (bootInitFont w h font).glyphWidth = 8 * ((font.width.toNat + 7) / 8) := by
  have hbytes : ((font.width + 7#32) / 8#32).toNat = (font.width.toNat + 7) % 2 ^ 32 / 8 := by
    rw [BitVec.toNat_udiv, BitVec.toNat_add]
    rfl
  have hwidth : ((font.width + 7#32) / 8#32 * 8#32).toNat =
      8 * ((font.width.toNat + 7) % 2 ^ 32 / 8) := by
    rw [BitVec.toNat_mul, hbytes]
    exact (Nat.mod_eq_of_lt (by simp only [BitVec.toNat_ofNat]; omega)).trans (Nat.mul_comm _ _)
  have hlt : font.width.toNat + 7 < 2 ^ 32 := by
    by_contra hge
    have hlt := font.width.isLt
    have hzero : (font.width + 7#32) / 8#32 * 8#32 = 0#32 := by
      apply BitVec.eq_of_toNat_eq
      rw [hwidth]
      simp only [BitVec.toNat_ofNat]
      omega
    have hnone : (bootInitFont w h font).glyphWidth = 0 := congrArg BitVec.toNat hzero
    rw [bootInitFont_cols, hnone, Nat.div_zero] at hcols
    exact Nat.lt_irrefl 0 hcols
  rw [Nat.mod_eq_of_lt hlt] at hbytes hwidth
  exact ⟨hbytes, hwidth⟩

theorem cell_bounds (hcol : s.cursorX.toNat < (bootInitFont w h font).cols)
    (hrow : s.cursorY.toNat < (bootInitFont w h font).rows) :
    s.cursorY.toNat * (bootInitFont w h font).glyphHeight + (bootInitFont w h font).glyphHeight ≤
        (bootInitFont w h font).height ∧
      s.cursorX.toNat * (bootInitFont w h font).glyphWidth + (bootInitFont w h font).glyphWidth ≤
        (bootInitFont w h font).width := by
  obtain ⟨hwidth, hheight⟩ := @bootInitFont_grid_le w h font
  rw [← Nat.succ_mul, ← Nat.succ_mul]
  exact ⟨(Nat.mul_le_mul_right _ hrow).trans hheight, (Nat.mul_le_mul_right _ hcol).trans hwidth⟩

theorem glyphPixel_eq (hcols : 0 < (bootInitFont w h font).cols)
    (hch : ch.toNat < font.glyphNr.toNat) (y x : ℕ) :
    (bootInitFont w h font).glyphPixel ch fg bg y x =
      if (movedRight (x / 8) (font.glyphByte (font.glyphOffset ch % 2 ^ 32) y (x / 8))).getLsbD
        (7 - x % 8) then fg else bg := by
  have hstart : (bootInitFont w h font).glyphStart ch =
      font.headerSize.toNat + font.glyphOffset ch % 2 ^ 32 := by
    have hwide : (ch.setWidth 32).toNat = ch.toNat := by
      rw [BitVec.toNat_setWidth, Nat.mod_eq_of_lt (ch.isLt.trans (by decide))]
    have hlt : ch.setWidth 32 < (bootInitFont w h font).glyphNr := by
      rw [BitVec.lt_def, hwide]
      exact hch
    have hoff : (ch.setWidth 32 * font.bytesPerGlyph).toNat = font.glyphOffset ch % 2 ^ 32 := by
      rw [BitVec.toNat_mul, hwide]
      rfl
    rw [glyphStart, if_pos hlt, ← hoff]
    rfl
  rw [glyphPixel, hstart, (toNat_fontWidthBytes hcols).1]
  simp only [and_maskAt_ne_zero_iff]
  rfl

end Font

/-! ### Lines that wrap -/

section Wrap

variable {t : BootTty} {s : BootFb}

/-- The first pixel of the cell in whole lines, and the lines of the cell, stay below 2^32. -/
def LinesFit (t : BootTty) (s : BootFb) : Prop :=
  s.cursorY.toNat * t.glyphHeight * t.width < 2 ^ 32 ∧ (t.glyphHeight - 1) * t.width < 2 ^ 32

theorem drawGlyph_pixel (hs : t.CellFits s) (ch : BitVec 16) (fg bg : BitVec 32) {y x : ℕ}
    (hy : y < t.glyphHeight) (hx : x < t.glyphWidth) :
    (t.drawGlyph ch fg bg s).pixel t.width (s.cursorY.toNat * t.glyphHeight + y)
      (s.cursorX.toNat * t.glyphWidth + x) = t.glyphPixel ch fg bg y x := by
  have hcolumn := hs.column
  refine ((paints_glyph hs ch fg bg).pixel _ _ (by omega)).trans ?_
  rw [if_pos (by omega), Nat.add_sub_cancel_left, Nat.add_sub_cancel_left]

theorem last_ne_of_wrap {top left lines line x width : ℕ}
    (hwrap : ¬ (top < 2 ^ 32 ∧ lines < 2 ^ 32)) (hx : x < width) (hleft : left < 2 ^ 32)
    (hwidth : width < 2 ^ 32) (hline : line < 2 ^ 32) :
    top + left + lines + (width - 1) ≠
      (((top % 2 ^ 32 + left) % 2 ^ 64 + line) % 2 ^ 64 + x) % 2 ^ 64 := by
  omega

theorem drawGlyph_last_of_wrap (hline : s.cursorY.toNat * t.glyphHeight + t.glyphHeight ≤ t.height)
    (hcolumn : s.cursorX.toNat * t.glyphWidth + t.glyphWidth ≤ t.width) (hwrap : ¬ t.LinesFit s)
    (ch : BitVec 16) (fg bg : BitVec 32) :
    (t.drawGlyph ch fg bg s).pixel t.width
        (s.cursorY.toNat * t.glyphHeight + (t.glyphHeight - 1))
        (s.cursorX.toNat * t.glyphWidth + (t.glyphWidth - 1)) =
      s.fb.pixel t.width (s.cursorY.toNat * t.glyphHeight + (t.glyphHeight - 1))
        (s.cursorX.toNat * t.glyphWidth + (t.glyphWidth - 1)) := by
  have htop : (s.cursorY * t.fontHeight).toNat = s.cursorY.toNat * t.glyphHeight :=
    toNat_mul_of_lt (((Nat.le_add_right _ _).trans hline).trans_lt t.bootFbHeight.isLt)
  have hleft : (s.cursorX * t.fontWidth).toNat = s.cursorX.toNat * t.glyphWidth :=
    toNat_mul_of_lt (((Nat.le_add_right _ _).trans hcolumn).trans_lt t.bootFbWidth.isLt)
  have hleftlt : s.cursorX.toNat * t.glyphWidth < 2 ^ 32 := hleft ▸ (s.cursorX * t.fontWidth).isLt
  rw [drawGlyph, drawGlyphRow_loop, pixel]
  refine cells_countedLoop fun y hy b => ?_
  simp only [drawGlyphRow, drawPixel_loop _ _ _ _ _ _ (Nat.le_refl t.glyphWidth)]
  refine cells_countedLoop fun x hx c => cells_store_of_ne ?_ _
  have hy' := toNat_ofNat_of_lt (n := t.fontHeight) hy
  have hx' := toNat_ofNat_of_lt (n := t.fontWidth) hx
  have hxlt := t.fontWidth.isLt
  rw [BitVec.toNat_add, BitVec.toNat_add, BitVec.toNat_add, toNat_setWidth64, toNat_setWidth64,
    toNat_setWidth64, toNat_setWidth64, hleft, hx', BitVec.toNat_mul, htop, BitVec.toNat_mul, hy']
  have hlast : s.cursorX.toNat * t.glyphWidth + (t.glyphWidth - 1) +
      (s.cursorY.toNat * t.glyphHeight + (t.glyphHeight - 1)) * t.width =
      s.cursorY.toNat * t.glyphHeight * t.width + s.cursorX.toNat * t.glyphWidth +
        (t.glyphHeight - 1) * t.width + (t.glyphWidth - 1) := by ring
  rw [hlast]
  exact last_ne_of_wrap hwrap hx hleftlt hxlt (Nat.mod_lt _ (by decide))

theorem linesFit_of_drawn (hline : s.cursorY.toNat * t.glyphHeight + t.glyphHeight ≤ t.height)
    (hcolumn : s.cursorX.toNat * t.glyphWidth + t.glyphWidth ≤ t.width)
    (hheight : 0 < t.glyphHeight) (hwidth : 0 < t.glyphWidth) {ch : BitVec 16}
    {fg bg : BitVec 32} {want : ℕ → ℕ → BitVec 32}
    (hall : ∀ fb, ∀ y < t.glyphHeight, ∀ x < t.glyphWidth,
      (t.drawGlyph ch fg bg { s with fb }).pixel t.width (s.cursorY.toNat * t.glyphHeight + y)
        (s.cursorX.toNat * t.glyphWidth + x) = want y x) : t.LinesFit s := by
  by_contra hwrap
  have hlast := hall ⟨fun _ => want (t.glyphHeight - 1) (t.glyphWidth - 1) + 1#32, []⟩
    (t.glyphHeight - 1) (Nat.sub_one_lt_of_lt hheight) (t.glyphWidth - 1)
    (Nat.sub_one_lt_of_lt hwidth)
  have hkept := (drawGlyph_last_of_wrap (s := { s with
    fb := ⟨fun _ => want (t.glyphHeight - 1) (t.glyphWidth - 1) + 1#32, []⟩ }) hline hcolumn
    hwrap ch fg bg).symm.trans hlast
  exact absurd (add_eq_left.mp hkept) (by decide)

end Wrap

section Faithful

variable {font : Psf2Font} {w h : BitVec 32} {s : BootFb} {ch : BitVec 16} {fg bg : BitVec 32}

theorem movedRight_offset_iff (font : Psf2Font) (off y k : ℕ) :
    movedRight k (font.glyphByte (off % 2 ^ 32) y k) = font.glyphByte off y k ↔
      if off < 2 ^ 32 then font.glyphByte off y k = 0x00#8 ∨ font.glyphByte off y k = 0xFF#8
      else font.glyphByte off y k = movedRight k (font.glyphByte (off % 2 ^ 32) y k) := by
  split
  · next hlt => rw [Nat.mod_eq_of_lt hlt, movedRight_eq_self_iff]
  · exact eq_comm

theorem glyphPixels_eq_iff (hcols : 0 < (bootInitFont w h font).cols)
    (hch : ch.toNat < font.glyphNr.toNat) :
    let t := bootInitFont w h font
    (∀ y < t.glyphHeight, ∀ x < t.glyphWidth,
      t.glyphPixel ch fg bg y x = font.pixel ch fg bg y x) ↔
    (fg = bg ∨ ∀ y < t.glyphHeight, ∀ k < t.fontWidthBytes.toNat,
      if font.glyphOffset ch < 2 ^ 32 then
        font.glyphByte (font.glyphOffset ch) y k = 0x00#8 ∨
          font.glyphByte (font.glyphOffset ch) y k = 0xFF#8
      else font.glyphByte (font.glyphOffset ch) y k =
        movedRight k (font.glyphByte (font.glyphOffset ch % 2 ^ 32) y k)) := by
  intro t
  obtain ⟨hbytes, hwidth⟩ := toNat_fontWidthBytes hcols
  simp only [← movedRight_offset_iff font (font.glyphOffset ch)]
  simp only [t, glyphPixel_eq hcols hch, hwidth, hbytes]
  exact pixels_eq_iff
    (fun y k => movedRight k (font.glyphByte (font.glyphOffset ch % 2 ^ 32) y k))
    (font.glyphByte (font.glyphOffset ch))

theorem drawGlyph_cell (hcol : s.cursorX.toNat < (bootInitFont w h font).cols)
    (hrow : s.cursorY.toNat < (bootInitFont w h font).rows)
    (hlines : (bootInitFont w h font).LinesFit s) (fb : Buffer (BitVec 32)) :
    let t := bootInitFont w h font
    ∀ y < t.glyphHeight, ∀ x < t.glyphWidth,
      (t.drawGlyph ch fg bg { s with fb }).pixel t.width (s.cursorY.toNat * t.glyphHeight + y)
        (s.cursorX.toNat * t.glyphWidth + x) = t.glyphPixel ch fg bg y x := by
  intro t y hy x hx
  obtain ⟨hline, hcolumn⟩ := cell_bounds hcol hrow
  have hrows : ∀ y < t.glyphHeight, y * t.width < 2 ^ 32 := fun y hy =>
    (Nat.mul_le_mul_right _ (Nat.le_sub_one_of_lt hy)).trans_lt hlines.2
  exact drawGlyph_pixel (s := { s with fb }) ⟨hline, hcolumn, hlines.1, hrows⟩ ch fg bg hy hx

/-- boot_putchar_fb draws every pixel of the cell as the font defines it, on any previous
picture, exactly when no line number wraps and either the colours are equal or all bytes of the
glyph consist of equal bits. Where the offset of the glyph wraps, each byte has to be the moved
one of those that are read instead. -/
theorem drawGlyph_faithful_iff (hcol : s.cursorX.toNat < (bootInitFont w h font).cols)
    (hrow : s.cursorY.toNat < (bootInitFont w h font).rows) (hch : ch.toNat < font.glyphNr.toNat) :
    let t := bootInitFont w h font
    (∀ fb, ∀ y < t.glyphHeight, ∀ x < t.glyphWidth,
      (t.drawGlyph ch fg bg { s with fb }).pixel t.width (s.cursorY.toNat * t.glyphHeight + y)
        (s.cursorX.toNat * t.glyphWidth + x) = font.pixel ch fg bg y x) ↔
    t.LinesFit s ∧ (fg = bg ∨ ∀ y < t.glyphHeight, ∀ k < t.fontWidthBytes.toNat,
      if font.glyphOffset ch < 2 ^ 32 then
        font.glyphByte (font.glyphOffset ch) y k = 0x00#8 ∨
          font.glyphByte (font.glyphOffset ch) y k = 0xFF#8
      else font.glyphByte (font.glyphOffset ch) y k =
        movedRight k (font.glyphByte (font.glyphOffset ch % 2 ^ 32) y k)) := by
  intro t
  have hcols : 0 < t.cols := Nat.zero_lt_of_lt hcol
  obtain ⟨hline, hcolumn⟩ := cell_bounds hcol hrow
  refine Iff.trans ?_ (and_congr_right fun _ => glyphPixels_eq_iff hcols hch)
  constructor
  · intro hall
    have hlines : t.LinesFit s := linesFit_of_drawn hline hcolumn
      (glyphHeight_pos (Nat.zero_lt_of_lt hrow)) (glyphWidth_pos hcols) hall
    refine ⟨hlines, fun y hy x hx => ?_⟩
    rw [← drawGlyph_cell hcol hrow hlines s.fb y hy x hx]
    exact hall s.fb y hy x hx
  · rintro ⟨hlines, hfont⟩ fb y hy x hx
    rw [drawGlyph_cell hcol hrow hlines fb y hy x hx, hfont y hy x hx]

/-- One glyph of 8 × 1 pixels with the given byte. -/
def oneByteFont (byte : BitVec 8) : Psf2Font := ⟨32#32, 1#32, 1#32, 1#32, 8#32, fun _ => byte⟩

/-- A full line is drawn in full. -/
theorem drawGlyph_faithful_iff_full :
    ((bootInitFont 16#32 16#32 (oneByteFont 0xFF#8)).drawGlyph 0#16 textFg textBg
      ⟨1#32, 2#32, ⟨fun _ => 0#32, []⟩⟩).pixel 16 2 13 = textFg := by
  have hfaithful := @drawGlyph_faithful_iff (oneByteFont 0xFF#8) 16#32 16#32
    ⟨1#32, 2#32, ⟨fun _ => 0#32, []⟩⟩ 0#16 textFg textBg (by decide) (by decide) (by decide)
  exact hfaithful.mpr ⟨⟨by decide, by decide⟩, Or.inr fun y _ k _ => Or.inr rfl⟩
    ⟨fun _ => 0#32, []⟩ 0 (by decide) 5 (by decide)

/-- The dot in column 1 of a glyph is drawn in column 2. -/
theorem drawGlyph_not_faithful :
    let t := bootInitFont 16#32 16#32 (oneByteFont 0x40#8)
    let b := t.drawGlyph 0#16 textFg textBg ⟨0#32, 0#32, ⟨fun _ => 0#32, []⟩⟩
    (oneByteFont 0x40#8).pixel 0#16 textFg textBg 0 1 = textFg ∧ b.pixel 16 0 1 = textBg ∧
      (oneByteFont 0x40#8).pixel 0#16 textFg textBg 0 2 = textBg ∧ b.pixel 16 0 2 = textFg := by
  decide

end Faithful

end BootTty

end ClosureOS
