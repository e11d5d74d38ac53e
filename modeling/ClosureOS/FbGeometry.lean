import ClosureOS.GlyphRendering
import ClosureOS.MultibootTags

/-!
The geometry of the frame buffer. boot_get_frame_buffer takes address, width and height from
the tag and leaves framebuffer_pitch unread: the drawing loops use the width as the distance
between lines. Each access of the loops is recorded with the row and the column it is meant
for and the index that the loop computes. The loops store at these indices, and depend on
the pixels there and the cursor only.
-/
namespace ClosureOS

open ByteMemory Raster Raster.Buffer

/-! ### The tag -/

/-- struct multiboot_tag_framebuffer_common, from framebuffer_addr to framebuffer_bpp. -/
structure FramebufferTag where
  addr : Word
  pitch : BitVec 32
  width : BitVec 32
  height : BitVec 32
  bpp : BitVec 8
deriving DecidableEq, Repr

def framebufferTagAt (m : Memory) (tag : Word) : FramebufferTag :=
  ⟨load64 m (tag + 8#64), load32 m (tag + 16#64), load32 m (tag + 20#64), load32 m (tag + 24#64),
    m (tag + 28#64)⟩

/-- The tag from which boot_get_frame_buffer sets boot_fb_width, boot_fb_height and the frame
buffer; none inside when it returns -1. -/
def bootGetFrameBuffer (m : Memory) (mbi : Word) (fuel : ℕ) : Option (Option FramebufferTag) :=
  (findFramebufferTag m mbi fuel).map fun tag => tag.map (framebufferTagAt m)

/-- boot_fb_base and boot_fb_sz: width times height in 32 bits, times four in 64. -/
def FramebufferTag.frameBuffer (tag : FramebufferTag) : FrameBuffer :=
  ⟨tag.addr, (tag.width * tag.height).setWidth 64 * 4#64⟩

namespace BootTty

variable (t : BootTty)

/-! ### The indices of the loops -/

/-- The pixel that an access is meant for, and the index that it uses. -/
structure FbAccess where
  row : ℕ
  col : ℕ
  index : ℕ

def scrollTo (x y : ℕ) : ℕ := (BitVec.ofNat 32 x + BitVec.ofNat 32 y * t.bootFbWidth).toNat

def scrollFrom (x y : ℕ) : ℕ :=
  (BitVec.ofNat 32 x + (BitVec.ofNat 32 y + t.fontHeight) * t.bootFbWidth).toNat

/-- The variable lines of the loop that clears the last line of text. -/
def clearedLine (y : ℕ) : BitVec 32 := BitVec.ofNat 32 y + (t.maxChNrY - 1#32) * t.fontHeight

def clearRowIndex (x y : ℕ) : ℕ :=
  ((t.clearedLine y).setWidth 64 * t.bootFbWidth.setWidth 64 +
    (BitVec.ofNat 32 x).setWidth 64).toNat

def drawIndex (s : BootFb) (x y : ℕ) : ℕ :=
  ((s.cursorY * t.fontHeight * t.bootFbWidth).setWidth 64 + (s.cursorX * t.fontWidth).setWidth 64 +
    (BitVec.ofNat 32 y * t.bootFbWidth).setWidth 64 + (BitVec.ofNat 32 x).setWidth 64).toNat

def clearIndex (x y : ℕ) : ℕ := (BitVec.ofNat 32 y * t.bootFbWidth + BitVec.ofNat 32 x).toNat

/-! ### The operations -/

/-- What can be asked of the frame buffer console. -/
inductive FbOp
  | putchar (ch : BitVec 16) (fg bg : BitVec 32)
  | newLine (bg : BitVec 32)
  | cursorBack
  | backSpace
  | tab
  | clearScreen

def FbOp.run : FbOp → BootFb → BootFb
  | putchar ch fg bg => t.bootPutcharFb ch fg bg
  | newLine bg => t.bootPutcharFbNewLine bg
  | cursorBack => bootCursorBackFb
  | backSpace => bootBackSpaceFb
  | tab => t.bootPutcharTabFb
  | clearScreen => fun s => { s with fb := t.bootClearScreenInternalFb s.fb }

/-- The accesses of one operation, loop by loop. -/
inductive Accesses : FbOp → BootFb → FbAccess → Prop
  | read {bg : BitVec 32} {s : BootFb} {x y : ℕ} (hscroll : s.cursorY + 1#32 ≥ t.maxChNrY)
    (hy : y < ((t.maxChNrY - 1#32) * t.fontHeight).toNat) (hx : x < t.width) :
    Accesses (.newLine bg) s ⟨y + t.glyphHeight, x, t.scrollFrom x y⟩
  | write {bg : BitVec 32} {s : BootFb} {x y : ℕ} (hscroll : s.cursorY + 1#32 ≥ t.maxChNrY)
    (hy : y < ((t.maxChNrY - 1#32) * t.fontHeight).toNat) (hx : x < t.width) :
    Accesses (.newLine bg) s ⟨y, x, t.scrollTo x y⟩
  | clearRow {bg : BitVec 32} {s : BootFb} {x y : ℕ} (hscroll : s.cursorY + 1#32 ≥ t.maxChNrY)
    (hy : y < t.glyphHeight) (hx : x < t.width) :
    Accesses (.newLine bg) s ⟨(t.clearedLine y).toNat, x, t.clearRowIndex x y⟩
  | draw {ch : BitVec 16} {fg bg : BitVec 32} {s : BootFb} {x y : ℕ} (hy : y < t.glyphHeight)
    (hx : x < t.glyphWidth) :
    Accesses (.putchar ch fg bg) s
      ⟨s.cursorY.toNat * t.glyphHeight + y, s.cursorX.toNat * t.glyphWidth + x, t.drawIndex s x y⟩
  | wrap {ch : BitVec 16} {fg bg : BitVec 32} {s : BootFb} {a : FbAccess}
    (hedge : s.cursorX + 1#32 ≥ t.maxChNrX)
    (ha : Accesses (.newLine bg) ⟨s.cursorX + 1#32, s.cursorY, t.drawGlyph ch fg bg s⟩ a) :
    Accesses (.putchar ch fg bg) s a
  | tab {s : BootFb} {a : FbAccess} {i : ℕ} (hi : i < (t.tabSpaceNr s).toNat)
    (ha : Accesses (.putchar 0x20#16 textFg textBg)
      (countedLoop i (fun _ => t.bootPutcharFb 0x20#16 textFg textBg) s) a) :
    Accesses .tab s a
  | clear {s : BootFb} {x y : ℕ} (hy : y < t.height) (hx : x < t.width) :
    Accesses .clearScreen s ⟨y, x, t.clearIndex x y⟩

/-- The accesses of a sequence of operations. -/
inductive RunAccesses : List FbOp → BootFb → FbAccess → Prop
  | head {op : FbOp} {ops : List FbOp} {s : BootFb} {a : FbAccess} (ha : Accesses t op s a) :
    RunAccesses (op :: ops) s a
  | tail {op : FbOp} {ops : List FbOp} {s : BootFb} {a : FbAccess}
    (ha : RunAccesses ops (op.run t s) a) : RunAccesses (op :: ops) s a

section Stores

variable {t : BootTty} {s : BootFb} {bg : BitVec 32}

theorem stores_scrollRow {y : ℕ} (hscroll : s.cursorY + 1#32 ≥ t.maxChNrY)
    (hy : y < ((t.maxChNrY - 1#32) * t.fontHeight).toNat) (c : Buffer (BitVec 32)) :
    ∀ i ∈ (t.scrollRow (BitVec.ofNat 32 y) c).stores,
      i ∈ c.stores ∨ ∃ a, t.Accesses (.newLine bg) s a ∧ a.index = i := by
  refine stores_countedLoop fun x hx d j hj => ?_
  rcases List.mem_cons.mp hj with rfl | hj
  · exact Or.inr ⟨_, .write hscroll hy hx, rfl⟩
  · exact Or.inl hj

theorem stores_clearRow {y : ℕ} (hscroll : s.cursorY + 1#32 ≥ t.maxChNrY)
    (hy : y < t.glyphHeight) (c : Buffer (BitVec 32)) :
    ∀ i ∈ (t.clearRow bg (BitVec.ofNat 32 y) c).stores,
      i ∈ c.stores ∨ ∃ a, t.Accesses (.newLine bg) s a ∧ a.index = i := by
  refine stores_countedLoop fun x hx d j hj => ?_
  rcases List.mem_cons.mp hj with rfl | hj
  · exact Or.inr ⟨_, .clearRow hscroll hy hx, rfl⟩
  · exact Or.inl hj

theorem stores_newLine (bg : BitVec 32) (s : BootFb) :
    ∀ i ∈ (t.bootPutcharFbNewLine bg s).fb.stores,
      i ∈ s.fb.stores ∨ ∃ a, t.Accesses (.newLine bg) s a ∧ a.index = i := by
  rw [bootPutcharFbNewLine]
  split
  · next hscroll =>
    intro i hi
    rcases stores_countedLoop (fun y hy c => stores_clearRow hscroll hy c) i hi with hi | ha
    · exact stores_countedLoop (fun y hy c => stores_scrollRow hscroll hy c) i hi
    · exact Or.inr ha
  · exact fun i hi => Or.inl hi

theorem stores_putchar (ch : BitVec 16) (fg bg : BitVec 32) (s : BootFb) :
    ∀ i ∈ (t.bootPutcharFb ch fg bg s).fb.stores,
      i ∈ s.fb.stores ∨ ∃ a, t.Accesses (.putchar ch fg bg) s a ∧ a.index = i := by
  have hdraw : ∀ i ∈ (t.drawGlyph ch fg bg s).stores,
      i ∈ s.fb.stores ∨ ∃ a, t.Accesses (.putchar ch fg bg) s a ∧ a.index = i := by
    rw [drawGlyph, drawGlyphRow_loop]
    refine stores_countedLoop fun y hy c => ?_
    simp only [drawGlyphRow, drawPixel_loop _ _ _ _ _ _ (Nat.le_refl t.glyphWidth)]
    refine stores_countedLoop fun x hx d j hj => ?_
    rcases List.mem_cons.mp hj with rfl | hj
    · exact Or.inr ⟨_, .draw hy hx, rfl⟩
    · exact Or.inl hj
  rw [bootPutcharFb_eq]
  split
  · next hedge =>
    intro i hi
    rcases stores_newLine bg _ i hi with hi | ⟨a, ha, rfl⟩
    · exact hdraw i hi
    · exact Or.inr ⟨a, .wrap hedge ha, rfl⟩
  · exact hdraw

/-- Every index that an operation writes is that of one of its accesses. -/
theorem stores_run (op : FbOp) (s : BootFb) :
    ∀ i ∈ (op.run t s).fb.stores, i ∈ s.fb.stores ∨ ∃ a, t.Accesses op s a ∧ a.index = i := by
  cases op with
  | putchar ch fg bg => exact stores_putchar ch fg bg s
  | newLine bg => exact stores_newLine bg s
  | cursorBack => exact fun i hi => Or.inl hi
  | backSpace =>
    simp only [FbOp.run, bootBackSpaceFb]
    split
    · exact fun i hi => Or.inl hi
    · exact fun i hi => Or.inl hi
  | tab =>
    have hloop : ∀ n ≤ (t.tabSpaceNr s).toNat, ∀ i ∈ (countedLoop n
        (fun _ => t.bootPutcharFb 0x20#16 textFg textBg) s).fb.stores,
        i ∈ s.fb.stores ∨ ∃ a, t.Accesses .tab s a ∧ a.index = i := by
      intro n
      induction n with
      | zero => exact fun _ i hi => Or.inl hi
      | succ n ih =>
        intro hn i hi
        rw [countedLoop_succ] at hi
        rcases stores_putchar _ _ _ _ i hi with hi | ⟨a, ha, rfl⟩
        · exact ih (Nat.le_of_succ_le hn) i hi
        · exact Or.inr ⟨a, .tab hn ha, rfl⟩
    exact hloop _ (Nat.le_refl _)
  | clearScreen =>
    refine stores_countedLoop fun y hy c => stores_countedLoop fun x hx d j hj => ?_
    rcases List.mem_cons.mp hj with rfl | hj
    · exact Or.inr ⟨_, .clear hy hx, rfl⟩
    · exact Or.inl hj

end Stores

/-! ### What the loops read -/

/-- The same cursor, and the same pixels at the indices with P. -/
structure FbAgree (P : ℕ → Prop) (s s' : BootFb) : Prop where
  cursorX : s.cursorX = s'.cursorX
  cursorY : s.cursorY = s'.cursorY
  fb : AgreeAt P s.fb s'.fb

section Reads

variable {t : BootTty} {s s' : BootFb} {P : ℕ → Prop} {op : FbOp} {ops : List FbOp}

theorem reads_newLine (bg : BitVec 32) (hP : ∀ a, t.Accesses (.newLine bg) s a → P a.index)
    (hs : FbAgree P s s') :
    FbAgree P (t.bootPutcharFbNewLine bg s) (t.bootPutcharFbNewLine bg s') := by
  unfold bootPutcharFbNewLine
  dsimp only
  rw [← hs.cursorY]
  split
  · next hscroll =>
    refine ⟨rfl, rfl, ?_⟩
    have hrows : AgreeAt P
        (countedLoop ((t.maxChNrY - 1#32) * t.fontHeight).toNat
          (fun y => t.scrollRow (BitVec.ofNat 32 y)) s.fb)
        (countedLoop ((t.maxChNrY - 1#32) * t.fontHeight).toNat
          (fun y => t.scrollRow (BitVec.ofNat 32 y)) s'.fb) := by
      refine agreeAt_countedLoop (fun y hy c c' hc => ?_) hs.fb
      refine agreeAt_countedLoop (fun x hx d d' hd => ?_) hc
      exact hd.store (hd _ (hP _ (.read hscroll hy hx))) _
    refine agreeAt_countedLoop (fun y _ c c' hc => ?_) hrows
    exact agreeAt_countedLoop (fun x _ d d' hd => hd.store rfl _) hc
  · exact ⟨rfl, rfl, hs.fb⟩

theorem reads_drawGlyph (ch : BitVec 16) (fg bg : BitVec 32) (hs : FbAgree P s s') :
    AgreeAt P (t.drawGlyph ch fg bg s) (t.drawGlyph ch fg bg s') := by
  rw [drawGlyph, drawGlyph, ← hs.cursorX, ← hs.cursorY, drawGlyphRow_loop, drawGlyphRow_loop]
  refine agreeAt_countedLoop (fun y _ c c' hc => ?_) hs.fb
  simp only [drawGlyphRow, drawPixel_loop _ _ _ _ _ _ (Nat.le_refl t.glyphWidth)]
  exact agreeAt_countedLoop (fun x _ d d' hd => hd.store rfl _) hc

theorem reads_putchar (ch : BitVec 16) (fg bg : BitVec 32)
    (hP : ∀ a, t.Accesses (.putchar ch fg bg) s a → P a.index) (hs : FbAgree P s s') :
    FbAgree P (t.bootPutcharFb ch fg bg s) (t.bootPutcharFb ch fg bg s') := by
  have hglyph : FbAgree P ⟨s.cursorX + 1#32, s.cursorY, t.drawGlyph ch fg bg s⟩
      ⟨s.cursorX + 1#32, s.cursorY, t.drawGlyph ch fg bg s'⟩ :=
    ⟨rfl, rfl, reads_drawGlyph ch fg bg hs⟩
  rw [bootPutcharFb_eq, bootPutcharFb_eq, ← hs.cursorX, ← hs.cursorY]
  split
  · next hedge => exact reads_newLine bg (fun a ha => hP a (.wrap hedge ha)) hglyph
  · exact hglyph

/-- What an operation leaves at the indices of its accesses, and the cursor, depends on the
pixels at these indices and the cursor only. -/
theorem reads_run (hP : ∀ a, t.Accesses op s a → P a.index) (hs : FbAgree P s s') :
    FbAgree P (op.run t s) (op.run t s') := by
  cases op with
  | putchar ch fg bg => exact reads_putchar ch fg bg hP hs
  | newLine bg => exact reads_newLine bg hP hs
  | cursorBack => exact ⟨rfl, hs.cursorY, hs.fb⟩
  | backSpace =>
    simp only [FbOp.run, bootBackSpaceFb, ← hs.cursorX]
    split
    · exact ⟨rfl, hs.cursorY, hs.fb⟩
    · exact hs
  | tab =>
    have hcount : t.tabSpaceNr s' = t.tabSpaceNr s := by
      rw [tabSpaceNr, tabSpaceNr, hs.cursorX]
    have hloop : ∀ n ≤ (t.tabSpaceNr s).toNat, FbAgree P
        (countedLoop n (fun _ => t.bootPutcharFb 0x20#16 textFg textBg) s)
        (countedLoop n (fun _ => t.bootPutcharFb 0x20#16 textFg textBg) s') := by
      intro n
      induction n with
      | zero => exact fun _ => hs
      | succ n ih =>
        intro hn
        rw [countedLoop_succ, countedLoop_succ]
        exact reads_putchar _ _ _ (fun a ha => hP a (.tab hn ha)) (ih (Nat.le_of_succ_le hn))
    simp only [FbOp.run, bootPutcharTabFb, hcount]
    exact hloop _ (Nat.le_refl _)
  | clearScreen =>
    refine ⟨hs.cursorX, hs.cursorY, ?_⟩
    refine agreeAt_countedLoop (fun y _ c c' hc => ?_) hs.fb
    exact agreeAt_countedLoop (fun x _ d d' hd => hd.store rfl _) hc

/-! ### Sequences of operations -/

/-- The state after a sequence of operations. -/
def runAll (t : BootTty) (ops : List FbOp) (s : BootFb) : BootFb :=
  ops.foldl (fun s op => op.run t s) s

/-- The index is that of an access. -/
def Touched (t : BootTty) (ops : List FbOp) (s : BootFb) (i : ℕ) : Prop :=
  ∃ a, t.RunAccesses ops s a ∧ a.index = i

theorem stores_runAll (ops : List FbOp) (s : BootFb) :
    ∀ i ∈ (t.runAll ops s).fb.stores, i ∈ s.fb.stores ∨ t.Touched ops s i := by
  induction ops generalizing s with
  | nil => exact fun i hi => Or.inl hi
  | cons op ops ih =>
    intro i hi
    rcases ih (op.run t s) i hi with hi | ⟨a, ha, rfl⟩
    · rcases stores_run op s i hi with hi | ⟨a, ha, rfl⟩
      · exact Or.inl hi
      · exact Or.inr ⟨a, .head ha, rfl⟩
    · exact Or.inr ⟨a, .tail ha, rfl⟩

theorem reads_runAll (hP : ∀ a, t.RunAccesses ops s a → P a.index) (hs : FbAgree P s s') :
    FbAgree P (t.runAll ops s) (t.runAll ops s') := by
  induction ops generalizing s s' with
  | nil => exact hs
  | cons op ops ih =>
    exact ih (fun a ha => hP a (.tail ha)) (reads_run (fun a ha => hP a (.head ha)) hs)

end Reads

/-! ### Where the accesses go -/

section Indices

variable {t : BootTty} {op : FbOp} {ops : List FbOp} {s : BootFb} {a : FbAccess}

/-- On a screen of fewer than 2^32 pixels every access to a pixel of the screen is at row times
width plus column. -/
theorem Accesses.index_eq (harea : t.width * t.height < 2 ^ 32) (ha : t.Accesses op s a)
    (hrow : a.row < t.height) (hcol : a.col < t.width) : a.index = a.col + a.row * t.width := by
  induction ha with
  | @read bg s x y hscroll hy hx =>
    have hx' := toNat_ofNat_of_lt (n := t.bootFbWidth) hx
    have hy' := toNat_ofNat_of_lt hy
    have hsrc : (BitVec.ofNat 32 y + t.fontHeight).toNat = y + t.glyphHeight := by
      rw [BitVec.toNat_add, hy', Nat.mod_eq_of_lt (hrow.trans t.bootFbHeight.isLt)]
    rw [scrollFrom, toNat_index harea (hx'.trans_lt hx) (hsrc.trans_lt hrow), hx', hsrc]
  | @write bg s x y hscroll hy hx =>
    have hx' := toNat_ofNat_of_lt (n := t.bootFbWidth) hx
    have hy' := toNat_ofNat_of_lt hy
    rw [scrollTo, toNat_index harea (hx'.trans_lt hx) (hy'.trans_lt hrow), hx', hy']
  | @clearRow bg s x y hscroll hy hx =>
    have hx' := toNat_ofNat_of_lt (n := t.bootFbWidth) hx
    rw [clearRowIndex, toNat_index64 harea (hx'.trans_lt hx) hrow, hx']
  | @draw ch fg bg s x y hy hx =>
    have hlines : ∀ n ≤ s.cursorY.toNat * t.glyphHeight + y, n * t.width < 2 ^ 32 := fun n hn =>
      (Nat.mul_le_mul_right _ (hn.trans hrow.le)).trans_lt ((Nat.mul_comm _ _).trans_lt harea)
    exact toNat_cell_index hy hx hrow hcol (hlines _ (Nat.le_add_right _ _))
      (hlines _ (Nat.le_add_left _ _))
  | wrap _ _ ih => exact ih hrow hcol
  | tab _ _ ih => exact ih hrow hcol
  | @clear s x y hy hx =>
    have hx' := toNat_ofNat_of_lt (n := t.bootFbWidth) hx
    have hy' := toNat_ofNat_of_lt (n := t.bootFbHeight) hy
    rw [clearIndex, BitVec.add_comm, toNat_index harea (hx'.trans_lt hx) (hy'.trans_lt hy), hx',
      hy']

theorem RunAccesses.accesses (ha : t.RunAccesses ops s a) : ∃ op s', t.Accesses op s' a := by
  induction ha with
  | head ha => exact ⟨_, _, ha⟩
  | tail _ ih => exact ih

end Indices

section Geometry

variable {tag : FramebufferTag} {font : Psf2Font}

theorem stop_sub_base (tag : FramebufferTag) :
    tag.frameBuffer.stop - tag.frameBuffer.base = tag.frameBuffer.sz := by
  rw [FrameBuffer.stop, BitVec.add_comm, BitVec.add_sub_cancel]

theorem toNat_frameBuffer_sz (tag : FramebufferTag) :
    tag.frameBuffer.sz.toNat = tag.width.toNat * tag.height.toNat % 2 ^ 32 * 4 := by
  rw [FramebufferTag.frameBuffer, BitVec.toNat_mul, toNat_setWidth64, BitVec.toNat_mul]
  exact Nat.mod_eq_of_lt (by simp only [BitVec.toNat_ofNat]; omega)

/-- Lines without a gap, or a single one: the byte of a pixel comes from its index. -/
theorem offset_eq {x y : ℕ} (hgap : tag.height = 1#32 ∨ tag.pitch.toNat = 4 * tag.width.toNat)
    (hy : y < tag.height.toNat) :
    y * tag.pitch.toNat + 4 * x = 4 * (x + y * tag.width.toNat) := by
  rcases hgap with hone | hgap
  · rw [hone] at hy
    obtain rfl : y = 0 := Nat.lt_one_iff.mp hy
    omega
  · rw [hgap]
    ring

/-- Clearing the screen writes the first pixel of the second line width pixels after the
first one. -/
theorem pitch_of_clearScreen (hw : 0 < tag.width.toNat) (hh : 1 < tag.height.toNat)
    (hindex : ∀ s a, (bootInitFont tag.width tag.height font).Accesses .clearScreen s a →
      a.row < tag.height.toNat → a.col < tag.width.toNat →
        4 * a.index = a.row * tag.pitch.toNat + 4 * a.col) :
    tag.pitch.toNat = 4 * tag.width.toNat := by
  have hsecond := hindex ⟨0#32, 0#32, ⟨fun _ => 0#32, []⟩⟩ ⟨1, 0, _⟩ (.clear hh hw) hh hw
  have hwidth : (bootInitFont tag.width tag.height font).clearIndex 0 1 = tag.width.toNat := by
    have hzero : 1#32 * tag.width + 0#32 = tag.width := by
      rw [BitVec.add_zero, BitVec.one_mul]
    exact congrArg BitVec.toNat hzero
  dsimp only at hsecond
  omega

/-- The last pixel is inside the frame buffer only if the number of pixels has 32 bits. -/
theorem area_lt_of_last (hw : 0 < tag.width.toNat) (hh : 0 < tag.height.toNat)
    (hgap : tag.height = 1#32 ∨ tag.pitch.toNat = 4 * tag.width.toNat)
    (hlast : (tag.height.toNat - 1) * tag.pitch.toNat + 4 * (tag.width.toNat - 1) <
      tag.frameBuffer.sz.toNat) : tag.width.toNat * tag.height.toNat < 2 ^ 32 := by
  obtain ⟨k, hk⟩ := Nat.exists_eq_add_one_of_ne_zero hh.ne'
  have harea : tag.width.toNat * tag.height.toNat = k * tag.width.toNat + tag.width.toNat := by
    rw [hk]
    ring
  rw [offset_eq hgap (by omega), toNat_frameBuffer_sz, harea, hk, Nat.add_sub_cancel] at hlast
  omega

/-- What the right offsets and the right size say about a screen that is not empty. -/
theorem gap_and_area (hw : 0 < tag.width.toNat) (hh : 0 < tag.height.toNat)
    (hindex : ∀ s a, (bootInitFont tag.width tag.height font).Accesses .clearScreen s a →
      a.row < tag.height.toNat → a.col < tag.width.toNat →
        4 * a.index = a.row * tag.pitch.toNat + 4 * a.col)
    (hsize : ∀ y < tag.height.toNat, ∀ x < tag.width.toNat,
      y * tag.pitch.toNat + 4 * x < tag.frameBuffer.sz.toNat) :
    (tag.height = 1#32 ∨ tag.pitch.toNat = 4 * tag.width.toNat) ∧
      tag.width.toNat * tag.height.toNat < 2 ^ 32 := by
  have hgap : tag.height = 1#32 ∨ tag.pitch.toNat = 4 * tag.width.toNat := by
    by_cases hone : tag.height = 1#32
    · exact Or.inl hone
    · have hone' : tag.height.toNat ≠ 1 := fun h => hone (BitVec.eq_of_toNat_eq h)
      exact Or.inr (pitch_of_clearScreen hw (by omega) hindex)
  have hlast := hsize (tag.height.toNat - 1) (by omega) (tag.width.toNat - 1) (by omega)
  exact ⟨hgap, area_lt_of_last hw hh hgap hlast⟩

/-- All pixels of a screen with 32 bits of pixels are inside the frame buffer. -/
theorem offset_lt_sz {x y : ℕ} (hgap : tag.height = 1#32 ∨ tag.pitch.toNat = 4 * tag.width.toNat)
    (harea : tag.width.toNat * tag.height.toNat < 2 ^ 32) (hy : y < tag.height.toNat)
    (hx : x < tag.width.toNat) : y * tag.pitch.toNat + 4 * x < tag.frameBuffer.sz.toNat := by
  have hlt := index_lt hx hy
  rw [offset_eq hgap hy, toNat_frameBuffer_sz, Nat.mod_eq_of_lt harea]
  omega

end Geometry

/-- The pixel meant for a column and a row of the screen is at the byte that the pitch of the
tag says, in every sequence of console operations, and the size of the frame buffer contains
all of these bytes, exactly when the screen is empty, or has fewer than 2^32 pixels and lines
that follow each other without a gap, or a single one. The accesses are those of the loops:
what a sequence writes is at their indices, and what it leaves there depends on what was there
and the cursor. -/
theorem fbGeometry_iff (tag : FramebufferTag) (font : Psf2Font) :
    let t := bootInitFont tag.width tag.height font
    (((∀ ops s a, t.RunAccesses ops s a → a.row < tag.height.toNat → a.col < tag.width.toNat →
        4 * a.index = a.row * tag.pitch.toNat + 4 * a.col) ∧
      tag.frameBuffer.stop - tag.frameBuffer.base = tag.frameBuffer.sz ∧
      ∀ y < tag.height.toNat, ∀ x < tag.width.toNat,
        y * tag.pitch.toNat + 4 * x < tag.frameBuffer.sz.toNat) ↔
    tag.width = 0#32 ∨ tag.height = 0#32 ∨
      ((tag.height = 1#32 ∨ tag.pitch.toNat = 4 * tag.width.toNat) ∧
        tag.width.toNat * tag.height.toNat < 2 ^ 32)) ∧
    ∀ ops s, (∀ i ∈ (t.runAll ops s).fb.stores, i ∈ s.fb.stores ∨ t.Touched ops s i) ∧
      ∀ s', FbAgree (t.Touched ops s) s s' →
        FbAgree (t.Touched ops s) (t.runAll ops s) (t.runAll ops s') := by
  intro t
  refine ⟨?_, fun ops s => ⟨stores_runAll ops s, fun s' hs =>
    reads_runAll (fun a ha => ⟨a, ha, rfl⟩) hs⟩⟩
  constructor
  · rintro ⟨hindex, _, hsize⟩
    by_cases hw : tag.width = 0#32
    · exact Or.inl hw
    by_cases hh : tag.height = 0#32
    · exact Or.inr (Or.inl hh)
    have hw' : 0 < tag.width.toNat := Nat.pos_of_ne_zero fun h => hw (BitVec.eq_of_toNat_eq h)
    have hh' : 0 < tag.height.toNat := Nat.pos_of_ne_zero fun h => hh (BitVec.eq_of_toNat_eq h)
    exact Or.inr (Or.inr (gap_and_area hw' hh'
      (fun s a ha => hindex [.clearScreen] s a (.head ha)) hsize))
  · rintro (hw | hh | ⟨hgap, harea⟩)
    · rw [hw]
      exact ⟨fun _ _ _ _ _ hcol => absurd hcol (Nat.not_lt_zero _), stop_sub_base tag,
        fun _ _ _ hx => absurd hx (Nat.not_lt_zero _)⟩
    · rw [hh]
      exact ⟨fun _ _ _ _ hrow _ => absurd hrow (Nat.not_lt_zero _), stop_sub_base tag,
        fun _ hy _ _ => absurd hy (Nat.not_lt_zero _)⟩
    · refine ⟨fun ops s a ha hrow hcol => ?_, stop_sub_base tag, fun y hy x hx =>
        offset_lt_sz hgap harea hy hx⟩
      obtain ⟨op, s', ha⟩ := ha.accesses
      rw [offset_eq hgap hrow, Accesses.index_eq harea ha hrow hcol]
      rfl

/-- Information with a frame buffer tag: lines of 1366 pixels that the firmware pads to 5504
bytes. -/
def paddedTags : List MultibootTag :=
  [MultibootTag.padded 8#32 (le32 0xFD000000#32 ++ le32 0#32 ++ le32 5504#32 ++ le32 1366#32 ++
    le32 768#32 ++ [32#8, 1#8, 0#8, 0#8]) (by decide)]

/-- boot_get_frame_buffer accepts the tag, and clearing the screen writes the first pixel of
the second line 40 bytes too early. -/
theorem fbGeometry_not_padded :
    let tag : FramebufferTag := ⟨0xFD000000#64, 5504#32, 1366#32, 768#32, 32#8⟩
    let t := bootInitFont tag.width tag.height (oneByteFont 0x00#8)
    bootGetFrameBuffer (ofBytes (0x10000#64 + 8#64) (MultibootTag.serialise paddedTags)) 0x10000#64
        2 = some (some tag) ∧
      ∃ a, t.RunAccesses [.clearScreen] ⟨0#32, 0#32, ⟨fun _ => 0#32, []⟩⟩ a ∧
        a.row < 768 ∧ a.col < 1366 ∧ 4 * a.index ≠ a.row * tag.pitch.toNat + 4 * a.col := by
  intro tag t
  have hrow : 1 < t.height := by decide
  have hcol : 0 < t.width := by decide
  refine ⟨by decide +kernel, ⟨1, 0, t.clearIndex 0 1⟩, .head (.clear hrow hcol), ?_⟩
  exact ⟨by decide, by decide, by decide⟩

end BootTty

end ClosureOS
