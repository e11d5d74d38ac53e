import ClosureOS.Raster
import Mathlib.Data.BitVec

/-!
The console of the boot stage, boot/boot_tty.c: characters are drawn into a frame buffer
and sent to a serial port. boot_putchar calls one of five handlers by the class of the
character, and there are three sets of handlers: for both outputs, for the serial port
alone and for the frame buffer alone.
-/
namespace ClosureOS

open Raster

/-- The font file: the fields of struct psf2_header that are read, and all bytes. -/
structure Psf2Font where
  headerSize : BitVec 32
  glyphNr : BitVec 32
  bytesPerGlyph : BitVec 32
  height : BitVec 32
  width : BitVec 32
  bytes : ℕ → BitVec 8

/-- The globals that stay the same after set-up. A pointer into the font file is the
offset from its start. -/
structure BootTty where
  bootFbWidth : BitVec 32
  bootFbHeight : BitVec 32
  maxChNrX : BitVec 32
  maxChNrY : BitVec 32
  fontWidth : BitVec 32
  fontHeight : BitVec 32
  fontWidthBytes : BitVec 32
  glyphTable : ℕ
  bytesPerGlyph : BitVec 32
  glyphNr : BitVec 32
  fontBytes : ℕ → BitVec 8

/-- The cursor, counted by characters, and the array at boot_fb_base. -/
structure BootFb where
  cursorX : BitVec 32
  cursorY : BitVec 32
  fb : Buffer (BitVec 32)

/-- boot_init_font, for a frame buffer of the given size. -/
def bootInitFont (bootFbWidth bootFbHeight : BitVec 32) (font : Psf2Font) : BootTty :=
  let fontWidthBytes := (font.width + 7#32) / 8#32
  let fontWidth := fontWidthBytes * 8#32
  { bootFbWidth
    bootFbHeight
    maxChNrX := bootFbWidth / fontWidth
    maxChNrY := bootFbHeight / font.height
    fontWidth
    fontHeight := font.height
    fontWidthBytes
    glyphTable := font.headerSize.toNat
    bytesPerGlyph := font.bytesPerGlyph
    glyphNr := font.glyphNr
    fontBytes := font.bytes }

def defaultTabSize : ℕ := 8

/-- The colours of all text. -/
def textFg : BitVec 32 := 0xffffff#32

def textBg : BitVec 32 := 0#32

namespace BootTty

variable (t : BootTty)

/-! ### Frame buffer output -/

/-- The inner loop of the scroll. -/
def scrollRow (y : BitVec 32) (b : Buffer (BitVec 32)) : Buffer (BitVec 32) :=
  countedLoop t.bootFbWidth.toNat (fun x b =>
    let x := BitVec.ofNat 32 x
    b.store (x + y * t.bootFbWidth).toNat
      (b.cells (x + (y + t.fontHeight) * t.bootFbWidth).toNat)) b

/-- The inner loop that clears the last line of text. -/
def clearRow (bg y : BitVec 32) (b : Buffer (BitVec 32)) : Buffer (BitVec 32) :=
  countedLoop t.bootFbWidth.toNat (fun x b =>
    let lines := (y + (t.maxChNrY - 1#32) * t.fontHeight).setWidth 64
    let loc := lines * t.bootFbWidth.setWidth 64 + (BitVec.ofNat 32 x).setWidth 64
    b.store loc.toNat bg) b

/-- The two loops of the scroll. -/
def scrollUp (bg : BitVec 32) (b : Buffer (BitVec 32)) : Buffer (BitVec 32) :=
  let b := countedLoop ((t.maxChNrY - 1#32) * t.fontHeight).toNat
    (fun y => t.scrollRow (BitVec.ofNat 32 y)) b
  countedLoop t.fontHeight.toNat (fun y => t.clearRow bg (BitVec.ofNat 32 y)) b

def bootPutcharFbNewLine (bg : BitVec 32) (s : BootFb) : BootFb :=
  let s := { s with cursorX := 0#32, cursorY := s.cursorY + 1#32 }
  if s.cursorY ≥ t.maxChNrY then { s with fb := t.scrollUp bg s.fb, cursorY := s.cursorY - 1#32 }
  else s

/-- The body of the inner loop of boot_putchar_fb, with the mask carried along. -/
def drawPixel (loc : BitVec 64) (glyph : ℕ) (fg bg chY : BitVec 32) (chX : ℕ)
    (r : BitVec 8 × Buffer (BitVec 32)) : BitVec 8 × Buffer (BitVec 32) :=
  let chX := BitVec.ofNat 32 chX
  let mask := r.1
  let i := (loc + (chY * t.bootFbWidth).setWidth 64 + chX.setWidth 64).toNat
  let b := r.2.store i
    (if t.fontBytes (glyph + (chX / 8#32).toNat) &&& mask ≠ 0#8 then fg else bg)
  -- the mask is set again after columns 0, 8, 16 and so on
  (if chX % 8#32 = 0#32 then 1#8 <<< 7 else mask >>> 1, b)

/-- The body of the outer loop, with the glyph pointer carried along. -/
def drawGlyphRow (loc : BitVec 64) (fg bg : BitVec 32) (chY : ℕ)
    (r : ℕ × Buffer (BitVec 32)) : ℕ × Buffer (BitVec 32) :=
  let row := countedLoop t.fontWidth.toNat
    (t.drawPixel loc r.1 fg bg (BitVec.ofNat 32 chY)) (1#8 <<< 7, r.2)
  (r.1 + t.fontWidthBytes.toNat, row.2)

/-- The glyph of a character; the first one when the character is out of range. -/
def glyphStart (ch : BitVec 16) : ℕ :=
  if ch.setWidth 32 < t.glyphNr then
    t.glyphTable + (ch.setWidth 32 * t.bytesPerGlyph).toNat
  else t.glyphTable

def bootPutcharFb (ch : BitVec 16) (fg bg : BitVec 32) (s : BootFb) : BootFb :=
  let loc := (s.cursorY * t.fontHeight * t.bootFbWidth).setWidth 64
  let loc := loc + (s.cursorX * t.fontWidth).setWidth 64
  let r := countedLoop t.fontHeight.toNat (t.drawGlyphRow loc fg bg) (t.glyphStart ch, s.fb)
  let s := { s with fb := r.2, cursorX := s.cursorX + 1#32 }
  if s.cursorX ≥ t.maxChNrX then t.bootPutcharFbNewLine bg s else s

def bootClearScreenInternalFb (b : Buffer (BitVec 32)) : Buffer (BitVec 32) :=
  countedLoop t.bootFbHeight.toNat (fun y => countedLoop t.bootFbWidth.toNat fun x b =>
    b.store (BitVec.ofNat 32 y * t.bootFbWidth + BitVec.ofNat 32 x).toNat 0#32) b

def bootCursorBackFb (s : BootFb) : BootFb := { s with cursorX := 0#32 }

def bootBackSpaceFb (s : BootFb) : BootFb :=
  if s.cursorX > 0#32 then { s with cursorX := s.cursorX - 1#32 } else s

/-- The number of spaces for a tab is computed on int. -/
def tabSpaceNr (s : BootFb) : ℤ :=
  let leftChNr := (t.maxChNrX - s.cursorX - 1#32).toInt
  if leftChNr > defaultTabSize then defaultTabSize else leftChNr

def bootPutcharTabFb (s : BootFb) : BootFb :=
  countedLoop (t.tabSpaceNr s).toNat (fun _ => t.bootPutcharFb 0x20#16 textFg textBg) s

end BootTty

/-! ### Serial port output -/

/-- What the line status register will read, one byte for each read, and the bytes
written to the transmit buffer. -/
structure SerialPort where
  status : List (BitVec 8)
  sent : List (BitVec 8)
deriving DecidableEq

namespace SerialPort

/-- The wait loop; none when the port never gets ready. -/
def waitReady : List (BitVec 8) → Option (List (BitVec 8))
  | [] => none
  | res :: status => if res &&& 0x20#8 = 0#8 then waitReady status else some status

def bootPutcharCom (ch : BitVec 16) (c : SerialPort) : Option SerialPort :=
  (waitReady c.status).map fun status => ⟨status, c.sent ++ [ch.setWidth 8]⟩

def bootCursorBackCom : SerialPort → Option SerialPort := bootPutcharCom 0x0D#16

def bootBackSpaceCom : SerialPort → Option SerialPort := bootPutcharCom 0x08#16

def bootPutcharNewLineCom : SerialPort → Option SerialPort := bootPutcharCom 0x0A#16

def bootPutcharTabCom : SerialPort → Option SerialPort := bootPutcharCom 0x09#16

end SerialPort

/-! ### The handlers -/

structure BootConsole where
  fb : BootFb
  com : SerialPort

namespace BootConsole

/-- Output to the frame buffer only. -/
def onFb (f : BootFb → BootFb) (s : BootConsole) : Option BootConsole :=
  some { s with fb := f s.fb }

/-- Output to the serial port only. -/
def onCom (f : SerialPort → Option SerialPort) (s : BootConsole) : Option BootConsole :=
  (f s.com).map fun com => { s with com }

end BootConsole

/-- The function pointers internal_boot_cursor_back, internal_boot_back_space,
internal_boot_putchar_tab, internal_boot_put_new_line and internal_boot_putchar. -/
structure BootHandlers where
  cursorBack : BootConsole → Option BootConsole
  backSpace : BootConsole → Option BootConsole
  putcharTab : BootConsole → Option BootConsole
  putNewLine : BootConsole → Option BootConsole
  putchar : BitVec 16 → BootConsole → Option BootConsole

namespace BootTty

open BootConsole SerialPort

variable (t : BootTty)

def bootCursorBackDefault (s : BootConsole) : Option BootConsole := s.onCom bootCursorBackCom

def bootBackSpaceDefault (s : BootConsole) : Option BootConsole :=
  (s.onFb bootBackSpaceFb).bind (onCom bootBackSpaceCom)

def bootPutcharTabDefault (s : BootConsole) : Option BootConsole :=
  (s.onFb t.bootPutcharTabFb).bind (onCom bootPutcharTabCom)

def bootPutNewLineDefault (s : BootConsole) : Option BootConsole :=
  (s.onFb (t.bootPutcharFbNewLine 0#32)).bind (onCom bootPutcharNewLineCom)

def bootPutcharDefault (ch : BitVec 16) (s : BootConsole) : Option BootConsole :=
  (s.onFb (t.bootPutcharFb ch textFg textBg)).bind (onCom (bootPutcharCom ch))

/-- The handlers boot_*_default. -/
def handlersDefault : BootHandlers where
  cursorBack := bootCursorBackDefault
  backSpace := bootBackSpaceDefault
  putcharTab := t.bootPutcharTabDefault
  putNewLine := t.bootPutNewLineDefault
  putchar := t.bootPutcharDefault

/-- The handlers boot_*_no_fb. -/
def handlersNoFb : BootHandlers where
  cursorBack := onCom bootCursorBackCom
  backSpace := onCom bootBackSpaceCom
  putcharTab := onCom bootPutcharTabCom
  putNewLine := onCom bootPutcharNewLineCom
  putchar ch := onCom (bootPutcharCom ch)

/-- The handlers boot_*_no_com. -/
def handlersNoCom : BootHandlers where
  cursorBack := onFb bootCursorBackFb
  backSpace := onFb bootBackSpaceFb
  putcharTab := onFb t.bootPutcharTabFb
  putNewLine := onFb (t.bootPutcharFbNewLine 0#32)
  putchar ch := onFb (t.bootPutcharFb ch textFg textBg)

end BootTty

def bootPutchar (h : BootHandlers) (s : BootConsole) (ch : BitVec 16) : Option BootConsole :=
  if ch = 0x0D#16 then h.cursorBack s
  else if ch = 0x08#16 then h.backSpace s
  else if ch = 0x09#16 then h.putcharTab s
  else if ch = 0x0A#16 then h.putNewLine s
  else h.putchar ch s

/-- A sequence of boot_putchar calls. -/
def bootPutAll (h : BootHandlers) (s : BootConsole) (chs : List (BitVec 16)) : Option BootConsole :=
  chs.foldlM (bootPutchar h) s

end ClosureOS
