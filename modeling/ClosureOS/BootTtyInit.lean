import ClosureOS.DualOutput

/-!
The choice of the output mode in boot_tty_init and everything that prints through it.
boot_tty_init first asks for a frame buffer and for a serial port; what is missing is to be
left alone from then on, by its own output and by every later call. Five of the six function
pointers follow the mode, the one for clearing the screen stays at its default.
-/
namespace ClosureOS

open BootConsole SerialPort

/-! ### The function pointers -/

/-- The three functions that each pointer of boot_putchar can point to. -/
inductive Variant
  | default
  | noFb
  | noCom
deriving DecidableEq

/-- The functions for internal_boot_clear_screen; there is none for a missing serial port. -/
inductive ClearVariant
  | default
  | noFb
deriving DecidableEq

/-- The function pointers internal_boot_*. -/
structure BootPointers where
  cursorBack : Variant
  backSpace : Variant
  putcharTab : Variant
  putNewLine : Variant
  putchar : Variant
  clearScreen : ClearVariant
deriving DecidableEq

/-- The initial values. -/
def BootPointers.start : BootPointers :=
  ⟨.default, .default, .default, .default, .default, .default⟩

/-- The globals of boot_tty.c before boot_tty_init. -/
def BootTty.zero : BootTty where
  bootFbWidth := 0#32
  bootFbHeight := 0#32
  maxChNrX := 0#32
  maxChNrY := 0#32
  fontWidth := 0#32
  fontHeight := 0#32
  fontWidthBytes := 0#32
  glyphTable := 0
  bytesPerGlyph := 0#32
  glyphNr := 0#32
  fontBytes := fun _ => 0#8

def defaultTtyWidth : BitVec 32 := 80#32

def defaultTtyHeight : BitVec 32 := 24#32

/-- The globals after boot_tty_init has chosen the mode. -/
structure BootMode where
  pointers : BootPointers
  tty : BootTty

namespace BootMode

variable (b : BootMode)

/-- The functions of one mode. -/
def variantHandlers : Variant → BootHandlers
  | .default => b.tty.handlersDefault
  | .noFb => BootTty.handlersNoFb
  | .noCom => b.tty.handlersNoCom

/-- What boot_putchar calls, pointer by pointer. -/
def handlers : BootHandlers where
  cursorBack := (b.variantHandlers b.pointers.cursorBack).cursorBack
  backSpace := (b.variantHandlers b.pointers.backSpace).backSpace
  putcharTab := (b.variantHandlers b.pointers.putcharTab).putcharTab
  putNewLine := (b.variantHandlers b.pointers.putNewLine).putNewLine
  putchar := (b.variantHandlers b.pointers.putchar).putchar

def bootTtyHasFb : Bool := b.pointers.putchar ≠ .noFb

def bootTtyHasCom : Bool := b.pointers.putchar ≠ .noCom

end BootMode

/-! ### Printing -/

/-- The eight characters of boot_clear_screen_internal_com. -/
def clearSequence : List (BitVec 16) :=
  [0x1B#16, 0x5B#16, 0x32#16, 0x4A#16, 0x1B#16, 0x5B#16, 0x32#16, 0x4A#16]

def bootClearScreenInternalCom (c : SerialPort) : Option SerialPort :=
  clearSequence.foldlM (fun c ch => bootPutcharCom ch c) c

/-- The bytes of a string literal. -/
def cString (str : String) : List (BitVec 8) := str.toList.map fun c => BitVec.ofNat 8 c.toNat

/-- The digits that the loop of boot_printnum puts in front of a string, for as many rounds as
there is room in n_str. -/
def printnumDigits : ℕ → BitVec 64 → List (BitVec 8) → List (BitVec 8)
  | 0, _, str => str
  | room + 1, n, str =>
    let str := ((n.srem 10#64) + 0x30#64).setWidth 8 :: str
    let n := n.sdiv 10#64
    if n ≠ 0#64 then printnumDigits room n str else str

/-- The digits that the loop of boot_printhex puts in front of a string. -/
def printhexDigits : ℕ → BitVec 64 → List (BitVec 8) → List (BitVec 8)
  | 0, _, str => str
  | room + 1, n, str =>
    let curr := n % 16#64
    let str := (if curr ≥ 10#64 then curr - 10#64 + 0x61#64 else curr + 0x30#64).setWidth 8 :: str
    let n := n / 16#64
    if n ≠ 0#64 then printhexDigits room n str else str

namespace BootMode

variable (b : BootMode)

/-- A char is promoted with its sign. -/
def bootPrintstr (str : List (BitVec 8)) (s : BootConsole) : Option BootConsole :=
  bootPutAll b.handlers s (str.map fun c => c.signExtend 16)

def bootPuts (str : List (BitVec 8)) (s : BootConsole) : Option BootConsole :=
  (b.bootPrintstr str s).bind fun s => bootPutchar b.handlers s 0x0A#16

def bootPrintnum (n : BitVec 64) (s : BootConsole) : Option BootConsole :=
  if n.slt 0#64 then
    (bootPutchar b.handlers s 0x2D#16).bind (b.bootPrintstr (printnumDigits 29 (-n) []))
  else b.bootPrintstr (printnumDigits 29 n []) s

def bootPrinthex (n : BitVec 64) (s : BootConsole) : Option BootConsole :=
  b.bootPrintstr (printhexDigits 29 n []) s

def bootClearScreenDefault (s : BootConsole) : Option BootConsole :=
  (s.onFb fun fb => { fb with fb := b.tty.bootClearScreenInternalFb fb.fb }).bind
    (onCom bootClearScreenInternalCom)

def bootClearScreenNoFb (s : BootConsole) : Option BootConsole :=
  s.onCom bootClearScreenInternalCom

def bootClearScreen : BootConsole → Option BootConsole :=
  match b.pointers.clearScreen with
  | .default => b.bootClearScreenDefault
  | .noFb => bootClearScreenNoFb

end BootMode

/-- The public functions that print. -/
inductive TtyCall
  | putchar (ch : BitVec 16)
  | clearScreen
  | printstr (str : List (BitVec 8))
  | puts (str : List (BitVec 8))
  | printnum (n : BitVec 64)
  | printhex (n : BitVec 64)

def TtyCall.run (b : BootMode) : TtyCall → BootConsole → Option BootConsole
  | .putchar ch => fun s => bootPutchar b.handlers s ch
  | .clearScreen => b.bootClearScreen
  | .printstr str => b.bootPrintstr str
  | .puts str => b.bootPuts str
  | .printnum n => b.bootPrintnum n
  | .printhex n => b.bootPrinthex n

def runCalls (b : BootMode) (calls : List TtyCall) (s : BootConsole) : Option BootConsole :=
  calls.foldlM (fun s call => call.run b s) s

/-! ### boot_tty_init -/

/-- The first half of boot_tty_init: the outcome of boot_get_frame_buffer is the size of the
frame buffer, that of boot_init_com whether a port works. None is the return of -1. -/
def bootTtyInitMode (fb : Option (BitVec 32 × BitVec 32)) (com : Bool) (font : Psf2Font) :
    Option BootMode :=
  let b : BootMode := match fb with
    | none =>
      ⟨{ BootPointers.start with
          cursorBack := .noFb, backSpace := .noFb, putcharTab := .noFb, putNewLine := .noFb,
          putchar := .noFb },
        { BootTty.zero with maxChNrX := defaultTtyWidth, maxChNrY := defaultTtyHeight }⟩
    | some (width, height) => ⟨.start, bootInitFont width height font⟩
  if com then some b
  else if b.pointers.putchar = .noFb then none
  else some { b with
    pointers := { b.pointers with
      cursorBack := .noCom, backSpace := .noCom, putcharTab := .noCom, putNewLine := .noCom,
      putchar := .noCom } }

/-- The calls with which boot_tty_init ends. The lines that name the system are a parameter. -/
def bootTtyInitCalls (b : BootMode) (banner : List (List (BitVec 8))) : List TtyCall :=
  .clearScreen ::
    (if ¬ b.bootTtyHasFb then [.puts (cString "Warning: running under no-graphic mode.\n")]
    else if ¬ b.bootTtyHasCom then [.puts (cString "Warning: No serial port for us to output.\n")]
    else []) ++ banner.map .puts

/-- The console with the cursor that boot_init_font sets. -/
def atHome (s : BootConsole) : BootConsole :=
  { s with fb := { s.fb with cursorX := 0#32, cursorY := 0#32 } }

/-- boot_tty_init and the calls made after it; after a return of -1 the console is left. -/
def bootTtyRun (fb : Option (BitVec 32 × BitVec 32)) (com : Bool) (font : Psf2Font)
    (banner : List (List (BitVec 8))) (calls : List TtyCall) (s : BootConsole) :
    Option BootConsole :=
  match bootTtyInitMode fb com font with
  | none => some s
  | some b => runCalls b (bootTtyInitCalls b banner ++ calls) (if fb.isSome then atHome s else s)

/-! ### Runs on one device -/

/-- The run reads and writes the frame buffer and its cursor only: it never waits for the
serial port and leaves it as it is. -/
def FbOnly (run : BootConsole → Option BootConsole) : Prop := ∃ f, ∀ s, run s = s.onFb f

/-- The run reads and writes the serial port only. -/
def ComOnly (run : BootConsole → Option BootConsole) : Prop := ∃ g, ∀ s, run s = s.onCom g

/-- A property of runs that holds of doing nothing and of one run after another. -/
structure SequenceClosed (P : (BootConsole → Option BootConsole) → Prop) : Prop where
  pure : P some
  bind : ∀ {run run'}, P run → P run' → P fun s => (run s).bind run'

theorem fbOnly_closed : SequenceClosed FbOnly where
  pure := ⟨id, fun _ => rfl⟩
  bind := by
    rintro run run' ⟨f, hf⟩ ⟨f', hf'⟩
    refine ⟨f' ∘ f, fun s => ?_⟩
    change (run s).bind run' = _
    rw [hf, onFb, Option.bind_some, hf']
    rfl

theorem comOnly_closed : SequenceClosed ComOnly where
  pure := ⟨some, fun _ => rfl⟩
  bind := by
    rintro run run' ⟨g, hg⟩ ⟨g', hg'⟩
    refine ⟨fun c => (g c).bind g', fun s => ?_⟩
    change (run s).bind run' = _
    rw [hg, onCom, onCom]
    cases g s.com with
    | none => rfl
    | some c => exact hg' _

section Calls

variable {P : (BootConsole → Option BootConsole) → Prop} {b : BootMode}

theorem SequenceClosed.foldlM {α : Type} {step : BootConsole → α → Option BootConsole}
    (hP : SequenceClosed P) (l : List α) (h : ∀ a ∈ l, P fun s => step s a) :
    P fun s => l.foldlM step s := by
  induction l with
  | nil => exact hP.pure
  | cons a l ih =>
    exact hP.bind (h a List.mem_cons_self) (ih fun a' ha' => h a' (List.mem_cons_of_mem _ ha'))

/-- Every function that prints text is a sequence of boot_putchar calls. -/
theorem SequenceClosed.call (hP : SequenceClosed P)
    (hputchar : ∀ ch, P fun s => bootPutchar b.handlers s ch) (call : TtyCall)
    (hclear : call = .clearScreen → P b.bootClearScreen) : P (call.run b) := by
  have hprintstr : ∀ str, P (b.bootPrintstr str) := fun str => hP.foldlM _ fun ch _ => hputchar ch
  cases call with
  | putchar ch => exact hputchar ch
  | clearScreen => exact hclear rfl
  | printstr str => exact hprintstr str
  | puts str => exact hP.bind (hprintstr str) (hputchar 0x0A#16)
  | printnum n =>
    by_cases hneg : n.slt 0#64
    · have hrun : TtyCall.run b (.printnum n) = fun s => (bootPutchar b.handlers s 0x2D#16).bind
          (b.bootPrintstr (printnumDigits 29 (-n) [])) := by
        funext s
        exact if_pos hneg
      rw [hrun]
      exact hP.bind (hputchar 0x2D#16) (hprintstr _)
    · have hrun : TtyCall.run b (.printnum n) = b.bootPrintstr (printnumDigits 29 n []) := by
        funext s
        exact if_neg hneg
      rw [hrun]
      exact hprintstr _
  | printhex n => exact hprintstr _

theorem SequenceClosed.runCalls (hP : SequenceClosed P)
    (hputchar : ∀ ch, P fun s => bootPutchar b.handlers s ch) (calls : List TtyCall)
    (hclear : .clearScreen ∈ calls → P b.bootClearScreen) : P (runCalls b calls) :=
  hP.foldlM calls fun call hcall => hP.call hputchar call fun h => hclear (h ▸ hcall)

end Calls

/-! ### Absent devices -/

/-- A device that is missing is not touched. -/
def AbsentUntouched (fb : Option (BitVec 32 × BitVec 32)) (com : Bool)
    (run : BootConsole → Option BootConsole) : Prop :=
  (com = false → FbOnly run) ∧ (fb = none → ComOnly run)

section Absent

variable {font : Psf2Font} {calls : List TtyCall} {size : BitVec 32 × BitVec 32}

/-- Without a frame buffer the screen that is cleared has no lines. -/
theorem comOnly_bootTtyRun (font : Psf2Font) (banner : List (List (BitVec 8)))
    (calls : List TtyCall) : ComOnly (bootTtyRun none true font banner calls) := by
  refine comOnly_closed.runCalls (fun ch => ?_) _ fun _ =>
    ⟨bootClearScreenInternalCom, fun s => rfl⟩
  exact ⟨bootPutcharCom ch, fun s => bootPutchar_noFb s ch⟩

/-- Without a serial port only the function that clears the screen still uses it. -/
theorem fbOnly_runCalls {b : BootMode} (hmode : bootTtyInitMode (some size) false font = some b)
    (hcalls : .clearScreen ∉ calls) : FbOnly (runCalls b calls) := by
  obtain rfl := Option.some.inj hmode
  refine fbOnly_closed.runCalls (fun ch => ?_) calls fun h => absurd h hcalls
  exact ⟨_, fun s => bootPutchar_noCom (bootInitFont size.1 size.2 font) s ch⟩

/-- Without a serial port boot_tty_init waits for it when it clears the screen. -/
theorem bootTtyRun_waits (size : BitVec 32 × BitVec 32) (font : Psf2Font)
    (banner : List (List (BitVec 8))) (calls : List TtyCall) (fb : BootFb)
    (sent : List (BitVec 8)) :
    bootTtyRun (some size) false font banner calls ⟨fb, ⟨[], sent⟩⟩ = none := rfl

end Absent

/-- In every mode that boot_tty_init chooses, it and all later calls leave a missing device
alone exactly when the serial port is there. Where it is missing, the later calls leave it
alone up to the next call that clears the screen. -/
theorem absentUntouched_iff {fb : Option (BitVec 32 × BitVec 32)} {com : Bool} {font : Psf2Font}
    (hmode : (bootTtyInitMode fb com font).isSome) (banner : List (List (BitVec 8)))
    (calls : List TtyCall) :
    (AbsentUntouched fb com (bootTtyRun fb com font banner calls) ↔ com = true) ∧
    (com = false → .clearScreen ∉ calls → ∀ b, bootTtyInitMode fb com font = some b →
      FbOnly (runCalls b calls)) := by
  refine ⟨?_, ?_⟩
  · constructor
    · rintro ⟨hcom, _⟩
      by_contra hne
      have habsent := eq_false_of_ne_true hne
      subst habsent
      cases fb with
      | none => exact absurd hmode Bool.false_ne_true
      | some size =>
        obtain ⟨f, hf⟩ := hcom rfl
        have hwait := bootTtyRun_waits size font banner calls ⟨0#32, 0#32, ⟨fun _ => 0#32, []⟩⟩ []
        rw [hf] at hwait
        exact absurd hwait (Option.some_ne_none _)
    · rintro rfl
      refine ⟨fun h => absurd h (by decide), ?_⟩
      rintro rfl
      exact comOnly_bootTtyRun font banner calls
  · rintro rfl hclear b hb
    cases fb with
    | none => exact absurd hmode Bool.false_ne_true
    | some size => exact fbOnly_runCalls hb hclear

/-- Without a frame buffer nothing is stored in its memory. -/
theorem absentUntouched_iff_serial :
    ComOnly (bootTtyRun none true ⟨32#32, 1#32, 1#32, 1#32, 8#32, fun _ => 0#8⟩ []
      [.clearScreen, .printnum 42#64]) :=
  ((absentUntouched_iff rfl [] [.clearScreen, .printnum 42#64]).1.mpr rfl).2 rfl

/-- With a frame buffer of 1024 × 768 and no serial port, boot_tty_init never returns when the
line status register of the port keeps reading 0. -/
theorem not_absentUntouched :
    let font : Psf2Font := ⟨32#32, 1#32, 1#32, 16#32, 8#32, fun _ => 0#8⟩
    (bootTtyInitMode (some (1024#32, 768#32)) false font).isSome ∧
      ¬ AbsentUntouched (some (1024#32, 768#32)) false
        (bootTtyRun (some (1024#32, 768#32)) false font [] []) := by
  intro font
  refine ⟨rfl, fun h => ?_⟩
  obtain ⟨f, hf⟩ := h.1 rfl
  have hwait := bootTtyRun_waits (1024#32, 768#32) font [] [] ⟨0#32, 0#32, ⟨fun _ => 0#32, []⟩⟩ []
  rw [hf] at hwait
  exact absurd hwait (Option.some_ne_none _)

end ClosureOS
