import ClosureOS.BootTty

/-!
Output to the frame buffer and the serial port at once, compared with output to each of
them alone. The handlers for both outputs call the two single ones one after the other,
except for the carriage return, which goes to the serial port only and leaves the cursor
of the frame buffer where it is. So the serial bytes always agree, and the screen agrees
as long as each carriage return finds the cursor in the first column.
-/
namespace ClosureOS

open BootConsole SerialPort

/-- The same pixels and the same cursor. -/
structure SameScreen (a b : BootFb) : Prop where
  cursorX : a.cursorX = b.cursorX
  cursorY : a.cursorY = b.cursorY
  cells : a.fb.cells = b.fb.cells

/-- Three runs on the same characters, from s with both outputs, from a with the frame
buffer alone and from c with the serial port alone. If the first ends, the others end too,
one with the same screen and one with the same bytes sent. -/
def SideBySide (t : BootTty) (s a c : BootConsole) (chs : List (BitVec 16)) : Prop :=
  ∀ both, bootPutAll t.handlersDefault s chs = some both →
    (∃ fbOnly, bootPutAll t.handlersNoCom a chs = some fbOnly ∧ SameScreen both.fb fbOnly.fb) ∧
    ∃ comOnly, bootPutAll BootTty.handlersNoFb c chs = some comOnly ∧
      both.com.sent = comOnly.com.sent

/-- Every carriage return that is sent comes when the cursor is in the first column. -/
def ReturnsAtStart (t : BootTty) : BootConsole → List (BitVec 16) → Prop
  | _, [] => True
  | s, ch :: chs => ∀ s', bootPutchar t.handlersDefault s ch = some s' →
    (ch = 0x0D#16 → s.fb.cursorX = 0#32) ∧ ReturnsAtStart t s' chs

section Runs

variable {t : BootTty} {s s' a c : BootConsole} {ch : BitVec 16} {chs : List (BitVec 16)}

theorem onCom_eq_some {f : SerialPort → Option SerialPort} (h : s.onCom f = some s') :
    f s.com = some s'.com ∧ s'.fb = s.fb := by
  obtain ⟨com, hcom, rfl⟩ := Option.map_eq_some_iff.mp h
  exact ⟨hcom, rfl⟩

theorem onCom_of_com {f : SerialPort → Option SerialPort} {com : SerialPort}
    (h : f s.com = some com) :
    s.onCom f = some { s with com } := by
  rw [onCom, h]
  rfl

/-- The step of the serial port, and the step of the frame buffer if there is one. -/
structure DualStep (fbStep : BootFb → BootFb) (comStep : SerialPort → Option SerialPort)
    (s s' : BootConsole) : Prop where
  com : comStep s.com = some s'.com
  fb : s'.fb = fbStep s.fb

theorem dualStep_of_bind {f : BootFb → BootFb} {g : SerialPort → Option SerialPort}
    (h : (s.onFb f).bind (onCom g) = some s') : DualStep f g s s' :=
  ⟨(onCom_eq_some h).1, (onCom_eq_some h).2⟩

/-- The frame buffer handler of a character in frame-buffer-only mode. -/
def BootTty.fbStep (t : BootTty) (ch : BitVec 16) : BootFb → BootFb :=
  if ch = 0x0D#16 then BootTty.bootCursorBackFb
  else if ch = 0x08#16 then BootTty.bootBackSpaceFb
  else if ch = 0x09#16 then t.bootPutcharTabFb
  else if ch = 0x0A#16 then t.bootPutcharFbNewLine 0#32
  else t.bootPutcharFb ch textFg textBg

theorem bootPutchar_noCom (t : BootTty) (s : BootConsole) (ch : BitVec 16) :
    bootPutchar t.handlersNoCom s ch = s.onFb (t.fbStep ch) := by
  rw [bootPutchar, BootTty.fbStep]
  repeat' split
  all_goals rfl

/-- In serial-only mode each character is sent as it is. -/
theorem bootPutchar_noFb (s : BootConsole) (ch : BitVec 16) :
    bootPutchar BootTty.handlersNoFb s ch = s.onCom (bootPutcharCom ch) := by
  unfold bootPutchar
  split
  · next h => rw [h]; rfl
  · split
    · next h => rw [h]; rfl
    · split
      · next h => rw [h]; rfl
      · split
        · next h => rw [h]; rfl
        · rfl

/-- With both outputs, the frame buffer gets every character but the carriage return. -/
theorem bootPutchar_default (h : bootPutchar t.handlersDefault s ch = some s') :
    DualStep (if ch = 0x0D#16 then id else t.fbStep ch) (bootPutcharCom ch) s s' := by
  unfold bootPutchar at h
  unfold BootTty.fbStep
  by_cases hcr : ch = 0x0D#16
  · rw [if_pos hcr] at h ⊢
    subst hcr
    exact ⟨(onCom_eq_some h).1, (onCom_eq_some h).2⟩
  · rw [if_neg hcr] at h ⊢
    rw [if_neg hcr]
    by_cases hbs : ch = 0x08#16
    · rw [if_pos hbs] at h ⊢
      subst hbs
      exact dualStep_of_bind h
    · rw [if_neg hbs] at h ⊢
      by_cases htab : ch = 0x09#16
      · rw [if_pos htab] at h ⊢
        subst htab
        exact dualStep_of_bind h
      · rw [if_neg htab] at h ⊢
        by_cases hlf : ch = 0x0A#16
        · rw [if_pos hlf] at h ⊢
          subst hlf
          exact dualStep_of_bind h
        · rw [if_neg hlf] at h ⊢
          exact dualStep_of_bind h

/-- A carriage return in the first column does nothing on the frame buffer. -/
theorem fbStep_of_returnsAtStart (h : ch = 0x0D#16 → s.fb.cursorX = 0#32) :
    (if ch = 0x0D#16 then id else t.fbStep ch) s.fb = t.fbStep ch s.fb := by
  by_cases hcr : ch = 0x0D#16
  · have hcol := h hcr
    rw [if_pos hcr, hcr]
    change s.fb = { s.fb with cursorX := 0#32 }
    rw [← hcol]
  · rw [if_neg hcr]

theorem bootPutAll_cons (hd : BootHandlers) (s : BootConsole) (ch : BitVec 16)
    (chs : List (BitVec 16)) :
    bootPutAll hd s (ch :: chs) = (bootPutchar hd s ch).bind fun s => bootPutAll hd s chs :=
  List.foldlM_cons

/-- After one character the comparison goes on from the states reached. -/
theorem sideBySide_cons {a' c' : BootConsole} (hs : bootPutchar t.handlersDefault s ch = some s')
    (ha : bootPutchar t.handlersNoCom a ch = some a')
    (hc : bootPutchar BootTty.handlersNoFb c ch = some c') (pre : List (BitVec 16)) :
    SideBySide t s a c (ch :: pre) ↔ SideBySide t s' a' c' pre := by
  simp only [SideBySide, bootPutAll_cons, hs, ha, hc, Option.bind_some]

theorem sideBySide_nil (hfb : a.fb = s.fb) (hcom : c.com = s.com) : SideBySide t s a c [] := by
  intro both hboth
  obtain rfl := Option.some.inj hboth
  exact ⟨⟨a, rfl, by rw [hfb], by rw [hfb], by rw [hfb]⟩, c, rfl, by rw [hcom]⟩

/-- A character that the dual output does not survive leaves nothing to compare. -/
theorem sideBySide_of_fails (hfb : a.fb = s.fb) (hcom : c.com = s.com)
    (hstep : bootPutchar t.handlersDefault s ch = none) {pre : List (BitVec 16)}
    (hpre : pre <+: ch :: chs) : SideBySide t s a c pre := by
  cases pre with
  | nil => exact sideBySide_nil hfb hcom
  | cons d pre =>
    obtain ⟨rfl, _⟩ := List.cons_prefix_cons.mp hpre
    intro both hboth
    simp [bootPutAll_cons, hstep] at hboth

/-- Where the screens agree after a character, it was no displaced carriage return. -/
theorem SideBySide.column (hsame : SideBySide t s' a c [])
    (hstep : bootPutchar t.handlersDefault s ch = some s') (hfb : a.fb = t.fbStep ch s.fb) :
    ch = 0x0D#16 → s.fb.cursorX = 0#32 := by
  intro hcr
  obtain ⟨⟨fbOnly, hfbOnly, hscreen⟩, _⟩ := hsame s' rfl
  obtain rfl := Option.some.inj hfbOnly
  have hcursor := hscreen.cursorX
  rw [(bootPutchar_default hstep).fb, hfb, if_pos hcr, hcr] at hcursor
  exact hcursor

/-- From states that agree, the runs agree after each character if and only if the
carriage returns come in the first column. -/
theorem sideBySide_iff (hfb : a.fb = s.fb) (hcom : c.com = s.com) (chs : List (BitVec 16)) :
    (∀ pre, pre <+: chs → SideBySide t s a c pre) ↔ ReturnsAtStart t s chs := by
  induction chs generalizing s a c with
  | nil =>
    refine iff_of_true (fun pre hpre => ?_) trivial
    obtain rfl := List.prefix_nil.mp hpre
    exact sideBySide_nil hfb hcom
  | cons ch chs ih =>
    have hnoCom : bootPutchar t.handlersNoCom a ch = some { a with fb := t.fbStep ch s.fb } := by
      rw [bootPutchar_noCom, onFb, hfb]
    cases hstep : bootPutchar t.handlersDefault s ch with
    | none =>
      refine iff_of_true (fun pre hpre => sideBySide_of_fails hfb hcom hstep hpre) ?_
      exact fun s' hs' => absurd (hstep.symm.trans hs') (Option.some_ne_none s').symm
    | some s' =>
      have hd := bootPutchar_default hstep
      have hnoFb : bootPutchar BootTty.handlersNoFb c ch = some { c with com := s'.com } := by
        rw [bootPutchar_noFb]
        exact onCom_of_com (hcom ▸ hd.com)
      have hcons := sideBySide_cons hstep hnoCom hnoFb
      -- the screens agree after this character when it is no displaced carriage return
      have hnext : (ch = 0x0D#16 → s.fb.cursorX = 0#32) →
          ((∀ pre, pre <+: chs → SideBySide t s' { a with fb := t.fbStep ch s.fb }
            { c with com := s'.com } pre) ↔ ReturnsAtStart t s' chs) := fun hcol =>
        ih (by rw [hd.fb, fbStep_of_returnsAtStart hcol]) rfl
      constructor
      · intro hall s'' hs''
        obtain rfl : s' = s'' := Option.some.inj (hstep.symm.trans hs'')
        have hsame := (hcons []).mp (hall [ch] (List.prefix_iff_eq_take.mpr rfl))
        have hcol := hsame.column hstep rfl
        refine ⟨hcol, (hnext hcol).mp fun pre hpre => ?_⟩
        exact (hcons pre).mp (hall (ch :: pre) (List.cons_prefix_cons.mpr ⟨rfl, hpre⟩))
      · intro hall pre hpre
        obtain ⟨hcol, hrest⟩ := hall s' hstep
        cases pre with
        | nil => exact sideBySide_nil hfb hcom
        | cons d pre =>
          obtain ⟨rfl, htail⟩ := List.cons_prefix_cons.mp hpre
          exact (hcons pre).mpr ((hnext hcol).mpr hrest pre htail)

end Runs

theorem dual_output_sent {t : BootTty} {chs : List (BitVec 16)} :
    ∀ {s c both : BootConsole}, c.com = s.com →
      bootPutAll t.handlersDefault s chs = some both →
      ∃ comOnly, bootPutAll BootTty.handlersNoFb c chs = some comOnly ∧ both.com = comOnly.com := by
  induction chs with
  | nil =>
    intro s c both hcom hboth
    obtain rfl := Option.some.inj hboth
    exact ⟨c, rfl, hcom.symm⟩
  | cons ch chs ih =>
    intro s c both hcom hboth
    rw [bootPutAll_cons] at hboth
    obtain ⟨s', hstep, hrest⟩ := Option.bind_eq_some_iff.mp hboth
    have hnoFb : bootPutchar BootTty.handlersNoFb c ch = some { c with com := s'.com } := by
      rw [bootPutchar_noFb]
      exact onCom_of_com (hcom ▸ (bootPutchar_default hstep).com)
    rw [bootPutAll_cons, hnoFb, Option.bind_some]
    exact ih (s := s') rfl hrest

/-- Dual output agrees with the two single outputs after each character of a sequence if
and only if every carriage return comes when the cursor is in the first column. The bytes
sent agree in every case. -/
theorem dual_output_sideBySide (t : BootTty) (s : BootConsole) (chs : List (BitVec 16)) :
    ((∀ pre, pre <+: chs → SideBySide t s s s pre) ↔ ReturnsAtStart t s chs) ∧
    ∀ both, bootPutAll t.handlersDefault s chs = some both →
      ∃ comOnly, bootPutAll BootTty.handlersNoFb s chs = some comOnly ∧ both.com = comOnly.com :=
  ⟨sideBySide_iff rfl rfl chs, fun _ hboth => dual_output_sent rfl hboth⟩

/-- A character and a carriage return: with both outputs the cursor stays in column 1. -/
theorem dual_output_carriage_return :
    ¬ ∀ (t : BootTty) (s : BootConsole) (chs : List (BitVec 16)), SideBySide t s s s chs := by
  intro hall
  have hpre : ∀ pre, pre <+: [0x41#16, 0x0D#16] → SideBySide
      (bootInitFont 16#32 2#32 ⟨32#32, 2#32, 1#32, 1#32, 8#32, fun i => BitVec.ofNat 8 i⟩)
      ⟨⟨0#32, 0#32, fun _ => 0#32, []⟩, [0x20#8, 0x20#8], []⟩
      ⟨⟨0#32, 0#32, fun _ => 0#32, []⟩, [0x20#8, 0x20#8], []⟩
      ⟨⟨0#32, 0#32, fun _ => 0#32, []⟩, [0x20#8, 0x20#8], []⟩ pre := fun pre _ => hall _ _ pre
  have hcol := (sideBySide_iff rfl rfl _).mp hpre
  have hcursor := ((hcol _ rfl).2 _ rfl).1 rfl
  revert hcursor
  decide

end ClosureOS
