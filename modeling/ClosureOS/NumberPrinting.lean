import ClosureOS.BootTtyInit
import ClosureOS.Numerals

/-!
boot_printnum and boot_printhex with their buffer. Both fill n_str from its end with the
remainders of repeated division and print it from the last character written. What reaches
boot_putchar is the numeral of the argument, with a minus sign where it is negative; only the
least number, whose negation is itself, is printed as something else.
-/
namespace ClosureOS

open Numerals

/-! ### The buffer -/

/-- n_str and idx. The elements below idx hold what was on the stack. -/
structure NumBuf where
  nStr : ℕ → BitVec 8
  idx : ℕ

/-- n_str[--idx] = c, none below the first element. -/
def NumBuf.put (c : BitVec 8) (s : NumBuf) : Option NumBuf :=
  if s.idx = 0 then none else some ⟨Function.update s.nStr (s.idx - 1) c, s.idx - 1⟩

/-- The characters that boot_printstr(n_str + i) passes to boot_putchar, for as many rounds as
there are elements left; a string without a terminator is none. -/
def printstrChars (nStr : ℕ → BitVec 8) : ℕ → ℕ → Option (List (BitVec 16))
  | 0, _ => none
  | rounds + 1, i =>
    if nStr i = 0#8 then some []
    else (printstrChars nStr rounds (i + 1)).map ((nStr i).signExtend 16 :: ·)

/-- The loop that both functions run: a character for n, then the next n, while it is not
zero. -/
def digitLoop (digit : BitVec 64 → BitVec 8) (quot : BitVec 64 → BitVec 64) :
    ℕ → BitVec 64 → NumBuf → Option NumBuf
  | 0, _, _ => none
  | rounds + 1, n, s =>
    (s.put (digit n)).bind fun s =>
      let n := quot n
      if n ≠ 0#64 then digitLoop digit quot rounds n s else some s

/-- The digit of boot_printnum. -/
def printnumDigit (n : BitVec 64) : BitVec 8 := (n.srem 10#64 + 0x30#64).setWidth 8

/-- The digit of boot_printhex. -/
def printhexDigit (n : BitVec 64) : BitVec 8 :=
  let curr := n % 16#64
  (if curr ≥ 10#64 then curr - 10#64 + 0x61#64 else curr + 0x30#64).setWidth 8

def printnumLoop : ℕ → BitVec 64 → NumBuf → Option NumBuf :=
  digitLoop printnumDigit fun n => n.sdiv 10#64

def printhexLoop : ℕ → BitVec 64 → NumBuf → Option NumBuf :=
  digitLoop printhexDigit fun n => n / 16#64

/-- What boot_printnum passes to boot_putchar. -/
def bootPrintnumChars (nStr : ℕ → BitVec 8) (n : BitVec 64) : Option (List (BitVec 16)) :=
  (NumBuf.put 0#8 ⟨nStr, 30⟩).bind fun s =>
    let sign := if n.slt 0#64 then [0x2D#16] else []
    let n := if n.slt 0#64 then -n else n
    (printnumLoop 30 n s).bind fun s =>
      (printstrChars s.nStr (30 - s.idx) s.idx).map (sign ++ ·)

/-- What boot_printhex passes to boot_putchar. -/
def bootPrinthexChars (nStr : ℕ → BitVec 8) (n : BitVec 64) : Option (List (BitVec 16)) :=
  (NumBuf.put 0#8 ⟨nStr, 30⟩).bind fun s =>
    (printhexLoop 30 n s).bind fun s => printstrChars s.nStr (30 - s.idx) s.idx

/-! ### Text in the buffer -/

/-- The text lies in the buffer from element i up to the terminator in element 29. -/
def TextAt (nStr : ℕ → BitVec 8) : ℕ → List (BitVec 8) → Prop
  | i, [] => i = 29 ∧ nStr i = 0#8
  | i, c :: text => nStr i = c ∧ TextAt nStr (i + 1) text

section Text

variable {nStr : ℕ → BitVec 8} {text : List (BitVec 8)} {i j : ℕ} {c : BitVec 8}

theorem TextAt.length (h : TextAt nStr i text) : i + text.length = 29 := by
  induction text generalizing i with
  | nil => exact h.1
  | cons c text ih =>
    have hrest := ih h.2
    rw [List.length_cons]
    omega

theorem TextAt.update (h : TextAt nStr i text) (hj : j < i) :
    TextAt (Function.update nStr j c) i text := by
  induction text generalizing i with
  | nil =>
    refine ⟨h.1, ?_⟩
    rw [Function.update_of_ne (by omega)]
    exact h.2
  | cons c text ih =>
    refine ⟨?_, ih h.2 (by omega)⟩
    rw [Function.update_of_ne (by omega)]
    exact h.1

/-- The string is printed up to its terminator. -/
theorem TextAt.printstrChars (h : TextAt nStr i text) (hzero : 0#8 ∉ text) {rounds : ℕ}
    (hrounds : text.length < rounds) :
    printstrChars nStr rounds i = some (text.map fun c => c.signExtend 16) := by
  induction text generalizing i rounds with
  | nil =>
    obtain ⟨rounds, rfl⟩ := Nat.exists_eq_succ_of_ne_zero (by omega : rounds ≠ 0)
    rw [ClosureOS.printstrChars, if_pos h.2, List.map_nil]
  | cons c text ih =>
    obtain ⟨rounds, rfl⟩ := Nat.exists_eq_succ_of_ne_zero (by omega : rounds ≠ 0)
    simp only [List.mem_cons, not_or] at hzero
    rw [List.length_cons] at hrounds
    have hc : nStr i ≠ 0#8 := fun he => hzero.1 (he.symm.trans h.1)
    rw [ClosureOS.printstrChars, if_neg hc, ih h.2 hzero.2 (by omega), h.1]
    rfl

theorem TextAt.put {s : NumBuf} (h : TextAt s.nStr s.idx text) (hidx : s.idx ≠ 0) :
    s.put c = some ⟨Function.update s.nStr (s.idx - 1) c, s.idx - 1⟩ ∧
      TextAt (Function.update s.nStr (s.idx - 1) c) (s.idx - 1) (c :: text) := by
  refine ⟨if_neg hidx, Function.update_self .., ?_⟩
  rw [Nat.sub_add_cancel (by omega)]
  exact h.update (by omega)

/-- The terminator is the first character that both functions write. -/
theorem textAt_start (nStr : ℕ → BitVec 8) :
    ∃ s, NumBuf.put 0#8 ⟨nStr, 30⟩ = some s ∧ s.idx = 29 ∧ TextAt s.nStr s.idx [] :=
  ⟨_, rfl, rfl, rfl, @Function.update_self ℕ (fun _ => BitVec 8) _ 29 0#8 nStr⟩

end Text

/-! ### The loop writes a numeral -/

/-- One round takes off the last digit of n in base b, for the n below a bound. -/
def TakesDigits (b bound : ℕ) (char : ℕ → BitVec 8) (digit : BitVec 64 → BitVec 8)
    (quot : BitVec 64 → BitVec 64) : Prop :=
  ∀ n : BitVec 64, n.toNat < bound →
    digit n = char (n.toNat % b) ∧ (quot n).toNat = n.toNat / b

section Loop

variable {b bound : ℕ} {char : ℕ → BitVec 8} {digit : BitVec 64 → BitVec 8}
  {quot : BitVec 64 → BitVec 64}

/-- As long as the numeral fits below idx, the loop ends with it in front of the text. -/
theorem TakesDigits.digitLoop (hstep : TakesDigits b bound char digit quot) (hb : 1 < b)
    {rounds : ℕ} {n : BitVec 64} {s : NumBuf} {text : List (BitVec 8)} (hn : n.toNat < bound)
    (hfit : (numeral b n.toNat).length ≤ s.idx) (hrounds : s.idx ≤ rounds)
    (htext : TextAt s.nStr s.idx text) :
    ∃ s', digitLoop digit quot rounds n s = some s' ∧
      TextAt s'.nStr s'.idx ((numeral b n.toNat).map char ++ text) := by
  induction rounds generalizing n s text with
  | zero =>
    have hne := (canonical_numeral hb n.toNat).nonempty
    have hpos : 0 < (numeral b n.toNat).length := List.length_pos_iff.mpr hne
    omega
  | succ rounds ih =>
    obtain ⟨hdigit, hquot⟩ := hstep n hn
    have hlen : 0 < (numeral b n.toNat).length :=
      List.length_pos_iff.mpr (canonical_numeral hb n.toNat).nonempty
    obtain ⟨hput, hput'⟩ := htext.put (c := digit n) (by omega)
    rw [ClosureOS.digitLoop, hput, Option.bind_some]
    by_cases hlast : n.toNat < b
    · -- The quotient is zero, so this was the first digit of the numeral.
      have hzero : quot n = 0#64 := BitVec.eq_of_toNat_eq (by
        rw [hquot, Nat.div_eq_of_lt hlast]
        rfl)
      refine ⟨_, if_neg fun h => h hzero, ?_⟩
      rw [numeral_of_lt hlast, ← Nat.mod_eq_of_lt hlast, List.map_singleton, ← hdigit]
      exact hput'
    · have hsplit := numeral_of_le hb (by omega : b ≤ n.toNat)
      have hmore : quot n ≠ 0#64 := by
        intro hzero
        have hpos := Nat.div_pos (by omega : b ≤ n.toNat) (by omega)
        rw [← hquot, hzero] at hpos
        exact absurd hpos (by decide)
      rw [hsplit, List.length_append, List.length_singleton] at hfit
      have hle : n.toNat / b ≤ n.toNat := Nat.div_le_self _ _
      obtain ⟨s', hs', htext'⟩ := @ih (quot n)
        ⟨Function.update s.nStr (s.idx - 1) (digit n), s.idx - 1⟩ (digit n :: text)
        (by omega) (by rw [hquot]; exact Nat.le_sub_one_of_lt (by omega))
        (Nat.sub_le_of_le_add hrounds) hput'
      refine ⟨s', (if_pos hmore).trans hs', ?_⟩
      rw [hsplit, List.map_append, List.append_assoc, List.map_singleton, ← hdigit, ← hquot]
      exact htext'

/-- A whole run: the buffer is large enough for every numeral that fits in it. -/
theorem TakesDigits.chars (hstep : TakesDigits b bound char digit quot) (hb : 1 < b)
    (hchar : ∀ d < b, char d ≠ 0#8) {n : BitVec 64} {s : NumBuf} (hn : n.toNat < bound)
    (hfit : (numeral b n.toNat).length ≤ 29) (hs : s.idx = 29) (htext : TextAt s.nStr s.idx []) :
    ∃ s', ClosureOS.digitLoop digit quot 30 n s = some s' ∧
      printstrChars s'.nStr (30 - s'.idx) s'.idx =
        some ((numeral b n.toNat).map fun d => (char d).signExtend 16) := by
  obtain ⟨s', hloop, htext'⟩ :=
    @TakesDigits.digitLoop _ _ _ _ _ hstep hb 30 _ _ _ hn (by omega) (by omega) htext
  rw [List.append_nil] at htext'
  refine ⟨s', hloop, ?_⟩
  have hlen := htext'.length
  rw [htext'.printstrChars ?_ (by omega), List.map_map]
  · rfl
  · intro hzero
    obtain ⟨d, hd, hd0⟩ := List.mem_map.mp hzero
    exact hchar d ((canonical_numeral hb n.toNat).digit d hd) hd0

end Loop

/-! ### Decimal -/

def decimalChar (d : ℕ) : BitVec 16 := BitVec.ofNat 16 (0x30 + d)

/-- The digits 0 to 9. -/
def decimalValue (c : BitVec 16) : Option ℕ :=
  if 0x30 ≤ c.toNat ∧ c.toNat ≤ 0x39 then some (c.toNat - 0x30) else none

/-- An optional minus sign and a decimal numeral. -/
def readDecimal : List (BitVec 16) → Option ℤ
  | [] => none
  | c :: text =>
    if c = 0x2D#16 then (readNumeral decimalValue 10 text).map fun v : ℕ => -(v : ℤ)
    else (readNumeral decimalValue 10 (c :: text)).map fun v : ℕ => (v : ℤ)

/-- The characters are the canonical decimal numeral of n and read as n. -/
structure DecimalOf (chars : List (BitVec 16)) (n : ℤ) : Prop where
  canonical : ∃ ds, Canonical 10 ds n.natAbs ∧
    chars = (if n < 0 then [0x2D#16] else []) ++ ds.map decimalChar
  read : readDecimal chars = some n

section Decimal

theorem decimalValue_decimalChar {d : ℕ} (hd : d < 10) : decimalValue (decimalChar d) = some d := by
  interval_cases d <;> rfl

theorem decimalOf_of_canonical {ds : List ℕ} {n : ℤ} (h : Canonical 10 ds n.natAbs) :
    DecimalOf ((if n < 0 then [0x2D#16] else []) ++ ds.map decimalChar) n := by
  refine ⟨⟨ds, h, rfl⟩, ?_⟩
  have hread : readNumeral decimalValue 10 (ds.map decimalChar) = some n.natAbs :=
    h.readNumeral fun d hd => decimalValue_decimalChar hd
  by_cases hn : n < 0
  · have habs : -(n.natAbs : ℤ) = n := by omega
    simp only [if_pos hn, List.singleton_append, readDecimal, if_true, hread, Option.map_some,
      habs]
  · have habs : (n.natAbs : ℤ) = n := by omega
    cases hds : ds with
    | nil => exact absurd hds h.nonempty
    | cons d rest =>
      have hd : d < 10 := h.digit d (by simp [hds])
      have hminus : decimalChar d ≠ 0x2D#16 := by
        clear hread hds h
        interval_cases d <;> decide
      rw [hds] at hread
      rw [List.map_cons] at hread ⊢
      simp only [if_neg hn, List.nil_append, readDecimal, if_neg hminus, hread, Option.map_some,
        habs]

/-- For an argument that is not negative the remainder is a digit. -/
theorem takesDigits_printnum :
    TakesDigits 10 (2 ^ 63) (fun d => BitVec.ofNat 8 (0x30 + d)) printnumDigit
      fun n => n.sdiv 10#64 := by
  intro n hn
  have hmsb : n.msb = false := by
    rw [BitVec.msb_eq_false_iff_two_mul_lt]
    omega
  have hten : (10#64).msb = false := rfl
  constructor
  · have hrem : n.srem 10#64 = n % 10#64 := by
      simp only [BitVec.srem_eq, hmsb, hten]
    apply BitVec.eq_of_toNat_eq
    simp only [printnumDigit, hrem, BitVec.toNat_setWidth, BitVec.toNat_add, BitVec.toNat_umod,
      BitVec.toNat_ofNat, Nat.reducePow, Nat.reduceMod]
    omega
  · have hdiv : n.sdiv 10#64 = n / 10#64 := by
      simp only [BitVec.sdiv_eq, hmsb, hten, BitVec.udiv_eq]
    change (n.sdiv 10#64).toNat = n.toNat / 10
    rw [hdiv, BitVec.toNat_udiv]
    rfl

theorem decimalChar_eq {d : ℕ} (hd : d < 10) :
    (BitVec.ofNat 8 (0x30 + d)).signExtend 16 = decimalChar d := by
  interval_cases d <;> rfl

/-- An argument that is not negative, or was made so: its numeral is printed. -/
theorem printnumLoop_chars {n : BitVec 64} (hn : n.toNat < 2 ^ 63) {s : NumBuf}
    (hs : s.idx = 29) (htext : TextAt s.nStr s.idx []) :
    ∃ s', printnumLoop 30 n s = some s' ∧ printstrChars s'.nStr (30 - s'.idx) s'.idx =
      some ((numeral 10 n.toNat).map decimalChar) := by
  have hfit : (numeral 10 n.toNat).length ≤ 29 := by
    refine numeral_length_le (by omega) (by omega) (hn.trans ?_)
    norm_num
  have hnonzero : ∀ d < 10, BitVec.ofNat 8 (0x30 + d) ≠ 0#8 := by
    intro d hd
    interval_cases d <;> decide
  obtain ⟨s', hloop, hchars⟩ :=
    takesDigits_printnum.chars (by omega) hnonzero hn hfit hs htext
  refine ⟨s', hloop, hchars.trans (congrArg some (List.map_congr_left fun d hd => ?_))⟩
  exact decimalChar_eq ((canonical_numeral (by omega) n.toNat).digit d hd)

theorem toNat_negated (n : BitVec 64) :
    (if n.slt 0#64 then -n else n).toNat = n.toInt.natAbs := by
  rw [BitVec.slt_zero_eq_msb]
  cases hmsb : n.msb with
  | true =>
    rw [if_pos rfl, BitVec.toInt_eq_neg_toNat_neg_of_msb_true hmsb, Int.natAbs_neg,
      Int.natAbs_natCast]
  | false =>
    rw [if_neg (by simp), BitVec.toInt_eq_toNat_of_msb hmsb, Int.natAbs_natCast]

/-- Whatever the stack held before, boot_printnum prints the numeral of its argument. -/
def PrintsDecimal (n : BitVec 64) : Prop :=
  ∀ nStr, ∃ chars, bootPrintnumChars nStr n = some chars ∧ DecimalOf chars n.toInt

theorem printsDecimal_of_ne {n : BitVec 64} (hn : n ≠ BitVec.intMin 64) : PrintsDecimal n := by
  intro nStr
  obtain ⟨s, hput, hs, htext⟩ := textAt_start nStr
  have hlt : (if n.slt 0#64 then -n else n).toNat < 2 ^ 63 := by
    have hmin : n.toInt ≠ -2 ^ 63 := fun he => hn (BitVec.eq_of_toInt_eq he)
    have hlo := BitVec.le_toInt n
    have hhi := BitVec.toInt_lt (x := n)
    rw [toNat_negated]
    omega
  have hsign : (if n.slt 0#64 then [0x2D#16] else []) = if n.toInt < 0 then [0x2D#16] else [] := by
    have hzero : (0#64).toInt = 0 := rfl
    simp only [BitVec.slt, hzero, decide_eq_true_eq]
  obtain ⟨s', hloop, hchars⟩ := printnumLoop_chars hlt hs htext
  refine ⟨_, ?_, decimalOf_of_canonical (canonical_numeral (by omega) n.toInt.natAbs)⟩
  rw [bootPrintnumChars, hput, Option.bind_some]
  simp only [hloop, Option.bind_some, hchars, Option.map_some]
  rw [toNat_negated, hsign]

/-- The least number: the characters after its minus sign are no digits. -/
theorem bootPrintnumChars_intMin :
    (bootPrintnumChars (fun _ => 0#8) (BitVec.intMin 64)).bind readDecimal = none := by
  decide

theorem not_printsDecimal_intMin : ¬ PrintsDecimal (BitVec.intMin 64) := by
  intro hprints
  obtain ⟨chars, hrun, hdecimal⟩ := hprints fun _ => 0#8
  have hread := bootPrintnumChars_intMin
  rw [hrun, Option.bind_some, hdecimal.read] at hread
  exact absurd hread (by simp)

/-- The printed text is the decimal numeral of the argument exactly when the argument has a
negation. -/
theorem printsDecimal_iff (n : BitVec 64) : PrintsDecimal n ↔ n ≠ BitVec.intMin 64 := by
  refine ⟨?_, printsDecimal_of_ne⟩
  rintro hprints rfl
  exact not_printsDecimal_intMin hprints

theorem not_forall_printsDecimal : ¬ ∀ n, PrintsDecimal n := fun h =>
  not_printsDecimal_intMin (h _)

end Decimal

/-! ### Hexadecimal -/

def hexChar (d : ℕ) : BitVec 16 := BitVec.ofNat 16 (if d < 10 then 0x30 + d else 0x61 + d - 10)

/-- The digits 0 to 9 and a to f. -/
def hexValue (c : BitVec 16) : Option ℕ :=
  if 0x30 ≤ c.toNat ∧ c.toNat ≤ 0x39 then some (c.toNat - 0x30)
  else if 0x61 ≤ c.toNat ∧ c.toNat ≤ 0x66 then some (c.toNat - 0x61 + 10)
  else none

/-- The characters are the canonical lower-case numeral of n in base 16 and read as n. -/
structure HexOf (chars : List (BitVec 16)) (n : ℕ) : Prop where
  canonical : ∃ ds, Canonical 16 ds n ∧ chars = ds.map hexChar
  length : chars.length ≤ 16
  read : readNumeral hexValue 16 chars = some n

section Hex

theorem hexValue_hexChar {d : ℕ} (hd : d < 16) : hexValue (hexChar d) = some d := by
  interval_cases d <;> rfl

theorem hexOf_numeral {n : ℕ} (hn : n < 2 ^ 64) : HexOf ((numeral 16 n).map hexChar) n := by
  have hcanonical := canonical_numeral (by omega : 1 < 16) n
  refine ⟨⟨_, hcanonical, rfl⟩, ?_, ?_⟩
  · rw [List.length_map]
    refine numeral_length_le (by omega) (by omega) (hn.trans_eq ?_)
    norm_num
  · exact hcanonical.readNumeral fun d hd => hexValue_hexChar hd

def hexByte (d : ℕ) : BitVec 8 := BitVec.ofNat 8 (if d < 10 then 0x30 + d else 0x61 + d - 10)

theorem takesDigits_printhex :
    TakesDigits 16 (2 ^ 64) hexByte printhexDigit fun n => n / 16#64 := by
  intro n _
  refine ⟨?_, BitVec.toNat_udiv⟩
  have hlt : n.toNat % 16 < 16 := Nat.mod_lt _ (by omega)
  have hmod : n % 16#64 = BitVec.ofNat 64 (n.toNat % 16) := by
    apply BitVec.eq_of_toNat_eq
    simp only [BitVec.toNat_umod, BitVec.toNat_ofNat, Nat.reducePow, Nat.reduceMod]
    omega
  simp only [printhexDigit, hmod]
  generalize n.toNat % 16 = d at hlt
  interval_cases d <;> rfl

theorem hexChar_eq {d : ℕ} (hd : d < 16) : (hexByte d).signExtend 16 = hexChar d := by
  interval_cases d <;> rfl

theorem bootPrinthexChars_eq (nStr : ℕ → BitVec 8) (n : BitVec 64) :
    bootPrinthexChars nStr n = some ((numeral 16 n.toNat).map hexChar) := by
  obtain ⟨s, hput, hs, htext⟩ := textAt_start nStr
  have hfit : (numeral 16 n.toNat).length ≤ 29 := by
    refine numeral_length_le (by omega) (by omega) (n.isLt.trans ?_)
    norm_num
  have hnonzero : ∀ d < 16, hexByte d ≠ 0#8 := by
    intro d hd
    interval_cases d <;> decide
  obtain ⟨s', hloop, hchars⟩ :=
    takesDigits_printhex.chars (by omega) hnonzero n.isLt hfit hs htext
  have hmap : ((numeral 16 n.toNat).map fun d => (hexByte d).signExtend 16) =
      (numeral 16 n.toNat).map hexChar :=
    List.map_congr_left fun d hd => hexChar_eq ((canonical_numeral (by omega) n.toNat).digit d hd)
  rw [bootPrinthexChars, hput, Option.bind_some, printhexLoop, hloop, Option.bind_some, hchars,
    hmap]

/-- Whatever the stack held before, boot_printhex prints the numeral of its argument, and no
two arguments are printed alike. -/
theorem bootPrinthex_exact :
    (∀ nStr (n : BitVec 64), ∃ chars, bootPrinthexChars nStr n = some chars ∧
      HexOf chars n.toNat) ∧
    ∀ nStr nStr' (m n : BitVec 64),
      bootPrinthexChars nStr m = bootPrinthexChars nStr' n → m = n := by
  constructor
  · exact fun nStr n => ⟨_, bootPrinthexChars_eq nStr n, hexOf_numeral n.isLt⟩
  · intro nStr nStr' m n hsame
    rw [bootPrinthexChars_eq, bootPrinthexChars_eq] at hsame
    have hm := (hexOf_numeral m.isLt).read
    rw [Option.some.inj hsame, (hexOf_numeral n.isLt).read] at hm
    exact (BitVec.eq_of_toNat_eq (Option.some.inj hm)).symm

end Hex

/-! ### The functions without their buffer -/

/-- The loop on the text alone, for as many rounds as there is room in front of it. -/
def digitsBefore (digit : BitVec 64 → BitVec 8) (quot : BitVec 64 → BitVec 64) :
    ℕ → BitVec 64 → List (BitVec 8) → List (BitVec 8)
  | 0, _, text => text
  | room + 1, n, text =>
    if quot n ≠ 0#64 then digitsBefore digit quot room (quot n) (digit n :: text)
    else digit n :: text

theorem printnumDigits_eq (room : ℕ) (n : BitVec 64) (text : List (BitVec 8)) :
    printnumDigits room n text =
      digitsBefore printnumDigit (fun n => n.sdiv 10#64) room n text := by
  induction room generalizing n text with
  | zero => rfl
  | succ room ih =>
    rw [printnumDigits, digitsBefore, ← ih]
    rfl

theorem printhexDigits_eq (room : ℕ) (n : BitVec 64) (text : List (BitVec 8)) :
    printhexDigits room n text = digitsBefore printhexDigit (fun n => n / 16#64) room n text := by
  induction room generalizing n text with
  | zero => rfl
  | succ room ih =>
    rw [printhexDigits, digitsBefore, ← ih]
    rfl

section Refine

variable {digit : BitVec 64 → BitVec 8} {quot : BitVec 64 → BitVec 64} {text : List (BitVec 8)}

theorem digitLoop_textAt {rounds : ℕ} {n : BitVec 64} {s s' : NumBuf}
    (htext : TextAt s.nStr s.idx text) (hloop : digitLoop digit quot rounds n s = some s') :
    TextAt s'.nStr s'.idx (digitsBefore digit quot s.idx n text) := by
  induction rounds generalizing n s text with
  | zero => exact nomatch hloop
  | succ rounds ih =>
    obtain ⟨nStr, idx⟩ := s
    cases idx with
    | zero => exact nomatch hloop
    | succ room =>
      obtain ⟨hput, hput'⟩ := htext.put (c := digit n) (Nat.succ_ne_zero room)
      rw [digitLoop, hput, Option.bind_some] at hloop
      rw [digitsBefore]
      by_cases hmore : quot n ≠ 0#64
      · rw [if_pos hmore]
        exact ih hput' ((if_pos hmore).symm.trans hloop)
      · rw [if_neg hmore]
        rw [← Option.some.inj ((if_neg hmore).symm.trans hloop)]
        exact hput'

theorem zero_notMem_digitsBefore (hdigit : ∀ n, digit n ≠ 0#8) {room : ℕ} {n : BitVec 64}
    (htext : 0#8 ∉ text) : 0#8 ∉ digitsBefore digit quot room n text := by
  induction room generalizing n text with
  | zero => exact htext
  | succ room ih =>
    have hcons : 0#8 ∉ digit n :: text := by
      simpa only [List.mem_cons, not_or] using ⟨(hdigit n).symm, htext⟩
    rw [digitsBefore]
    split
    · exact ih hcons
    · exact hcons

/-- What is read from the buffer after the loop. -/
theorem printstrChars_digitLoop (hdigit : ∀ n, digit n ≠ 0#8) {n : BitVec 64} {s s' : NumBuf}
    (hs : s.idx = 29) (htext : TextAt s.nStr s.idx [])
    (hloop : digitLoop digit quot 30 n s = some s') :
    printstrChars s'.nStr (30 - s'.idx) s'.idx =
      some ((digitsBefore digit quot 29 n []).map fun c => c.signExtend 16) := by
  have htext' := digitLoop_textAt htext hloop
  rw [hs] at htext'
  have hlen := htext'.length
  exact htext'.printstrChars (zero_notMem_digitsBefore hdigit (by simp)) (by omega)

end Refine

/-- The remainder lies between -9 and 9. -/
theorem printnumDigit_ne_zero (n : BitVec 64) : printnumDigit n ≠ 0#8 := by
  intro hzero
  have hint : (n.srem 10#64).toInt = n.toInt.tmod 10 := BitVec.toInt_srem n 10#64
  have hlo := Int.lt_tmod_of_pos n.toInt (by decide : (0 : ℤ) < 10)
  have hhi := Int.tmod_lt_of_pos n.toInt (by decide : (0 : ℤ) < 10)
  have hnat := congrArg BitVec.toNat hzero
  rw [BitVec.toInt_eq_toNat_cond] at hint
  simp only [printnumDigit, BitVec.toNat_setWidth, BitVec.toNat_add, BitVec.toNat_ofNat,
    Nat.reducePow, Nat.reduceMod] at hnat
  omega

theorem printhexDigit_ne_zero (n : BitVec 64) : printhexDigit n ≠ 0#8 := by
  rw [(takesDigits_printhex n n.isLt).1]
  have hlt : n.toNat % 16 < 16 := Nat.mod_lt _ (by omega)
  generalize n.toNat % 16 = d at hlt
  interval_cases d <;> decide

section Console

variable (b : BootMode) {nStr : ℕ → BitVec 8} {n : BitVec 64} {chars : List (BitVec 16)}

theorem bootPrintnum_eq (h : bootPrintnumChars nStr n = some chars) (s : BootConsole) :
    b.bootPrintnum n s = bootPutAll b.handlers s chars := by
  obtain ⟨s₀, hput, hs, htext⟩ := textAt_start nStr
  rw [bootPrintnumChars, hput, Option.bind_some] at h
  obtain ⟨s', hloop, hchars⟩ := Option.bind_eq_some_iff.mp h
  rw [printstrChars_digitLoop printnumDigit_ne_zero hs htext hloop, Option.map_some] at hchars
  obtain rfl := Option.some.inj hchars
  rw [BootMode.bootPrintnum]
  by_cases hneg : n.slt 0#64
  · simp only [if_pos hneg, BootMode.bootPrintstr, printnumDigits_eq, bootPutAll,
      List.singleton_append, List.foldlM_cons]
    rfl
  · simp only [if_neg hneg, BootMode.bootPrintstr, printnumDigits_eq, List.nil_append]

theorem bootPrinthex_eq (h : bootPrinthexChars nStr n = some chars) (s : BootConsole) :
    b.bootPrinthex n s = bootPutAll b.handlers s chars := by
  obtain ⟨s₀, hput, hs, htext⟩ := textAt_start nStr
  rw [bootPrinthexChars, hput, Option.bind_some] at h
  obtain ⟨s', hloop, hchars⟩ := Option.bind_eq_some_iff.mp h
  rw [printstrChars_digitLoop printhexDigit_ne_zero hs htext hloop] at hchars
  rw [BootMode.bootPrinthex, BootMode.bootPrintstr, printhexDigits_eq, Option.some.inj hchars]

end Console
end ClosureOS
