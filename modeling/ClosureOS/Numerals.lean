import Mathlib.Data.Nat.Digits.Lemmas
import Mathlib.Tactic.Common

/-!
Numerals in a base: the digits of a natural number from the most significant one, at least
one and none of them superfluous. A character for each digit turns a numeral into text, and
reading the text back gives the number.
-/
namespace ClosureOS.Numerals

/-- Digits of n, most significant first, without a leading zero unless n is zero. -/
structure Canonical (b : ℕ) (ds : List ℕ) (n : ℕ) : Prop where
  digit : ∀ d ∈ ds, d < b
  value : Nat.ofDigits b ds.reverse = n
  nonempty : ds ≠ []
  noLeadingZero : ds.head? = some 0 → ds = [0]

def numeral (b n : ℕ) : List ℕ := if n = 0 then [0] else (Nat.digits b n).reverse

section Numeral

variable {b n : ℕ}

theorem numeral_of_lt (h : n < b) : numeral b n = [n] := by
  unfold numeral
  by_cases hn : n = 0
  · rw [if_pos hn, hn]
  · rw [if_neg hn, Nat.digits_of_lt b n hn h, List.reverse_singleton]

/-- The last digit is the remainder, the others are those of the quotient. -/
theorem numeral_of_le (hb : 1 < b) (h : b ≤ n) : numeral b n = numeral b (n / b) ++ [n % b] := by
  have hn : n ≠ 0 := by omega
  have hq : n / b ≠ 0 := (Nat.div_pos h (by omega)).ne'
  rw [numeral, if_neg hn, numeral, if_neg hq, Nat.digits_eq_cons_digits_div hb hn,
    List.reverse_cons]

theorem numeral_length_le {k : ℕ} (hb : 1 < b) (hk : 0 < k) (hn : n < b ^ k) :
    (numeral b n).length ≤ k := by
  unfold numeral
  split
  · exact hk
  · rw [List.length_reverse]
    exact (Nat.digits_length_le_iff hb n).mpr hn

theorem canonical_numeral (hb : 1 < b) (n : ℕ) : Canonical b (numeral b n) n := by
  by_cases hn : n = 0
  · subst hn
    exact ⟨by simp [numeral]; omega, by simp [numeral], by simp [numeral], by simp [numeral]⟩
  rw [numeral, if_neg hn]
  refine ⟨fun d hd => ?_, ?_, ?_, fun hlead => ?_⟩
  · exact Nat.digits_lt_base hb (List.mem_reverse.mp hd)
  · rw [List.reverse_reverse, Nat.ofDigits_digits]
  · simpa using Nat.digits_ne_nil_iff_ne_zero.mpr hn
  · rw [List.head?_reverse, List.getLast?_eq_some_getLast (Nat.digits_ne_nil_iff_ne_zero.mpr hn)]
      at hlead
    exact absurd (Option.some.inj hlead) (Nat.getLast_digit_ne_zero b hn)

end Numeral

/-! ### Reading text back -/

section Read

variable {χ : Type} (value : χ → Option ℕ) (b : ℕ)

/-- The number that text stands for, if it is text of digits and not empty. -/
def readNumeral (text : List χ) : Option ℕ :=
  if text = [] then none
  else text.foldl (fun acc c => acc.bind fun v => (value c).map (v * b + ·)) (some 0)

variable {value b}

theorem readNumeral_map {char : ℕ → χ} (hchar : ∀ d < b, value (char d) = some d) {ds : List ℕ}
    (hds : ∀ d ∈ ds, d < b) (hne : ds ≠ []) :
    readNumeral value b (ds.map char) = some (Nat.ofDigits b ds.reverse) := by
  rw [readNumeral, if_neg (by simpa using hne)]
  clear hne
  induction ds using List.reverseRecOn with
  | nil => rfl
  | append_singleton ds d ih =>
    have hd : value (char d) = some d := hchar d (hds d (by simp))
    rw [List.map_append, List.foldl_append, ih fun d hd => hds d (by simp [hd])]
    simp [hd, Nat.ofDigits_cons, Nat.add_comm, Nat.mul_comm]

/-- The text of a numeral stands for the number. -/
theorem Canonical.readNumeral {char : ℕ → χ} (hchar : ∀ d < b, value (char d) = some d)
    {ds : List ℕ} {n : ℕ} (h : Canonical b ds n) :
    readNumeral value b (ds.map char) = some n := by
  rw [readNumeral_map hchar h.digit h.nonempty, h.value]

end Read

end ClosureOS.Numerals
