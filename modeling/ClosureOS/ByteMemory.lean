import Mathlib.Data.BitVec
import Mathlib.Data.List.Basic

/-!
A byte-addressed memory of 64-bit addresses with little-endian word accesses, and
intrusive chains: linked lists whose links are stored in the nodes themselves.
Address ranges are taken modulo 2^64, so a range may wrap around.
-/
namespace ClosureOS.ByteMemory

abbrev Memory := BitVec 64 → BitVec 8

/-- Address x lies in the n bytes from a on. -/
def InRange (a : BitVec 64) (n : ℕ) (x : BitVec 64) : Prop := (x - a).toNat < n

instance (a : BitVec 64) (n : ℕ) (x : BitVec 64) : Decidable (InRange a n x) :=
  inferInstanceAs (Decidable (_ < _))

def load64 (m : Memory) (a : BitVec 64) : BitVec 64 :=
  BitVec.ofNat 64 ((List.range 8).foldr
    (fun i acc => (m (a + BitVec.ofNat 64 i)).toNat + 256 * acc) 0)

def store64 (m : Memory) (a v : BitVec 64) : Memory := fun x =>
  if InRange a 8 x then BitVec.ofNat 8 (v.toNat / 256 ^ (x - a).toNat) else m x

/-- memset: n bytes written one after the other. -/
def memset (m : Memory) (a : BitVec 64) (v : BitVec 8) (n : ℕ) : Memory :=
  (List.range n).foldl (fun m i => Function.update m (a + BitVec.ofNat 64 i) v) m

variable {m m' : Memory} {a b v x : BitVec 64} {n k : ℕ}

/-- An address of a range that does not wrap, in natural numbers. -/
theorem inRange_iff (h : a.toNat + n ≤ 2 ^ 64) :
    InRange a n x ↔ a.toNat ≤ x.toNat ∧ x.toNat < a.toNat + n := by
  rw [InRange, BitVec.toNat_sub]
  omega

theorem inRange_add {i : ℕ} (h : i < n) (hi : i < 2 ^ 64) :
    InRange a n (a + BitVec.ofNat 64 i) := by
  have heq : a + BitVec.ofNat 64 i - a = BitVec.ofNat 64 i := by
    rw [BitVec.add_comm, BitVec.add_sub_cancel]
  rw [InRange, heq, BitVec.toNat_ofNat, Nat.mod_eq_of_lt hi]
  exact h

theorem load64_congr (h : ∀ x, InRange a 8 x → m x = m' x) : load64 m a = load64 m' a := by
  have hbyte : ∀ i, i < 8 → m (a + BitVec.ofNat 64 i) = m' (a + BitVec.ofNat 64 i) :=
    fun i hi => h _ (inRange_add hi (by omega))
  rw [load64, load64]
  apply congrArg (BitVec.ofNat 64)
  apply List.foldr_ext
  intro i hi acc
  rw [hbyte i (List.mem_range.mp hi)]

theorem store64_of_not_inRange (h : ¬ InRange a 8 x) : store64 m a v x = m x := if_neg h

theorem store64_byte {i : ℕ} (hi : i < 8) :
    (store64 m a v (a + BitVec.ofNat 64 i)).toNat = v.toNat / 256 ^ i % 256 := by
  have heq : a + BitVec.ofNat 64 i - a = BitVec.ofNat 64 i := by
    rw [BitVec.add_comm, BitVec.add_sub_cancel]
  rw [store64, if_pos (inRange_add hi (by omega)), heq, BitVec.toNat_ofNat, BitVec.toNat_ofNat,
    Nat.mod_eq_of_lt (show i < 2 ^ 64 by omega)]

/-- A word reads back as it was stored. -/
theorem load64_store64_same (m : Memory) (a v : BitVec 64) : load64 (store64 m a v) a = v := by
  apply BitVec.eq_of_toNat_eq
  have hbytes : (List.range 8).foldr
      (fun i acc => (store64 m a v (a + BitVec.ofNat 64 i)).toNat + 256 * acc) 0 =
      (List.range 8).foldr (fun i acc => v.toNat / 256 ^ i % 256 + 256 * acc) 0 := by
    apply List.foldr_ext
    intro i hi acc
    rw [store64_byte (List.mem_range.mp hi)]
  rw [load64, hbytes, BitVec.toNat_ofNat]
  simp only [List.range, List.range.loop, List.foldr_cons, List.foldr_nil]
  omega

/-- A store leaves the words of other ranges. -/
theorem load64_store64_of_apart (h : ∀ x, InRange b 8 x → ¬ InRange a 8 x) :
    load64 (store64 m a v) b = load64 m b :=
  load64_congr fun x hx => store64_of_not_inRange (h x hx)

theorem memset_of_inRange {w : BitVec 8} (hn : n ≤ 2 ^ 64) (h : InRange a n x) :
    memset m a w n x = w := by
  induction n with
  | zero => exact absurd h (Nat.not_lt_zero _)
  | succ n ih =>
    rw [memset, List.range_succ, List.foldl_append, List.foldl_cons, List.foldl_nil]
    by_cases hx : x = a + BitVec.ofNat 64 n
    · rw [hx, Function.update_self]
    · rw [Function.update_of_ne hx]
      apply ih (by omega)
      unfold InRange at h ⊢
      have hne : (x - a).toNat ≠ n := by
        intro he
        apply hx
        rw [← he, BitVec.ofNat_toNat, BitVec.setWidth_eq, BitVec.add_comm, BitVec.sub_add_cancel]
      omega

theorem memset_of_not_inRange {w : BitVec 8} (hn : n ≤ 2 ^ 64) (h : ¬ InRange a n x) :
    memset m a w n x = m x := by
  induction n with
  | zero => rfl
  | succ n ih =>
    have hx : x ≠ a + BitVec.ofNat 64 n := by
      intro he
      exact h (he ▸ inRange_add (Nat.lt_succ_self n) (by omega))
    rw [memset, List.range_succ, List.foldl_append, List.foldl_cons, List.foldl_nil,
      Function.update_of_ne hx]
    exact ih (by omega) fun hr => h (by rw [InRange] at hr ⊢; omega)

/-! ### Bytes laid out -/

def load32 (m : Memory) (a : BitVec 64) : BitVec 32 :=
  BitVec.ofNat 32 ((List.range 4).foldr
    (fun i acc => (m (a + BitVec.ofNat 64 i)).toNat + 256 * acc) 0)

/-- The bytes of a 32-bit word, the low one first. -/
def le32 (v : BitVec 32) : List (BitVec 8) :=
  (List.range 4).map fun i => BitVec.ofNat 8 (v.toNat / 256 ^ i)

/-- The memory holds these bytes from a on. -/
def Holds (m : Memory) : BitVec 64 → List (BitVec 8) → Prop
  | _, [] => True
  | a, b :: bytes => m a = b ∧ Holds m (a + 1#64) bytes

@[simp] theorem length_le32 (v : BitVec 32) : (le32 v).length = 4 := rfl

theorem holds_append {l l' : List (BitVec 8)} :
    Holds m a (l ++ l') ↔ Holds m a l ∧ Holds m (a + BitVec.ofNat 64 l.length) l' := by
  induction l generalizing a with
  | nil => simp [Holds]
  | cons b l ih =>
    have hnext : a + 1#64 + BitVec.ofNat 64 l.length = a + BitVec.ofNat 64 (l.length + 1) := by
      rw [BitVec.add_assoc, ← BitVec.ofNat_add, Nat.add_comm]
    rw [List.cons_append, Holds, Holds, ih, List.length_cons, hnext, and_assoc]

theorem holds_of_getElem {l : List (BitVec 8)}
    (h : ∀ i (hi : i < l.length), m (a + BitVec.ofNat 64 i) = l[i]) : Holds m a l := by
  induction l generalizing a with
  | nil => trivial
  | cons b l ih =>
    have hfirst := h 0 (Nat.succ_pos _)
    rw [BitVec.add_zero] at hfirst
    refine ⟨hfirst, ih fun i hi => ?_⟩
    have hnext : a + 1#64 + BitVec.ofNat 64 i = a + BitVec.ofNat 64 (i + 1) := by
      rw [BitVec.add_assoc, ← BitVec.ofNat_add, Nat.add_comm]
    rw [hnext]
    exact h (i + 1) (Nat.succ_lt_succ hi)

/-- A memory with these bytes from a on and zeros elsewhere. -/
def ofBytes (a : BitVec 64) (l : List (BitVec 8)) : Memory := fun x => l.getD (x - a).toNat 0#8

/-- Every list of bytes can be laid out. -/
theorem holds_ofBytes {l : List (BitVec 8)} (h : l.length ≤ 2 ^ 64) : Holds (ofBytes a l) a l := by
  refine holds_of_getElem fun i hi => ?_
  have heq : a + BitVec.ofNat 64 i - a = BitVec.ofNat 64 i := by
    rw [BitVec.add_comm, BitVec.add_sub_cancel]
  rw [ofBytes, heq, BitVec.toNat_ofNat, Nat.mod_eq_of_lt (Nat.lt_of_lt_of_le hi h),
    List.getD_eq_getElem?_getD, List.getElem?_eq_getElem hi, Option.getD_some]

/-- A word reads back as it was laid out. -/
theorem load32_of_holds {v : BitVec 32} (h : Holds m a (le32 v)) : load32 m a = v := by
  obtain ⟨h0, h1, h2, h3, _⟩ := h
  have htwo : a + 1#64 + 1#64 = a + 2#64 := BitVec.add_assoc ..
  have hthree : a + 2#64 + 1#64 = a + 3#64 := BitVec.add_assoc ..
  rw [htwo] at h2
  rw [htwo, hthree] at h3
  apply BitVec.eq_of_toNat_eq
  have hlt := v.isLt
  simp only [load32, List.range, List.range.loop, List.foldr_cons, List.foldr_nil,
    BitVec.add_zero, h0, h1, h2, h3, BitVec.toNat_ofNat]
  omega

/-! ### Intrusive chains -/

section Chain

variable {α : Type*} {next next' : α → α} {null h : α} {l : List α}

/-- The nodes reached from h by following next up to null. -/
def Chain (next : α → α) (null : α) : α → List α → Prop
  | h, [] => h = null
  | h, a :: l => h = a ∧ a ≠ null ∧ Chain next null (next a) l

theorem Chain.congr {l : List α} {h : α} (hc : Chain next null h l)
    (heq : ∀ a ∈ l, next a = next' a) : Chain next' null h l := by
  induction l generalizing h with
  | nil => exact hc
  | cons a l ih =>
    obtain ⟨rfl, hne, hrest⟩ := hc
    refine ⟨rfl, hne, ?_⟩
    rw [← heq h List.mem_cons_self]
    exact ih hrest fun b hb => heq b (List.mem_cons_of_mem _ hb)

theorem Chain.push {a : α} (hc : Chain next null h l) (ha : a ≠ null) (hnext : next a = h) :
    Chain next null a (a :: l) :=
  ⟨rfl, ha, hnext ▸ hc⟩

theorem Chain.pop (hc : Chain next null h l) (hne : h ≠ null) :
    ∃ l', l = h :: l' ∧ Chain next null (next h) l' := by
  cases l with
  | nil => exact absurd hc hne
  | cons a l =>
    obtain ⟨rfl, _, hrest⟩ := hc
    exact ⟨l, rfl, hrest⟩

theorem Chain.eq_nil (hc : Chain next null null l) : l = [] := by
  cases l with
  | nil => rfl
  | cons a l =>
    obtain ⟨heq, hne, _⟩ := hc
    exact absurd heq.symm hne

end Chain

end ClosureOS.ByteMemory
