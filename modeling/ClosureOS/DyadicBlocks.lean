import Mathlib.Algebra.Group.Nat.Even
import Mathlib.Data.List.Perm.Basic
import Mathlib.Data.List.Pairwise
import Mathlib.Data.Nat.Bitwise
import Mathlib.Logic.Function.Basic
import Mathlib.Tactic.Ring

/-!
Dyadic blocks of natural numbers and lists of such blocks kept by order.
A block is an interval of 2^k indices; an aligned block of order k + 1 is the
union of its two halves, and flipping bit k of the start of one half gives the
start of the other. Nothing here mentions pages: a buddy allocator is one user.
-/
namespace ClosureOS.DyadicBlocks

structure Block where
  start : ℕ
  order : ℕ
deriving DecidableEq, Repr

namespace Block

def stop (b : Block) : ℕ := b.start + 2 ^ b.order

instance : Membership ℕ Block := ⟨fun b i => b.start ≤ i ∧ i < b.stop⟩

def Aligned (b : Block) : Prop := 2 ^ b.order ∣ b.start

/-- Two blocks that share no index, read off their end points. -/
def Apart (a b : Block) : Prop := a.stop ≤ b.start ∨ b.stop ≤ a.start

instance (b : Block) : Decidable b.Aligned := inferInstanceAs (Decidable (_ ∣ _))

instance (a b : Block) : Decidable (a.Apart b) := inferInstanceAs (Decidable (_ ∨ _))

theorem mem_iff {b : Block} {i : ℕ} :
    i ∈ b ↔ b.start ≤ i ∧ i < b.start + 2 ^ b.order := Iff.rfl

instance (b : Block) (i : ℕ) : Decidable (i ∈ b) := decidable_of_iff _ mem_iff.symm

theorem start_mem (b : Block) : b.start ∈ b :=
  ⟨Nat.le_refl _, Nat.lt_add_of_pos_right (Nat.two_pow_pos _)⟩

theorem Apart.symm {a b : Block} (h : a.Apart b) : b.Apart a := Or.symm h

instance : Std.Symm Apart := ⟨fun _ _ h => h.symm⟩

theorem Apart.not_mem {a b : Block} (h : a.Apart b) {i : ℕ} (hi : i ∈ a) : i ∉ b := by
  intro hib
  rcases h with h | h
  · exact absurd hib.1 (Nat.not_le.mpr (hi.2.trans_le h))
  · exact absurd hi.1 (Nat.not_le.mpr (hib.2.trans_le h))

theorem apart_of_disjoint {a b : Block} (h : ∀ i, i ∈ a → i ∉ b) : a.Apart b := by
  by_contra hn
  simp only [Apart, not_or, Nat.not_le] at hn
  rcases Nat.le_total a.start b.start with hab | hba
  · exact h b.start ⟨hab, hn.1⟩ b.start_mem
  · exact h a.start a.start_mem ⟨hba, hn.2⟩

theorem apart_of_subset {a b c : Block} (h : a.Apart c) (hsub : ∀ i, i ∈ b → i ∈ a) :
    b.Apart c :=
  apart_of_disjoint fun i hi => h.not_mem (hsub i hi)

theorem stop_le_of_subset {a b : Block} (h : ∀ i, i ∈ a → i ∈ b) : a.stop ≤ b.stop := by
  have hpos := Nat.two_pow_pos a.order
  have hlast := (h (a.start + 2 ^ a.order - 1) ⟨by omega, by unfold stop; omega⟩).2
  unfold stop at hlast ⊢
  omega

end Block

/-! ### Buddies -/

theorem two_pow_succ_dvd {p k : ℕ} (h : 2 ^ (k + 1) ∣ p) : 2 ^ k ∣ p :=
  (pow_dvd_pow 2 (Nat.le_succ k)).trans h

/-- Flipping bit k of a multiple of 2^(k+1) moves to the upper half. -/
theorem xor_two_pow_of_dvd {p k : ℕ} (h : 2 ^ (k + 1) ∣ p) : p ^^^ 2 ^ k = p + 2 ^ k := by
  obtain ⟨m, rfl⟩ := h
  have hshift : 2 ^ (k + 1) * m = (2 * m) <<< k := by
    rw [Nat.shiftLeft_eq, pow_succ]
    ring
  have hone : 2 ^ k = 1 <<< k := by rw [Nat.shiftLeft_eq, Nat.one_mul]
  rw [hshift, hone, ← Nat.shiftLeft_xor_distrib, Nat.xor_one_of_even (even_two_mul m)]
  simp only [Nat.shiftLeft_eq]
  ring

theorem xor_two_pow_of_dvd_add {p k : ℕ} (h : 2 ^ (k + 1) ∣ p) :
    (p + 2 ^ k) ^^^ 2 ^ k = p := by
  rw [← xor_two_pow_of_dvd h, Nat.xor_assoc, Nat.xor_self, Nat.xor_zero]

/-- A multiple of 2^k starts either the lower or the upper half of its parent. -/
theorem half_cases {p k : ℕ} (h : 2 ^ k ∣ p) :
    2 ^ (k + 1) ∣ p ∨ ∃ q, 2 ^ (k + 1) ∣ q ∧ p = q + 2 ^ k := by
  obtain ⟨m, rfl⟩ := h
  rcases Nat.even_or_odd' m with ⟨n, rfl | rfl⟩
  · exact Or.inl ⟨n, by ring⟩
  · exact Or.inr ⟨2 ^ (k + 1) * n, ⟨n, rfl⟩, by ring⟩

/-- What a merge with the buddy does to the start of a block: the new start is
the start of the parent, and the parent is made of the two halves. -/
theorem merge_cases {p k : ℕ} (h : 2 ^ k ∣ p) :
    (2 ^ (k + 1) ∣ p ∧ p ^^^ 2 ^ k = p + 2 ^ k) ∨
      (2 ^ (k + 1) ∣ p ^^^ 2 ^ k ∧ p = (p ^^^ 2 ^ k) + 2 ^ k) := by
  rcases half_cases h with hp | ⟨q, hq, rfl⟩
  · exact Or.inl ⟨hp, xor_two_pow_of_dvd hp⟩
  · apply Or.inr
    rw [xor_two_pow_of_dvd_add hq]
    exact ⟨hq, rfl⟩

theorem dvd_xor_two_pow {p k : ℕ} (h : 2 ^ k ∣ p) : 2 ^ k ∣ p ^^^ 2 ^ k := by
  rcases merge_cases h with ⟨_, he⟩ | ⟨hd, _⟩
  · rw [he]
    exact Nat.dvd_add h (Nat.dvd_refl _)
  · exact two_pow_succ_dvd hd

/-- The merge of a block with its buddy is aligned. -/
theorem dvd_min_xor {p k : ℕ} (h : 2 ^ k ∣ p) : 2 ^ (k + 1) ∣ min p (p ^^^ 2 ^ k) := by
  rcases merge_cases h with ⟨hd, he⟩ | ⟨hd, he⟩
  · rwa [Nat.min_eq_left (by omega)]
  · rwa [Nat.min_eq_right (by omega)]

/-- A block and its buddy are apart. -/
theorem xor_two_pow_not_mem {p k : ℕ} (h : 2 ^ k ∣ p) : p ^^^ 2 ^ k ∉ (⟨p, k⟩ : Block) := by
  rw [Block.mem_iff]
  rcases merge_cases h with ⟨_, he⟩ | ⟨_, he⟩ <;> simp only <;> omega

theorem mem_zero_iff {p i : ℕ} : i ∈ (⟨p, 0⟩ : Block) ↔ i = p := by
  rw [Block.mem_iff]
  simp only [pow_zero]
  omega

/-- A block starts with the smaller blocks from the same page. -/
theorem mem_of_order_le {p k j i : ℕ} (hkj : k ≤ j) (hi : i ∈ (⟨p, k⟩ : Block)) :
    i ∈ (⟨p, j⟩ : Block) := by
  have hpow : 2 ^ k ≤ 2 ^ j := Nat.pow_le_pow_right (by decide) hkj
  rw [Block.mem_iff] at hi ⊢
  exact ⟨hi.1, hi.2.trans_le (Nat.add_le_add_left hpow p)⟩

/-- A block of order k + 1 is made of its two halves. -/
theorem mem_parent {q k i : ℕ} :
    i ∈ (⟨q, k + 1⟩ : Block) ↔ i ∈ (⟨q, k⟩ : Block) ∨ i ∈ (⟨q + 2 ^ k, k⟩ : Block) := by
  simp only [Block.mem_iff]
  omega

/-- The merge of a block with its buddy has the indices of both. -/
theorem mem_merged {p k i : ℕ} (h : 2 ^ k ∣ p) :
    i ∈ (⟨min p (p ^^^ 2 ^ k), k + 1⟩ : Block) ↔
      i ∈ (⟨p, k⟩ : Block) ∨ i ∈ (⟨p ^^^ 2 ^ k, k⟩ : Block) := by
  rcases merge_cases h with ⟨_, he⟩ | ⟨_, he⟩
  · rw [Nat.min_eq_left (by omega), mem_parent, he]
  · rw [Nat.min_eq_right (by omega), mem_parent, ← he]
    exact or_comm

/-- Aligned blocks are laminar: the one of smaller order is inside or apart. -/
theorem mem_of_start_mem {a b : Block} (ha : a.Aligned) (hb : b.Aligned)
    (hab : a.order ≤ b.order) (h : ∃ i, i ∈ a ∧ i ∈ b) : ∀ i, i ∈ a → i ∈ b := by
  obtain ⟨j, hja, hjb⟩ := h
  obtain ⟨m, hm⟩ := ha
  obtain ⟨n, hn⟩ := hb
  obtain ⟨d, hd⟩ := Nat.exists_eq_add_of_le hab
  have hpow : 2 ^ b.order = 2 ^ a.order * 2 ^ d := by rw [hd, pow_add]
  rw [Block.mem_iff] at hja hjb
  rw [hm] at hja
  rw [hn, hpow] at hjb
  have hlow : 2 ^ d * n < m + 1 := by
    apply Nat.lt_of_mul_lt_mul_left (a := 2 ^ a.order)
    calc 2 ^ a.order * (2 ^ d * n) = 2 ^ a.order * 2 ^ d * n := by ring
      _ ≤ j := hjb.1
      _ < 2 ^ a.order * m + 2 ^ a.order := hja.2
      _ = 2 ^ a.order * (m + 1) := by ring
  have hhigh : m < 2 ^ d * (n + 1) := by
    apply Nat.lt_of_mul_lt_mul_left (a := 2 ^ a.order)
    calc 2 ^ a.order * m ≤ j := hja.1
      _ < 2 ^ a.order * 2 ^ d * n + 2 ^ a.order * 2 ^ d := hjb.2
      _ = 2 ^ a.order * (2 ^ d * (n + 1)) := by ring
  intro i hi
  rw [Block.mem_iff, hm] at hi
  rw [Block.mem_iff, hn, hpow]
  constructor
  · calc 2 ^ a.order * 2 ^ d * n = 2 ^ a.order * (2 ^ d * n) := by ring
      _ ≤ 2 ^ a.order * m := Nat.mul_le_mul_left _ (Nat.lt_succ_iff.mp hlow)
      _ ≤ i := hi.1
  · calc i < 2 ^ a.order * (m + 1) := by rw [Nat.mul_add_one]; exact hi.2
      _ ≤ 2 ^ a.order * (2 ^ d * (n + 1)) := Nat.mul_le_mul_left _ hhigh
      _ = 2 ^ a.order * 2 ^ d * n + 2 ^ a.order * 2 ^ d := by ring

/-- Two blocks with the same indices are equal. -/
theorem eq_of_subset {a b : Block} (hab : ∀ i, i ∈ a → i ∈ b) (hba : ∀ i, i ∈ b → i ∈ a) :
    a = b := by
  have hstart : a.start = b.start :=
    Nat.le_antisymm (hba _ b.start_mem).1 (hab _ a.start_mem).1
  have hstop : a.stop = b.stop :=
    Nat.le_antisymm (Block.stop_le_of_subset hab) (Block.stop_le_of_subset hba)
  have hpow : 2 ^ a.order = 2 ^ b.order := by
    unfold Block.stop at hstop
    omega
  have horder : a.order = b.order := Nat.pow_right_injective (Nat.le_refl 2) hpow
  obtain ⟨start, order⟩ := a
  simp only at hstart horder
  subst hstart horder
  rfl

/-- An aligned block around an aligned one is this block, or it has the parent. -/
theorem eq_or_parent_subset {a : Block} {p k : ℕ} (ha : a.Aligned) (hp : 2 ^ k ∣ p)
    (hsub : ∀ i, i ∈ (⟨p, k⟩ : Block) → i ∈ a) :
    a = ⟨p, k⟩ ∨ ∀ i, i ∈ (⟨min p (p ^^^ 2 ^ k), k + 1⟩ : Block) → i ∈ a := by
  have hshared := hsub p (Block.start_mem ⟨p, k⟩)
  by_cases hk : a.order ≤ k
  · have hin := mem_of_start_mem (b := ⟨p, k⟩) ha hp hk ⟨p, hshared, Block.start_mem ⟨p, k⟩⟩
    exact Or.inl (eq_of_subset hin hsub)
  · refine Or.inr (mem_of_start_mem (a := ⟨_, k + 1⟩) (dvd_min_xor hp) ha (Nat.lt_of_not_le hk) ?_)
    exact ⟨p, (mem_merged hp).mpr (Or.inl (Block.start_mem ⟨p, k⟩)), hshared⟩

/-- An aligned block with the first index of the buddy starts there, or it has the parent. -/
theorem start_eq_or_parent_subset {a : Block} {p k : ℕ} (ha : a.Aligned) (hp : 2 ^ k ∣ p)
    (hmem : p ^^^ 2 ^ k ∈ a) : (a.start = p ^^^ 2 ^ k ∧ a.order ≤ k) ∨
      ∀ i, i ∈ (⟨min p (p ^^^ 2 ^ k), k + 1⟩ : Block) → i ∈ a := by
  have hfirst := Block.start_mem ⟨p ^^^ 2 ^ k, k⟩
  by_cases hk : a.order ≤ k
  · have hin := mem_of_start_mem (b := ⟨p ^^^ 2 ^ k, k⟩) ha (dvd_xor_two_pow hp) hk
      ⟨_, hmem, hfirst⟩
    exact Or.inl ⟨Nat.le_antisymm hmem.1 (hin _ a.start_mem).1, hk⟩
  · refine Or.inr (mem_of_start_mem (a := ⟨_, k + 1⟩) (dvd_min_xor hp) ha (Nat.lt_of_not_le hk) ?_)
    exact ⟨_, (mem_merged hp).mpr (Or.inr hfirst), hmem⟩

/-- Indices that lie in some block of a list. -/
def Covered (l : List Block) (i : ℕ) : Prop := ∃ b ∈ l, i ∈ b

instance (l : List Block) (i : ℕ) : Decidable (Covered l i) :=
  inferInstanceAs (Decidable (∃ b ∈ l, i ∈ b))

@[simp] theorem covered_cons {b : Block} {l : List Block} {i : ℕ} :
    Covered (b :: l) i ↔ i ∈ b ∨ Covered l i := by
  simp [Covered]

theorem covered_perm {l l' : List Block} (h : l.Perm l') {i : ℕ} :
    Covered l i ↔ Covered l' i := by
  simp only [Covered, h.mem_iff]

theorem covered_append {l l' : List Block} {i : ℕ} :
    Covered (l ++ l') i ↔ Covered l i ∨ Covered l' i := by
  simp only [Covered, List.mem_append, or_and_right, exists_or]

/-- The upper halves left over when a block of order j is cut down to order k. -/
def halves (p k j : ℕ) : List Block := (List.range' k (j - k)).map fun i => ⟨p + 2 ^ i, i⟩

theorem halves_self (p k : ℕ) : halves p k k = [] := by
  rw [halves, Nat.sub_self]
  rfl

theorem halves_succ (p : ℕ) {k j : ℕ} (h : k ≤ j) :
    halves p k (j + 1) = halves p k j ++ [⟨p + 2 ^ j, j⟩] := by
  have hlast : k + (j - k) = j := by omega
  rw [halves, Nat.succ_sub h, List.range'_concat, List.map_append, Nat.one_mul, hlast]
  rfl

theorem halves_cons (p : ℕ) {k j : ℕ} (h : k < j) :
    halves p k j = ⟨p + 2 ^ k, k⟩ :: halves p (k + 1) j := by
  have hlen : j - k = j - (k + 1) + 1 := by omega
  rw [halves, hlen, List.range'_succ]
  rfl

/-- The halves and the part cut out tile the block. -/
theorem covered_halves {p k j i : ℕ} (h : k ≤ j) :
    i ∈ (⟨p, k⟩ : Block) ∨ Covered (halves p k j) i ↔ i ∈ (⟨p, j⟩ : Block) := by
  induction j, h using Nat.le_induction with
  | base => simp [halves_self, Covered]
  | succ j hkj ih =>
    rw [halves_succ p hkj, covered_append, ← or_assoc, ih, mem_parent]
    simp [Covered]

/-! ### Blocks kept on one list for each order -/

/-- The blocks held by the first n lists; entry p of list k is the block (p, k). -/
def blocks (n : ℕ) (lists : ℕ → List ℕ) : List Block :=
  (List.range n).flatMap fun k => (lists k).map fun p => ⟨p, k⟩

theorem mem_blocks {n : ℕ} {lists : ℕ → List ℕ} {b : Block} :
    b ∈ blocks n lists ↔ b.order < n ∧ b.start ∈ lists b.order := by
  simp only [blocks, List.mem_flatMap, List.mem_range, List.mem_map]
  constructor
  · rintro ⟨k, hk, p, hp, rfl⟩
    exact ⟨hk, hp⟩
  · rintro ⟨hk, hp⟩
    exact ⟨b.order, hk, b.start, hp, rfl⟩

theorem blocks_succ (n : ℕ) (lists : ℕ → List ℕ) :
    blocks (n + 1) lists = blocks n lists ++ (lists n).map fun p => ⟨p, n⟩ := by
  simp [blocks, List.range_succ]

theorem blocks_congr {n : ℕ} {lists lists' : ℕ → List ℕ}
    (h : ∀ k, k < n → lists k = lists' k) : blocks n lists = blocks n lists' := by
  apply List.flatMap_congr
  intro k hk
  rw [h k (List.mem_range.mp hk)]

/-- Setting one list aside leaves the blocks of the others. -/
theorem blocks_perm_split {n k : ℕ} (lists : ℕ → List ℕ) (hk : k < n) :
    (blocks n lists).Perm
      ((lists k).map (fun p => ⟨p, k⟩) ++ blocks n (Function.update lists k [])) := by
  induction n with
  | zero => exact absurd hk (Nat.not_lt_zero k)
  | succ n ih =>
    rw [blocks_succ, blocks_succ]
    rcases Nat.lt_succ_iff_lt_or_eq.mp hk with hlt | rfl
    · rw [Function.update_of_ne (Nat.ne_of_gt hlt), ← List.append_assoc]
      exact (ih hlt).append_right _
    · have hrest : blocks k (Function.update lists k []) = blocks k lists :=
        blocks_congr fun i hi => Function.update_of_ne (Nat.ne_of_lt hi) _ _
      rw [Function.update_self, hrest, List.map_nil, List.append_nil]
      exact List.perm_append_comm

theorem blocks_perm_update {n k : ℕ} (lists : ℕ → List ℕ) (l : List ℕ) (hk : k < n) :
    (blocks n (Function.update lists k l)).Perm
      (l.map (fun p => ⟨p, k⟩) ++ blocks n (Function.update lists k [])) := by
  simpa only [Function.update_self, Function.update_idem]
    using blocks_perm_split (Function.update lists k l) hk

/-- Pushing p on list k adds the block (p, k). -/
theorem blocks_perm_push {n k : ℕ} (lists : ℕ → List ℕ) (p : ℕ) (hk : k < n) :
    (blocks n (Function.update lists k (p :: lists k))).Perm (⟨p, k⟩ :: blocks n lists) := by
  apply (blocks_perm_update lists (p :: lists k) hk).trans
  exact List.Perm.cons _ (blocks_perm_split lists hk).symm

/-- Erasing a listed p from list k removes the block (p, k). -/
theorem blocks_perm_erase {n k p : ℕ} (lists : ℕ → List ℕ) (hk : k < n) (hp : p ∈ lists k) :
    (blocks n lists).Perm
      (⟨p, k⟩ :: blocks n (Function.update lists k ((lists k).erase p))) := by
  have hl : (blocks n lists).Perm
      (blocks n (Function.update lists k (p :: (lists k).erase p))) := by
    refine (blocks_perm_split lists hk).trans ((blocks_perm_update _ _ hk).trans ?_).symm
    exact ((List.perm_cons_erase hp).symm.map _).append_right _
  have hpush := blocks_perm_push (Function.update lists k ((lists k).erase p)) p hk
  rw [Function.update_self, Function.update_idem] at hpush
  exact hl.trans hpush

theorem pairwise_perm {l l' : List Block} (h : l.Perm l') :
    l.Pairwise Block.Apart ↔ l'.Pairwise Block.Apart :=
  h.pairwise_iff fun hab => hab.symm

/-- Two members of a list of apart blocks that share an index are equal. -/
theorem eq_of_mem_of_pairwise {l : List Block} (hl : l.Pairwise Block.Apart) {a b : Block}
    (ha : a ∈ l) (hb : b ∈ l) {i : ℕ} (hia : i ∈ a) (hib : i ∈ b) : a = b := by
  by_contra hne
  exact (hl.forall ha hb hne).not_mem hia hib

/-! ### Families of separated blocks -/

/-- Aligned blocks, no two of which share an index. -/
structure Separated (l : List Block) : Prop where
  apart : l.Pairwise Block.Apart
  aligned : ∀ b ∈ l, b.Aligned

namespace Separated

variable {l l' : List Block} {b : Block} {p k : ℕ}

theorem perm (h : Separated l) (hp : l.Perm l') : Separated l' where
  apart := (pairwise_perm hp).mp h.apart
  aligned c hc := h.aligned c (hp.mem_iff.mpr hc)

theorem of_perm (h : Separated l') (hp : l.Perm l') : Separated l := h.perm hp.symm

theorem tail (h : Separated (b :: l)) : Separated l where
  apart := (List.pairwise_cons.mp h.apart).2
  aligned c hc := h.aligned c (List.mem_cons_of_mem _ hc)

theorem head_apart (h : Separated (b :: l)) {c : Block} (hc : c ∈ l) : b.Apart c :=
  (List.pairwise_cons.mp h.apart).1 c hc

theorem head_aligned (h : Separated (b :: l)) : b.Aligned := h.aligned b List.mem_cons_self

theorem eq_of_mem (h : Separated l) {a c : Block} (ha : a ∈ l) (hc : c ∈ l) {i : ℕ}
    (hia : i ∈ a) (hic : i ∈ c) : a = c :=
  eq_of_mem_of_pairwise h.apart ha hc hia hic

theorem start_ne (h : Separated (b :: l)) {c : Block} (hc : c ∈ l) : b.start ≠ c.start := by
  intro he
  exact (h.head_apart hc).not_mem b.start_mem (he ▸ c.start_mem)

/-- The halves of a block replace the block. -/
theorem split (h : Separated (⟨p, k + 1⟩ :: l)) :
    Separated (⟨p, k⟩ :: ⟨p ^^^ 2 ^ k, k⟩ :: l) := by
  have hp : 2 ^ (k + 1) ∣ p := h.head_aligned
  have hx := xor_two_pow_of_dvd hp
  have hlow : ∀ i, i ∈ (⟨p, k⟩ : Block) → i ∈ (⟨p, k + 1⟩ : Block) :=
    fun i hi => mem_parent.mpr (Or.inl hi)
  have hhigh : ∀ i, i ∈ (⟨p ^^^ 2 ^ k, k⟩ : Block) → i ∈ (⟨p, k + 1⟩ : Block) := by
    intro i hi
    rw [hx] at hi
    exact mem_parent.mpr (Or.inr hi)
  constructor
  · refine List.pairwise_cons.mpr ⟨?_, List.pairwise_cons.mpr ⟨?_, h.tail.apart⟩⟩
    · intro c hc
      rcases List.mem_cons.mp hc with rfl | hc
      · exact Or.inl (by simp only [Block.stop, hx]; exact Nat.le_refl _)
      · exact Block.apart_of_subset (h.head_apart hc) hlow
    · exact fun c hc => Block.apart_of_subset (h.head_apart hc) hhigh
  · intro c hc
    rcases List.mem_cons.mp hc with rfl | hc
    · exact two_pow_succ_dvd hp
    · rcases List.mem_cons.mp hc with rfl | hc
      · exact dvd_xor_two_pow (two_pow_succ_dvd hp)
      · exact h.aligned c (List.mem_cons_of_mem _ hc)

/-- A block and its whole buddy are replaced by their parent. -/
theorem merge (h : Separated (⟨p, k⟩ :: ⟨p ^^^ 2 ^ k, k⟩ :: l)) :
    Separated (⟨min p (p ^^^ 2 ^ k), k + 1⟩ :: l) := by
  have hp : 2 ^ k ∣ p := h.head_aligned
  constructor
  · refine List.pairwise_cons.mpr ⟨?_, h.tail.tail.apart⟩
    intro c hc
    apply Block.apart_of_disjoint
    intro i hi
    rcases (mem_merged hp).mp hi with hi | hi
    · exact (h.head_apart (List.mem_cons_of_mem _ hc)).not_mem hi
    · exact (h.tail.head_apart hc).not_mem hi
  · intro c hc
    rcases List.mem_cons.mp hc with rfl | hc
    · exact dvd_min_xor hp
    · exact h.aligned c (List.mem_cons_of_mem _ (List.mem_cons_of_mem _ hc))

end Separated

/-- Erasing p from every list removes the one block that starts at p. -/
theorem blocks_perm_eraseAll {n k p : ℕ} {lists : ℕ → List ℕ} {l : List Block}
    (h : Separated (blocks n lists ++ l)) (hk : k < n) (hp : p ∈ lists k) :
    (blocks n lists).Perm (⟨p, k⟩ :: blocks n (fun i => (lists i).erase p)) := by
  have hmem : ⟨p, k⟩ ∈ blocks n lists := mem_blocks.mpr ⟨hk, hp⟩
  have hothers : ∀ i, i < n → i ≠ k → p ∉ lists i := by
    intro i hi hik hpi
    have heq := h.eq_of_mem (List.mem_append_left _ hmem)
      (List.mem_append_left _ (mem_blocks.mpr ⟨hi, hpi⟩)) (i := p)
      (Block.start_mem ⟨p, k⟩) (Block.start_mem ⟨p, i⟩)
    exact hik (congrArg Block.order heq).symm
  have hcongr : blocks n (fun i => (lists i).erase p) =
      blocks n (Function.update lists k ((lists k).erase p)) := by
    apply blocks_congr
    intro i hi
    by_cases hik : i = k
    · subst hik
      rw [Function.update_self]
    · rw [Function.update_of_ne hik, List.erase_of_not_mem (hothers i hi hik)]
  rw [hcongr]
  exact blocks_perm_erase lists hk hp

end ClosureOS.DyadicBlocks
