import ClosureOS.KHeapPool

/-!
Where the objects of a slab lie. A block of pages is mapped linearly into the direct
map; object i of a slab starts i object sizes after the block. Objects of one slab do
not overlap, and every byte of an object is on a page of its block. The slicing loop
links all of them into one chain.
-/
namespace ClosureOS

open ByteMemory DyadicBlocks

/-- The address of object i of a slab that starts at page p. -/
def slotAddr (p : ℕ) (sz : Word) (i : ℕ) : Word := pageToVirt p + BitVec.ofNat 64 i * sz

theorem virtToPage_eq (x : Word) : virtToPage x = (x - physmemBase).toNat / 4096 := by
  rw [virtToPage, physToPage, virtToPhys, BitVec.toNat_udiv, toNat_and_pageMask, toNat_pageSize,
    Nat.mul_div_cancel _ (by decide)]

theorem slotAddr_zero (p : ℕ) (sz : Word) : slotAddr p sz 0 = pageToVirt p := by
  rw [slotAddr, BitVec.zero_mul, BitVec.add_zero]

theorem slotAddr_succ (p : ℕ) (sz : Word) (i : ℕ) :
    slotAddr p sz (i + 1) = slotAddr p sz i + sz := by
  rw [slotAddr, slotAddr, BitVec.ofNat_add, BitVec.add_mul, BitVec.one_mul,
    BitVec.add_assoc]

/-- The pages on which the bytes of a block's prefix lie. -/
theorem virtToPage_mem_of_inRange {b : Block} {x : Word} {n : ℕ} (hb : b.stop ≤ directMapPages)
    (hn : n ≤ 4096 * 2 ^ b.order) (hx : InRange (pageToVirt b.start) n x) : virtToPage x ∈ b := by
  have hpos := Nat.two_pow_pos b.order
  have hstart : b.start < directMapPages := by
    unfold Block.stop at hb
    omega
  have hbase := toNat_pageToVirt hstart
  unfold directMapPages Block.stop at hb
  unfold InRange at hx
  rw [virtToPage_eq, Block.mem_iff]
  rw [BitVec.toNat_sub] at hx ⊢
  rw [toNat_physmemBase]
  omega

section Slots

variable {b : Block} {sz n : Word} {i j k : ℕ} {x : Word}

/-- A slab: n objects of size sz fit into the block. -/
structure SlabFits (b : Block) (sz n : Word) : Prop where
  stop : b.stop ≤ directMapPages
  pos : 0 < sz.toNat
  fits : n.toNat * sz.toNat ≤ 4096 * 2 ^ b.order

theorem SlabFits.slot_end (h : SlabFits b sz n) (hi : i < n.toNat) :
    i * sz.toNat + sz.toNat ≤ 4096 * 2 ^ b.order := by
  have hmul : (i + 1) * sz.toNat ≤ n.toNat * sz.toNat := Nat.mul_le_mul_right _ hi
  rw [Nat.succ_mul] at hmul
  exact hmul.trans h.fits

theorem SlabFits.toNat_slotAddr (h : SlabFits b sz n) (hi : i < n.toNat) :
    (slotAddr b.start sz i).toNat = 0xFFFF800000000000 + 4096 * b.start + i * sz.toNat := by
  have hend := h.slot_end hi
  have hstop := h.stop
  have hn := n.isLt
  have hsz := h.pos
  unfold directMapPages Block.stop at hstop
  have hoff : i * sz.toNat < 2 ^ 64 := by omega
  rw [slotAddr, BitVec.toNat_add, BitVec.toNat_mul, BitVec.toNat_ofNat,
    Nat.mod_eq_of_lt (hi.trans hn), Nat.mod_eq_of_lt hoff,
    toNat_pageToVirt (by unfold directMapPages; omega), Nat.mod_eq_of_lt (by omega)]

theorem SlabFits.slotAddr_ne_zero (h : SlabFits b sz n) (hi : i < n.toNat) :
    slotAddr b.start sz i ≠ 0#64 := by
  intro hzero
  have haddr := h.toNat_slotAddr hi
  rw [hzero] at haddr
  simp only [BitVec.toNat_ofNat, Nat.zero_mod] at haddr
  omega

/-- Membership in the first k bytes of an object, in natural numbers. -/
theorem SlabFits.inRange_slot (h : SlabFits b sz n) (hi : i < n.toNat) (hk : k ≤ sz.toNat) :
    InRange (slotAddr b.start sz i) k x ↔
      0xFFFF800000000000 + 4096 * b.start + i * sz.toNat ≤ x.toNat ∧
        x.toNat < 0xFFFF800000000000 + 4096 * b.start + i * sz.toNat + k := by
  have haddr := h.toNat_slotAddr hi
  have hend := h.slot_end hi
  have hstop := h.stop
  unfold directMapPages Block.stop at hstop
  rw [inRange_iff (by omega), haddr]

theorem SlabFits.virtToPage_mem (h : SlabFits b sz n) (hi : i < n.toNat) (hk : k ≤ sz.toNat)
    (hx : InRange (slotAddr b.start sz i) k x) : virtToPage x ∈ b := by
  have hend := h.slot_end hi
  have hstop := h.stop
  rw [h.inRange_slot hi hk] at hx
  unfold directMapPages Block.stop at hstop
  rw [virtToPage_eq, Block.mem_iff, BitVec.toNat_sub, toNat_physmemBase]
  omega

theorem SlabFits.virtToPage_slot (h : SlabFits b sz n) (hi : i < n.toNat) :
    virtToPage (slotAddr b.start sz i) ∈ b := by
  apply h.virtToPage_mem hi (Nat.le_refl _)
  rw [InRange, BitVec.sub_self]
  exact h.pos

/-- Two objects of a slab do not overlap. -/
theorem SlabFits.slots_apart (h : SlabFits b sz n) (hi : i < n.toNat) (hj : j < n.toNat)
    (hij : i ≠ j) (hk : k ≤ sz.toNat) (hx : InRange (slotAddr b.start sz i) k x) :
    ¬ InRange (slotAddr b.start sz j) k x := by
  rw [h.inRange_slot hi hk] at hx
  rw [h.inRange_slot hj hk]
  rcases Nat.lt_or_gt_of_ne hij with hlt | hlt
  · have hmul : (i + 1) * sz.toNat ≤ j * sz.toNat := Nat.mul_le_mul_right _ hlt
    rw [Nat.succ_mul] at hmul
    omega
  · have hmul : (j + 1) * sz.toNat ≤ i * sz.toNat := Nat.mul_le_mul_right _ hlt
    rw [Nat.succ_mul] at hmul
    omega

theorem SlabFits.slotAddr_inj (h : SlabFits b sz n) (hi : i < n.toNat) (hj : j < n.toNat)
    (heq : slotAddr b.start sz i = slotAddr b.start sz j) : i = j := by
  by_contra hij
  have hself : InRange (slotAddr b.start sz i) sz.toNat (slotAddr b.start sz i) := by
    rw [InRange, BitVec.sub_self]
    exact h.pos
  exact h.slots_apart hi hj hij (Nat.le_refl _) hself (heq ▸ hself)

/-- The links of other objects survive a store to the first word of an object. -/
theorem SlabFits.load64_store64 (h : SlabFits b sz n) (hsz : 8 ≤ sz.toNat) (hi : i < n.toNat)
    (hj : j < n.toNat) (hij : i ≠ j) (m : Memory) (v : Word) :
    load64 (store64 m (slotAddr b.start sz j) v) (slotAddr b.start sz i) =
      load64 m (slotAddr b.start sz i) :=
  load64_store64_of_apart fun _ hx => h.slots_apart hi hj hij hsz hx

/-- The objects of the first k slots, last one first. -/
def slots (p : ℕ) (sz : Word) (k : ℕ) : List Word := (List.range k).reverse.map (slotAddr p sz)

theorem slots_succ (p : ℕ) (sz : Word) (k : ℕ) :
    slots p sz (k + 1) = slotAddr p sz k :: slots p sz k := by
  rw [slots, List.range_succ, List.reverse_append]
  rfl

theorem mem_slots {p : ℕ} {a : Word} : a ∈ slots p sz k ↔ ∃ i, i < k ∧ a = slotAddr p sz i := by
  simp only [slots, List.mem_map, List.mem_reverse, List.mem_range]
  constructor
  · rintro ⟨i, hi, rfl⟩
    exact ⟨i, hi, rfl⟩
  · rintro ⟨i, hi, rfl⟩
    exact ⟨i, hi, rfl⟩

theorem SlabFits.virtToPage_of_mem_slots (h : SlabFits b sz n) {a : Word}
    (ha : a ∈ slots b.start sz n.toNat) : virtToPage a ∈ b := by
  obtain ⟨i, hi, rfl⟩ := mem_slots.mp ha
  exact h.virtToPage_slot hi

theorem length_slots (p : ℕ) (sz : Word) (k : ℕ) : (slots p sz k).length = k := by
  simp [slots]

theorem SlabFits.nodup_slots (h : SlabFits b sz n) : (slots b.start sz n.toNat).Nodup := by
  refine List.Nodup.map_on ?_ (List.nodup_reverse.mpr List.nodup_range)
  intro i hi j hj heq
  rw [List.mem_reverse, List.mem_range] at hi hj
  exact h.slotAddr_inj hi hj heq

/-- An object lies inside the bytes of its block. -/
theorem SlabFits.inRange_block (h : SlabFits b sz n) (hi : i < n.toNat) (hk : k ≤ sz.toNat)
    (hx : InRange (slotAddr b.start sz i) k x) :
    InRange (pageToVirt b.start) (4096 * 2 ^ b.order) x := by
  have hend := h.slot_end hi
  have hstop := h.stop
  have hpos := Nat.two_pow_pos b.order
  unfold directMapPages Block.stop at hstop
  have hbase := toNat_pageToVirt (p := b.start) (by unfold directMapPages; omega)
  rw [h.inRange_slot hi hk] at hx
  rw [inRange_iff (by omega), hbase]
  omega

/-- What the slicing loop has done after k rounds: the first k objects are chained,
and no byte outside the block is written. -/
theorem SlabFits.slicing (h : SlabFits b sz n) (hsz : 8 ≤ sz.toNat) (m : Memory) :
    k ≤ n.toNat → ∃ m' head, (HeapState.sliceStep sz)^[k] (m, 0#64, pageToVirt b.start) =
        (m', head, slotAddr b.start sz k) ∧
      Chain (load64 m') 0#64 head (slots b.start sz k) ∧
      ∀ x, ¬ InRange (pageToVirt b.start) (4096 * 2 ^ b.order) x → m' x = m x := by
  induction k with
  | zero =>
    intro _
    exact ⟨m, 0#64, by rw [slotAddr_zero]; rfl, rfl, fun _ _ => rfl⟩
  | succ k ih =>
    intro hk
    obtain ⟨m', head, hloop, hchain, hframe⟩ := ih (Nat.le_of_succ_le hk)
    refine ⟨store64 m' (slotAddr b.start sz k) head, slotAddr b.start sz k, ?_, ?_, ?_⟩
    · rw [Function.iterate_succ_apply', hloop, HeapState.sliceStep, slotAddr_succ]
    · rw [slots_succ]
      refine Chain.push ?_ (h.slotAddr_ne_zero hk) (load64_store64_same _ _ _)
      refine hchain.congr fun a ha => ?_
      obtain ⟨i, hi, rfl⟩ := mem_slots.mp ha
      exact (h.load64_store64 hsz (hi.trans hk) hk (Nat.ne_of_lt hi) _ _).symm
    · intro x hx
      rw [store64_of_not_inRange (fun hr => hx (h.inRange_block hk hsz hr))]
      exact hframe x hx

end Slots

end ClosureOS
