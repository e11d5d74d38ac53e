import ClosureOS.PoolSplit

/-!
FreePages directly after AllocPages. The merge loop takes back every half that the split
put on a list, and so reaches the order the block had. There it stops if the next buddy is
not the head of a free block. If that buddy heads a free block, its order is smaller, and
the loop goes on all the same since it does not compare orders.
-/
namespace ClosureOS

open DyadicBlocks PoolState

/-- Lists of whole free blocks, no two of them buddies that could be merged. -/
structure Coalesced (pid : ℕ) (s : PoolState) : Prop where
  lists : FreeLists pid s
  noBuddies : ∀ b ∈ s.freeBlocks pid, b.order < maxPageOrder - 1 →
    ⟨getPageBuddy b.start b.order, b.order⟩ ∉ s.freeBlocks pid
  free_only : ∀ q, (s.pgdb q).isFree = true → Covered (s.freeBlocks pid) q

/-- The buddy of the block that AllocPages is about to split is free in part, with a free
block at its start. -/
def BuddyPartlyFree (pid : ℕ) (s : PoolState) (order : ℕ) : Prop :=
  ∃ j p, s.allocSearch pid order = some (j, p) ∧ j < maxPageOrder - 1 ∧
    ∃ o, ⟨getPageBuddy p j, o⟩ ∈ s.freeBlocks pid

variable {pid : ℕ} {s s' t : PoolState} {p k j order n : ℕ} {b : Block}

/-- The merge loop takes the upper halves back, from the smallest one upwards. -/
theorem combinePages_halves {l : List Block} (hdvd : 2 ^ j ∣ p) (hkj : k ≤ j) :
    ∀ {s : PoolState}, Separated (s.freeBlocks pid) →
      (s.freeBlocks pid).Perm (halves p k j ++ l) →
      (∀ i, k ≤ i → i < j → s.CanCombine (p + 2 ^ i)) →
      ∃ t, combinePages (j - k + n) p k s = combinePages n p j t ∧ t.pgdb = s.pgdb ∧
        (t.freeBlocks pid).Perm l := by
  induction hd : j - k generalizing k with
  | zero =>
    obtain rfl : k = j := by omega
    intro s _ hperm _
    rw [halves_self] at hperm
    exact ⟨s, by rw [Nat.zero_add], rfl, hperm⟩
  | succ d ih =>
    intro s hsep hperm hcan
    have hlt : k < j := by omega
    have hbuddy := getPageBuddy_of_dvd hdvd hlt
    have hstep : s.combineStep p (p + 2 ^ k) = (p, s.listDel (p + 2 ^ k)) := by
      rw [combineStep, if_neg (Nat.not_lt.mpr (Nat.le_add_right _ _))]
    rw [halves_cons p hlt, List.cons_append] at hperm
    have hmem : ⟨p + 2 ^ k, k⟩ ∈ s.freeBlocks pid := hperm.mem_iff.mpr List.mem_cons_self
    have hdel := freeBlocks_listDel_of_separated hsep hmem
    obtain ⟨t, heq, hpgdb, hrest⟩ := ih hlt (by omega) (hsep.perm hdel).tail
      ((List.perm_cons _).mp (hdel.symm.trans hperm)) (fun i hi => hcan i (by omega))
    refine ⟨t, ?_, hpgdb, hrest⟩
    rw [Nat.succ_add_eq_add_succ, Nat.add_succ, combinePages, hbuddy,
      if_pos (hcan k (Nat.le_refl k) hlt), hstep]
    exact heq

/-- Where the merge loop stands when it reaches the order j that was split. -/
structure Regained (pid : ℕ) (s : PoolState) (p j : ℕ) (t : PoolState) : Prop where
  aligned : 2 ^ j ∣ p
  blocks : (s.freeBlocks pid).Perm (⟨p, j⟩ :: t.freeBlocks pid)
  frame : ∀ q, q ∉ (⟨p, j⟩ : Block) → t.pgdb q = s.pgdb q

theorem freePages_regains (h : FreeLists pid s) (halloc : s.allocPages pid k = (some p, s')) :
    ∃ j t, s.allocSearch pid k = some (j, p) ∧ k < maxPageOrder ∧ j < maxPageOrder ∧
      Regained pid s p j t ∧
      combinePages (maxPageOrder - 1 - k) p k s' = combinePages (maxPageOrder - 1 - j) p j t := by
  obtain ⟨j, hsearch, hperm, hres⟩ := allocPages_splitResult h halloc
  obtain ⟨hle, hmem, _, _⟩ := allocSearch_eq_some hsearch
  have hj := hres.lt_max
  have hdvd : 2 ^ j ∣ p := h.separated.aligned _ hmem
  have hcan : ∀ i, k ≤ i → i < j → s'.CanCombine (p + 2 ^ i) := by
    intro i hki hij
    have hhalf : ⟨p + 2 ^ i, i⟩ ∈ halves p k j :=
      List.mem_map.mpr ⟨i, List.mem_range'_1.mpr ⟨hki, by omega⟩, rfl⟩
    obtain ⟨htype, hfree, _, hhead⟩ := hres.freeLists.entries ⟨p + 2 ^ i, i⟩
      (hperm.mem_iff.mpr (List.mem_append_left _ hhalf)) _ (Block.start_mem _)
    exact ⟨htype, hhead.mpr rfl, hfree⟩
  obtain ⟨t, heq, hpgdb, hrest⟩ := combinePages_halves (n := maxPageOrder - 1 - j) hdvd hle
    hres.freeLists.separated hperm hcan
  refine ⟨j, t, hsearch, hle.trans_lt hj, hj, ⟨hdvd, ?_, fun q hq => ?_⟩, ?_⟩
  · exact (freeBlocks_listDel_of_separated h.separated hmem).trans (hrest.symm.cons _)
  · rw [hpgdb]
    exact hres.frame q hq
  · have hlen : maxPageOrder - 1 - k = j - k + (maxPageOrder - 1 - j) := by
      unfold maxPageOrder at *
      omega
    rw [hlen]
    exact heq

/-- The test of the merge loop on the buddy of the block that was split. -/
theorem Regained.canCombine_iff (h : Coalesced pid s) (ht : Regained pid s p j t) :
    t.CanCombine (getPageBuddy p j) ↔ ∃ o, ⟨getPageBuddy p j, o⟩ ∈ s.freeBlocks pid := by
  rw [CanCombine, ht.frame _ (getPageBuddy_not_mem ht.aligned)]
  constructor
  · rintro ⟨_, hhead, hfree⟩
    obtain ⟨b, hb, hmem⟩ := h.free_only _ hfree
    have hstart := (h.lists.entries b hb _ hmem).2.2.2.mp hhead
    exact ⟨b.order, hstart ▸ hb⟩
  · rintro ⟨o, hb⟩
    obtain ⟨htype, hfree, _, hhead⟩ := h.lists.entries _ hb _ (Block.start_mem _)
    exact ⟨htype, hhead.mpr rfl, hfree⟩

theorem freePages_blocks (pid p : ℕ) {k : ℕ} (hk : k < maxPageOrder) (s : PoolState) :
    ((s.freePages pid (some p) k).freeBlocks pid).Perm
      (⟨(combinePages (maxPageOrder - 1 - k) p k s).1,
        (combinePages (maxPageOrder - 1 - k) p k s).2.1⟩ ::
        (combinePages (maxPageOrder - 1 - k) p k s).2.2.freeBlocks pid) := by
  have hlt := (combinePages_order_le (maxPageOrder - 1 - k) p k s).trans_lt
    (show k + (maxPageOrder - 1 - k) < maxPageOrder by omega)
  simp only [freePages, if_neg (Nat.not_le.mpr hk)]
  exact freeBlocks_listAddNext _ pid _ hlt

/-- FreePages after AllocPages restores the free blocks, unless the buddy of the block that
was split heads a free block. -/
theorem freePages_undoes_allocPages (h : Coalesced pid s)
    (halloc : s.allocPages pid k = (some p, s')) :
    (∀ b, b ∈ (s'.freePages pid (some p) k).freeBlocks pid ↔ b ∈ s.freeBlocks pid) ↔
      ¬ BuddyPartlyFree pid s k := by
  obtain ⟨j, t, hsearch, hk, hj, ht, heq⟩ := freePages_regains h.lists halloc
  have hblocks := freePages_blocks pid p hk s'
  rw [heq] at hblocks
  have hpartly : BuddyPartlyFree pid s k ↔
      j < maxPageOrder - 1 ∧ t.CanCombine (getPageBuddy p j) := by
    rw [ht.canCombine_iff h]
    constructor
    · rintro ⟨i, r, hsearch', hi, o, hb⟩
      obtain ⟨rfl, rfl⟩ := Prod.mk.inj (Option.some.inj (hsearch.symm.trans hsearch'))
      exact ⟨hi, o, hb⟩
    · rintro ⟨hi, o, hb⟩
      exact ⟨j, p, hsearch, hi, o, hb⟩
  rw [hpartly]
  constructor
  · rintro hsame ⟨hlt, hcan⟩
    -- the loop goes past order j, and nothing of order j at p is left on the lists
    obtain ⟨n, hn⟩ : ∃ n, maxPageOrder - 1 - j = n + 1 := ⟨maxPageOrder - 2 - j, by omega⟩
    have hmem := (hsame ⟨p, j⟩).mpr (ht.blocks.mem_iff.mpr List.mem_cons_self)
    rw [hblocks.mem_iff, hn, combinePages, if_pos hcan] at hmem
    have horder := le_combinePages_order n (t.combineStep p (getPageBuddy p j)).1 (j + 1)
      (t.combineStep p (getPageBuddy p j)).2
    rcases List.mem_cons.mp hmem with hnew | hold
    · have hj' := congrArg Block.order hnew
      simp only at hj'
      omega
    · have hold := mem_freeBlocks_of_combineStep (mem_freeBlocks_of_combinePages hold)
      exact ((h.lists.separated.perm ht.blocks).head_apart hold).not_mem (Block.start_mem _)
        (Block.start_mem _)
  · intro hstop b
    have hdone : combinePages (maxPageOrder - 1 - j) p j t = (p, j, t) := by
      cases hn : maxPageOrder - 1 - j with
      | zero => rfl
      | succ n => rw [combinePages, if_neg fun hcan => hstop ⟨by omega, hcan⟩]
    rw [hdone] at hblocks
    rw [hblocks.mem_iff, ht.blocks.mem_iff]

theorem fourPages_coalesced : Coalesced 0 fourPages.pool where
  lists := fourPages_freeLists
  noBuddies := by decide
  free_only := fourPages_wellFormed.free_only

/-- Pages 0 and 1 are free as one block, page 2 is free and page 3 is not. -/
def threeFreePages : PoolState where
  pgdb := fun q =>
    if q < 4 then { Page.zero with
      type := .normalMem, isFree := q != 3, isHead := q != 1, order := if q < 2 then 1 else 0 }
    else Page.zero
  freelist := fun _ k => if k = 1 then [0] else if k = 0 then [2] else []

theorem threeFreePages_freeBlocks : threeFreePages.freeBlocks 0 = [⟨2, 0⟩, ⟨0, 1⟩] := by decide

theorem threeFreePages_coalesced : Coalesced 0 threeFreePages where
  lists := by
    refine ⟨⟨by decide, by decide⟩, fun b hb q hq => ?_⟩
    rw [threeFreePages_freeBlocks] at hb
    rcases List.mem_cons.mp hb with rfl | hb
    · have hbounds : 2 ≤ q ∧ q < 3 := hq
      obtain rfl : q = 2 := by omega
      decide
    · obtain rfl := List.mem_singleton.mp hb
      have hbounds : 0 ≤ q ∧ q < 2 := hq
      obtain rfl | rfl : q = 0 ∨ q = 1 := by omega
      · decide
      · decide
  noBuddies := by decide
  free_only q hq := by
    by_cases hlt : q < 4
    · have hne : q ≠ 3 := by
        rintro rfl
        exact absurd hq (by decide)
      by_cases hlow : q < 2
      · exact ⟨⟨0, 1⟩, by decide, Nat.zero_le q, hlow⟩
      · exact ⟨⟨2, 0⟩, by decide, Nat.not_lt.mp hlow, by simp only [Block.stop]; omega⟩
    · simp [threeFreePages, hlt, Page.zero] at hq

/-- One page is taken out of a block of four and given back: the block is there again. Pages 0
and 1 of the other pool are not, since page 2 is the head of their buddy and free. -/
theorem freePages_undoes_allocPages_fourPages :
    (∀ b, b ∈ ((fourPages.pool.allocPages 0 0).2.freePages 0 (some 0) 0).freeBlocks 0 ↔
      b ∈ fourPages.pool.freeBlocks 0) ∧
    ¬ ∀ b, b ∈ ((threeFreePages.allocPages 0 1).2.freePages 0 (some 0) 1).freeBlocks 0 ↔
      b ∈ threeFreePages.freeBlocks 0 := by
  constructor
  · refine (freePages_undoes_allocPages fourPages_coalesced (Prod.ext (by decide) rfl)).mpr ?_
    rintro ⟨j, p, hsearch, _, o, hbuddy⟩
    have hfirst : fourPages.pool.allocSearch 0 0 = some (2, 0) := by decide
    obtain ⟨rfl, rfl⟩ := Prod.mk.inj (Option.some.inj (hfirst.symm.trans hsearch))
    rw [fourPages_freeBlocks, List.mem_singleton] at hbuddy
    have hstart : getPageBuddy 0 2 = 0 := congrArg Block.start hbuddy
    exact absurd hstart (by decide)
  · rw [freePages_undoes_allocPages threeFreePages_coalesced (Prod.ext (by decide) rfl)]
    exact not_not.mpr ⟨1, 0, by decide, by decide, 0, by decide⟩

/-- Taking pages 0 and 1 and giving them back absorbs page 2 as a block of order 1. -/
theorem freePages_not_undoes_allocPages :
    ¬ ∀ (pid : ℕ) (s s' : PoolState) (k p : ℕ), Coalesced pid s →
      s.allocPages pid k = (some p, s') →
      ∀ b, b ∈ (s'.freePages pid (some p) k).freeBlocks pid ↔ b ∈ s.freeBlocks pid := by
  intro hall
  have hmem := (hall 0 threeFreePages _ 1 0 threeFreePages_coalesced
    (Prod.ext (by decide) rfl) ⟨0, 1⟩).mpr (by decide)
  revert hmem
  decide

end ClosureOS
