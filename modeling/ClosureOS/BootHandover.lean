import ClosureOS.PoolPartition

/-!
The hand-over of the boot memory map to the buddy system: pages_pool_init in
mm/mm_main.cppm frees the eligible pages of the page database one at a time, in
ascending order. The loop always lists every eligible page; it lists nothing else
exactly when no full upper half ever meets a lower half with a hole in it.
-/
namespace ClosureOS

open DyadicBlocks PoolState

/-- The pages that pages_pool_init hands over: available and not in use. -/
def Eligible (nr : ℕ) (g : Pgdb) (i : ℕ) : Prop :=
  i < nr ∧ (g i).type = .normalMem ∧ (g i).refCount.slt 0#32

/-- The body of the loop of pages_pool_init. -/
def poolInitStep (s : PoolState) (i : ℕ) : PoolState :=
  if (s.pgdb i).type = .normalMem ∧ (s.pgdb i).refCount.slt 0#32 then
    s.addPages globlPagePool i 0
  else s

/-- pages_pool_init for pgdb_page_nr = nr. The loop counter is an int, so the
increment after index 2^31 - 1 is undefined: none. -/
def pagesPoolInit (nr : ℕ) (s : PoolState) : Option PoolState :=
  (List.range nr).foldlM
    (fun s i => if i = 2 ^ 31 - 1 then none else some (poolInitStep s i)) (s.init globlPagePool)

theorem pagesPoolInit_eq {nr : ℕ} (hnr : nr < 2 ^ 31) (s : PoolState) :
    pagesPoolInit nr s = some ((List.range nr).foldl poolInitStep (s.init globlPagePool)) := by
  unfold pagesPoolInit
  induction nr with
  | zero => rfl
  | succ n ih =>
    have hn : n ≠ 2 ^ 31 - 1 := by omega
    rw [List.range_succ, List.foldlM_append, ih (by omega), List.foldl_append]
    simp only [Option.bind_eq_bind, Option.bind_some, List.foldlM_cons, List.foldlM_nil, if_neg hn]
    rfl

/-- A full upper half next to a lower half whose first page is eligible and which
has a hole. -/
def HalfHole (E : ℕ → Prop) (p o : ℕ) : Prop :=
  1 ≤ o ∧ o ≤ 9 ∧ 2 ^ (o + 1) ∣ p ∧ E p ∧ (∀ i ∈ (⟨p + 2 ^ o, o⟩ : Block), E i) ∧
    ∃ i ∈ (⟨p, o⟩ : Block), ¬ E i

/-- The free blocks after the hand-over are disjoint and consist of the eligible
pages. -/
def HandsOverExactly (nr : ℕ) (s : PoolState) : Prop :=
  ∃ s', pagesPoolInit nr s = some s' ∧ (s'.freeBlocks globlPagePool).Pairwise Block.Apart ∧
    ∀ i, Covered (s'.freeBlocks globlPagePool) i ↔ Eligible nr s.pgdb i

/-! ### Freeing the next page: what always holds -/

section Base

variable {g : Pgdb} {i p k : ℕ} {s : PoolState}

/-- Pages below i are listed at most, pages from i on are untouched. -/
structure HandoverBase (g : Pgdb) (i : ℕ) (s : PoolState) : Prop where
  stop : ∀ b ∈ s.freeBlocks globlPagePool, b.stop ≤ i
  fresh : ∀ q, i ≤ q → s.pgdb q = g q

/-- The merge loop while page i is freed: the current block ends at page i. -/
structure LoopBase (g : Pgdb) (i p k : ℕ) (s : PoolState) : Prop where
  aligned : 2 ^ k ∣ p
  last : p + 2 ^ k = i + 1
  stop : ∀ b ∈ s.freeBlocks globlPagePool, b.stop ≤ i
  fresh : ∀ q, i < q → s.pgdb q = g q

/-- Only a lower half can be absorbed: the upper one was not freed yet. -/
theorem LoopBase.buddy_lower (hg : ∀ q, (g q).isFree = false) (h : LoopBase g i p k s)
    (hc : s.CanCombine (getPageBuddy p k)) :
    2 ^ (k + 1) ∣ getPageBuddy p k ∧ p = getPageBuddy p k + 2 ^ k := by
  rw [getPageBuddy_eq] at hc ⊢
  rcases merge_cases h.aligned with ⟨_, he⟩ | hupper
  · have hlast := h.last
    have hfree := hc.2.2
    rw [h.fresh _ (by omega), hg] at hfree
    exact absurd hfree (by simp)
  · exact hupper

theorem LoopBase.combine (hg : ∀ q, (g q).isFree = false) (h : LoopBase g i p k s)
    (hc : s.CanCombine (getPageBuddy p k)) :
    LoopBase g i (s.combineStep p (getPageBuddy p k)).1 (k + 1)
      (s.combineStep p (getPageBuddy p k)).2 := by
  obtain ⟨hdvd, hp⟩ := h.buddy_lower hg hc
  have hlast := h.last
  have hmin : min p (getPageBuddy p k) = getPageBuddy p k := by omega
  rw [combineStep_fst, hmin]
  refine ⟨hdvd, by omega, fun b hb => h.stop b (mem_freeBlocks_of_combineStep hb), ?_⟩
  intro q hq
  rw [combineStep_pgdb _ _ _ _ (by omega)]
  exact h.fresh q hq

/-- Absorbing never uncovers a page, whatever the order of the buddy. -/
theorem LoopBase.combine_cover (hg : ∀ q, (g q).isFree = false) (h : LoopBase g i p k s)
    (hc : s.CanCombine (getPageBuddy p k)) {j : ℕ}
    (hj : j ∈ (⟨p, k⟩ : Block) ∨ Covered (s.freeBlocks globlPagePool) j) :
    j ∈ (⟨(s.combineStep p (getPageBuddy p k)).1, k + 1⟩ : Block) ∨
      Covered ((s.combineStep p (getPageBuddy p k)).2.freeBlocks globlPagePool) j := by
  obtain ⟨_, hp⟩ := h.buddy_lower hg hc
  have hlast := h.last
  have hmin : min p (getPageBuddy p k) = getPageBuddy p k := by omega
  rw [combineStep_fst, hmin]
  rcases hj with hj | ⟨b, hb, hj⟩
  · rw [hp] at hj
    exact Or.inl (mem_parent.mpr (Or.inr hj))
  · by_cases hstart : b.start = getPageBuddy p k
    · have hstop := h.stop b hb
      have hlow := hj.1
      have hhigh := hj.2
      refine Or.inl ⟨?_, ?_⟩ <;> simp only [Block.stop] at hhigh hstop ⊢ <;> omega
    · exact Or.inr ⟨b, mem_freeBlocks_combineStep_of_ne hb hstart, hj⟩

theorem LoopBase.combinePages (hg : ∀ q, (g q).isFree = false) (n : ℕ) (h : LoopBase g i p k s) :
    LoopBase g i (combinePages n p k s).1 (combinePages n p k s).2.1 (combinePages n p k s).2.2 :=
  combinePages_invariant (I := LoopBase g i) (fun _ _ _ h hc => h.combine hg hc) n h

theorem LoopBase.combinePages_cover (hg : ∀ q, (g q).isFree = false) (n : ℕ) {j : ℕ}
    (h : LoopBase g i p k s) (hj : j ∈ (⟨p, k⟩ : Block) ∨ Covered (s.freeBlocks globlPagePool) j) :
    j ∈ (⟨(PoolState.combinePages n p k s).1, (PoolState.combinePages n p k s).2.1⟩ : Block) ∨
      Covered ((PoolState.combinePages n p k s).2.2.freeBlocks globlPagePool) j :=
  (combinePages_invariant
    (I := fun p k s => LoopBase g i p k s ∧
      (j ∈ (⟨p, k⟩ : Block) ∨ Covered (s.freeBlocks globlPagePool) j))
    (fun _ _ _ h hc => ⟨h.1.combine hg hc, h.1.combine_cover hg hc h.2⟩) n ⟨h, hj⟩).2

/-- The state in which the merge loop of AddPages(i, 0) starts. -/
def addedPage (s : PoolState) (i : ℕ) : PoolState :=
  s.setPage i { s.pgdb i with pool := some globlPagePool }

/-- The end of __free_pages: the current block is listed. -/
def listBlock (r : ℕ × ℕ × PoolState) : PoolState :=
  (r.2.2.reinit r.1 r.2.1 true).listAddNext globlPagePool r.2.1 r.1

theorem poolInitStep_eq (s : PoolState) (i : ℕ) :
    poolInitStep s i =
      if (s.pgdb i).type = .normalMem ∧ (s.pgdb i).refCount.slt 0#32 then
        listBlock (combinePages 10 i 0 (addedPage s i))
      else s := by
  have hone : List.range (1 <<< 0) = [0] := rfl
  have hnot : ¬ 0 ≥ maxPageOrder := by decide
  simp only [poolInitStep, addPages, hone, List.foldl_cons, List.foldl_nil, freePages, if_neg hnot]
  rfl

theorem freeBlocks_listBlock {p k : ℕ} {s : PoolState} (hk : k < maxPageOrder) :
    ((listBlock (p, k, s)).freeBlocks globlPagePool).Perm
      (⟨p, k⟩ :: s.freeBlocks globlPagePool) :=
  freeBlocks_listAddNext (s.reinit p k true) globlPagePool p hk

theorem HandoverBase.start (h : HandoverBase g i s) : LoopBase g i i 0 (addedPage s i) where
  aligned := Nat.one_dvd i
  last := rfl
  stop b hb := h.stop b hb
  fresh q hq := by
    rw [← h.fresh q (Nat.le_of_lt hq)]
    exact Function.update_of_ne (Nat.ne_of_gt hq) _ _

theorem LoopBase.finish (h : LoopBase g i p k s) (hk : k < maxPageOrder) :
    HandoverBase g (i + 1) (listBlock (p, k, s)) := by
  have hlast := h.last
  constructor
  · intro b hb
    rcases List.mem_cons.mp ((freeBlocks_listBlock hk).mem_iff.mp hb) with rfl | hb
    · exact Nat.le_of_eq hlast
    · exact Nat.le_succ_of_le (h.stop b hb)
  · intro q hq
    refine (reinit_pgdb_of_not_mem ?_).trans (h.fresh q hq)
    rw [Block.mem_iff]
    simp only
    omega

/-- A round of the hand-over keeps what is listed and touches no later page. -/
theorem HandoverBase.step (hg : ∀ q, (g q).isFree = false) (h : HandoverBase g i s) :
    HandoverBase g (i + 1) (poolInitStep s i) ∧
      ∀ j, Covered (s.freeBlocks globlPagePool) j →
        Covered ((poolInitStep s i).freeBlocks globlPagePool) j := by
  rw [poolInitStep_eq]
  by_cases he : (s.pgdb i).type = .normalMem ∧ (s.pgdb i).refCount.slt 0#32
  · have hle : (PoolState.combinePages 10 i 0 (addedPage s i)).2.1 < maxPageOrder :=
      Nat.lt_succ_of_le (combinePages_order_le 10 i 0 (addedPage s i))
    rw [if_pos he]
    refine ⟨(h.start.combinePages hg 10).finish hle, ?_⟩
    intro j hj
    rcases h.start.combinePages_cover hg 10 (Or.inr hj) with hj | ⟨b, hb, hj⟩
    · exact ⟨_, (freeBlocks_listBlock hle).mem_iff.mpr List.mem_cons_self, hj⟩
    · exact ⟨b, (freeBlocks_listBlock hle).mem_iff.mpr (List.mem_cons_of_mem _ hb), hj⟩
  · rw [if_neg he]
    exact ⟨⟨fun b hb => Nat.le_succ_of_le (h.stop b hb),
      fun q hq => h.fresh q (Nat.le_of_succ_le hq)⟩, fun _ hj => hj⟩

end Base

/-! ### Freeing the next page: maximal blocks -/

section Exact

variable {E : ℕ → Prop} {g : Pgdb} {i p k : ℕ} {s : PoolState}

/-- The listed blocks lie inside E, their heads carry the flags of a free block, and
every aligned block of pages of E below limit is inside a listed one. -/
structure Maximal (E : ℕ → Prop) (limit : ℕ) (s : PoolState) : Prop where
  entry : ∀ b ∈ s.freeBlocks globlPagePool, s.CanCombine b.start
  inside : ∀ b ∈ s.freeBlocks globlPagePool, ∀ j ∈ b, E j
  maximal : ∀ a : Block, a.Aligned → a.order < maxPageOrder → (∀ j ∈ a, E j ∧ j < limit) →
    ∃ b ∈ s.freeBlocks globlPagePool, ∀ j ∈ a, j ∈ b

structure HandoverExact (E : ℕ → Prop) (g : Pgdb) (i : ℕ) (s : PoolState) : Prop extends
    HandoverBase g i s, PoolInv globlPagePool s [], Maximal E i s

structure LoopExact (E : ℕ → Prop) (g : Pgdb) (i p k : ℕ) (s : PoolState) : Prop extends
    LoopBase g i p k s, OpenInv globlPagePool s ⟨p, k⟩ [], Maximal E p s where
  current : ∀ j ∈ (⟨p, k⟩ : Block), E j
  currentType : (s.pgdb p).type = .normalMem

theorem LoopExact.apart (h : LoopExact E g i p k s) {b : Block}
    (hb : b ∈ s.freeBlocks globlPagePool) : Block.Apart ⟨p, k⟩ b :=
  h.separated.head_apart (List.mem_append_left _ hb)

theorem LoopExact.block_aligned (h : LoopExact E g i p k s) {b : Block}
    (hb : b ∈ s.freeBlocks globlPagePool) : b.Aligned :=
  h.separated.aligned b (List.mem_cons_of_mem _ (List.mem_append_left _ hb))

/-- No listed block reaches from the lower half over the current upper half. -/
theorem LoopExact.listed_order_le (h : LoopExact E g i p k s) {q : ℕ} (hq : 2 ^ (k + 1) ∣ q)
    (hp : p = q + 2 ^ k) {b : Block} (hb : b ∈ s.freeBlocks globlPagePool) (hqb : q ∈ b) :
    b.order ≤ k := by
  by_contra hlt
  have hpq : p ∈ (⟨q, k + 1⟩ : Block) := by
    rw [hp]
    exact mem_parent.mpr (Or.inr (Block.start_mem ⟨q + 2 ^ k, k⟩))
  have hpb := mem_of_start_mem (a := ⟨q, k + 1⟩) hq (h.block_aligned hb) (Nat.not_le.mp hlt)
    ⟨q, Block.start_mem ⟨q, k + 1⟩, hqb⟩ p hpq
  exact (h.apart hb).not_mem (Block.start_mem ⟨p, k⟩) hpb

/-- When all pages of the lower half are eligible, the lower half is listed whole. -/
theorem LoopExact.lower_listed (h : LoopExact E g i p k s) (hk : k < maxPageOrder) {q : ℕ}
    (hq : 2 ^ (k + 1) ∣ q) (hp : p = q + 2 ^ k) (hE : ∀ j ∈ (⟨q, k⟩ : Block), E j) :
    ⟨q, k⟩ ∈ s.freeBlocks globlPagePool := by
  have hal : Block.Aligned ⟨q, k⟩ := two_pow_succ_dvd hq
  obtain ⟨b, hb, hsub⟩ := h.maximal ⟨q, k⟩ hal hk
    (fun j hj => ⟨hE j hj, hj.2.trans_le (Nat.le_of_eq hp.symm)⟩)
  have hqb : q ∈ b := hsub q (Block.start_mem ⟨q, k⟩)
  have hsub' := mem_of_start_mem (h.block_aligned hb) hal (h.listed_order_le hq hp hb hqb)
    ⟨q, hqb, Block.start_mem ⟨q, k⟩⟩
  rw [eq_of_subset (a := ⟨q, k⟩) (b := b) hsub hsub']
  exact hb

/-- Absorbing a lower half that is listed whole. -/
theorem LoopExact.combine (hg : ∀ q, (g q).isFree = false) (h : LoopExact E g i p k s)
    (hc : s.CanCombine (getPageBuddy p k))
    (hb : ⟨getPageBuddy p k, k⟩ ∈ s.freeBlocks globlPagePool) :
    LoopExact E g i (s.combineStep p (getPageBuddy p k)).1 (k + 1)
      (s.combineStep p (getPageBuddy p k)).2 := by
  obtain ⟨hdvd, hp⟩ := h.toLoopBase.buddy_lower hg hc
  have hmin : min p (getPageBuddy p k) = getPageBuddy p k := by omega
  have hnot := getPageBuddy_not_mem h.aligned
  have horder : (s.pgdb (getPageBuddy p k)).order = k := by
    have hlisted := h.listed _ hnot hc.2.1 hc.2.2
    exact congrArg Block.order (h.separated.tail.eq_of_mem (List.mem_append_left _ hlisted)
      (List.mem_append_left _ hb) (Block.start_mem ⟨_, _⟩) (Block.start_mem ⟨_, k⟩))
  have hopen := h.toOpenInv.combine hc horder
  have hbase := h.toLoopBase.combine hg hc
  refine { toLoopBase := hbase, toOpenInv := hopen, toMaximal := ⟨?_, ?_, ?_⟩, current := ?_,
           currentType := ?_ }
  · intro b hb'
    have hbs := mem_freeBlocks_of_combineStep hb'
    have hne : b.start ≠ p := fun he => (h.apart hbs).not_mem (Block.start_mem ⟨p, k⟩)
      (he ▸ b.start_mem)
    have hentry := h.entry b hbs
    unfold CanCombine at hentry ⊢
    rwa [combineStep_pgdb _ _ _ _ hne]
  · exact fun b hb' => h.inside b (mem_freeBlocks_of_combineStep hb')
  · intro a hal hao hE
    rw [combineStep_fst, hmin] at hE
    obtain ⟨b, hb', hsub⟩ := h.maximal a hal hao
      (fun j hj => ⟨(hE j hj).1, (hE j hj).2.trans_le (by omega)⟩)
    refine ⟨b, mem_freeBlocks_combineStep_of_ne hb' ?_, hsub⟩
    have hle := (hsub a.start a.start_mem).1
    have hlt := (hE a.start a.start_mem).2
    omega
  · intro j hj
    rw [combineStep_fst, getPageBuddy_eq] at hj
    rw [getPageBuddy_eq] at hb
    rcases (mem_merged h.aligned).mp hj with hj | hj
    · exact h.current j hj
    · exact h.inside _ hb j hj
  · rw [combineStep_fst, hmin, combineStep_pgdb _ _ _ _ (by omega)]
    exact hc.1

/-- The condition on page i: no half with a hole meets a full half ending at i. -/
def WholeUpTo (E : ℕ → Prop) (i : ℕ) : Prop :=
  ∀ p o, HalfHole E p o → i < p + 2 ^ (o + 1)

/-- Under the condition, whatever the loop absorbs is listed whole. -/
theorem LoopExact.buddy_listed (hg : ∀ q, (g q).isFree = false) (hw : WholeUpTo E (i + 1))
    (hk : k < maxPageOrder - 1) (h : LoopExact E g i p k s)
    (hc : s.CanCombine (getPageBuddy p k)) :
    ⟨getPageBuddy p k, k⟩ ∈ s.freeBlocks globlPagePool := by
  obtain ⟨hdvd, hp⟩ := h.toLoopBase.buddy_lower hg hc
  have hlast := h.last
  have hk' : k < 10 := hk
  apply h.lower_listed (by unfold maxPageOrder; omega) hdvd hp
  have hnot := getPageBuddy_not_mem h.aligned
  have hEb : E (getPageBuddy p k) :=
    h.inside _ (h.listed _ hnot hc.2.1 hc.2.2) _ (Block.start_mem ⟨_, _⟩)
  intro j hj
  by_cases hzero : k = 0
  · subst hzero
    rw [mem_zero_iff.mp hj]
    exact hEb
  · by_contra hhole
    have hlt := hw (getPageBuddy p k) k
      ⟨by omega, by omega, hdvd, hEb, by rw [← hp]; exact h.current, j, hj, hhole⟩
    omega

/-- The merge loop under the condition. When it stops below the largest order, the
last test has failed. -/
theorem LoopExact.combinePages (hg : ∀ q, (g q).isFree = false) (hw : WholeUpTo E (i + 1))
    (n : ℕ) :
    ∀ {p k : ℕ} {s : PoolState}, n + k = maxPageOrder - 1 → LoopExact E g i p k s →
      LoopExact E g i (combinePages n p k s).1 (combinePages n p k s).2.1
        (combinePages n p k s).2.2 ∧
      ((combinePages n p k s).2.1 < maxPageOrder - 1 →
        ¬ (combinePages n p k s).2.2.CanCombine
          (getPageBuddy (combinePages n p k s).1 (combinePages n p k s).2.1)) := by
  induction n with
  | zero =>
    intro p k s hn h
    refine ⟨h, fun hlt => ?_⟩
    simp only [PoolState.combinePages] at hlt
    omega
  | succ n ih =>
    intro p k s hn h
    rw [PoolState.combinePages]
    by_cases hc : s.CanCombine (getPageBuddy p k)
    · simp only [if_pos hc]
      exact ih (by omega) (h.combine hg hc (h.buddy_listed hg hw (by omega) hc))
    · simp only [if_neg hc]
      exact ⟨h, fun _ => hc⟩

theorem HandoverExact.start (h : HandoverExact E g i s) (hE : E i)
    (htype : (s.pgdb i).type = .normalMem) : LoopExact E g i i 0 (addedPage s i) := by
  have hold : ∀ q, q ≠ i → (addedPage s i).pgdb q = s.pgdb q :=
    fun q hq => Function.update_of_ne hq _ _
  have hnot : ∀ b ∈ s.freeBlocks globlPagePool, i ∉ b := by
    intro b hb hmem
    have hstop := h.stop b hb
    have := hmem.2
    omega
  refine { toLoopBase := h.toHandoverBase.start, toOpenInv := ⟨⟨?_, ?_⟩, ?_⟩,
           toMaximal := ⟨?_, h.inside, h.maximal⟩, current := ?_, currentType := ?_ }
  · refine List.pairwise_cons.mpr ⟨?_, h.separated.apart⟩
    intro b hb
    rw [List.append_nil] at hb
    exact Or.inr (h.stop b hb)
  · intro b hb
    rcases List.mem_cons.mp hb with rfl | hb
    · exact Nat.one_dvd i
    · exact h.separated.aligned b hb
  · intro q hq hhead hfree
    have hne : q ≠ i := fun he => hq (he ▸ Block.start_mem ⟨i, 0⟩)
    rw [hold q hne] at hhead hfree ⊢
    exact h.listed q hhead hfree
  · intro b hb
    have hne : b.start ≠ i := fun he => hnot b hb (he ▸ b.start_mem)
    have hentry := h.entry b hb
    unfold CanCombine at hentry ⊢
    rwa [hold _ hne]
  · intro j hj
    rwa [mem_zero_iff.mp hj]
  · simp only [addedPage, PoolState.setPage, Function.update_self]
    exact htype

theorem getPageBuddy_upper {q : ℕ} (hq : 2 ^ (k + 1) ∣ q) : getPageBuddy (q + 2 ^ k) k = q := by
  rw [getPageBuddy_eq, xor_two_pow_of_dvd_add hq]

/-- A block that meets the one the loop stopped at is no larger, if its pages are all of E
and below i + 1. -/
theorem LoopExact.order_le_of_meets (h : LoopExact E g i p k s) (hk : k < maxPageOrder)
    (hmax : k < maxPageOrder - 1 → ¬ s.CanCombine (getPageBuddy p k)) {a : Block}
    (hal : a.Aligned) (hao : a.order < maxPageOrder) (hE : ∀ j ∈ a, E j ∧ j < i + 1) {j : ℕ}
    (hj : j ∈ a) (hjcur : j ∈ (⟨p, k⟩ : Block)) : a.order ≤ k := by
  by_contra hle
  have hlast := h.last
  have hpa : ∀ q ∈ (⟨p, k⟩ : Block), q ∈ a :=
    mem_of_start_mem h.aligned hal (by simp only; omega) ⟨j, hjcur, hj⟩
  have hp := hpa p (Block.start_mem ⟨p, k⟩)
  rcases half_cases (p := p) (k := k) h.aligned with hup | ⟨q, hq, hpq⟩
  · -- a lower half: its upper half would lie beyond page i
    have hmem := mem_of_start_mem (a := ⟨p, k + 1⟩) hup hal (by simp only; omega)
      ⟨p, Block.start_mem ⟨p, k + 1⟩, hp⟩ (p + 2 ^ k)
      (mem_parent.mpr (Or.inr (Block.start_mem ⟨p + 2 ^ k, k⟩)))
    have hbelow := (hE _ hmem).2
    omega
  · -- an upper half: its lower half is listed whole, and the test would succeed
    have hpq' : p ∈ (⟨q, k + 1⟩ : Block) := by
      rw [hpq]
      exact mem_parent.mpr (Or.inr (Block.start_mem ⟨q + 2 ^ k, k⟩))
    have hparent := mem_of_start_mem (a := ⟨q, k + 1⟩) hq hal (by simp only; omega) ⟨p, hpq', hp⟩
    have hlisted := h.lower_listed hk hq hpq
      fun r hr => (hE r (hparent r (mem_parent.mpr (Or.inl hr)))).1
    apply hmax (by omega)
    rw [hpq, getPageBuddy_upper hq]
    exact h.entry _ hlisted

/-- The block the loop stopped at is maximal, so listing it restores the invariant. -/
theorem LoopExact.finish (h : LoopExact E g i p k s) (hk : k < maxPageOrder)
    (hmax : k < maxPageOrder - 1 → ¬ s.CanCombine (getPageBuddy p k)) :
    HandoverExact E g (i + 1) (listBlock (p, k, s)) := by
  have hperm := freeBlocks_listBlock (p := p) (s := s) hk
  have hlast := h.last
  refine { toHandoverBase := h.toLoopBase.finish hk, toPoolInv := h.toOpenInv.close_free hk,
           toMaximal := ⟨?_, ?_, ?_⟩ }
  · intro b hb
    rcases List.mem_cons.mp (hperm.mem_iff.mp hb) with rfl | hb
    · have hmem := Block.start_mem ⟨p, k⟩
      simp only [CanCombine, listBlock, listAddNext_pgdb, reinit_pgdb_of_mem hmem, reinitEntry,
        beq_self_eq_true]
      exact ⟨h.currentType, trivial, trivial⟩
    · have hnot : b.start ∉ (⟨p, k⟩ : Block) := (h.apart hb).symm.not_mem b.start_mem
      have hentry := h.entry b hb
      simp only [CanCombine, listBlock, listAddNext_pgdb, reinit_pgdb_of_not_mem hnot]
      exact hentry
  · intro b hb
    rcases List.mem_cons.mp (hperm.mem_iff.mp hb) with rfl | hb
    · exact h.current
    · exact h.inside b hb
  · intro a hal hao hE
    by_cases hlow : ∀ j ∈ a, j < p
    · obtain ⟨b, hb, hsub⟩ := h.maximal a hal hao (fun j hj => ⟨(hE j hj).1, hlow j hj⟩)
      exact ⟨b, hperm.mem_iff.mpr (List.mem_cons_of_mem _ hb), hsub⟩
    · -- otherwise the block meets the current one
      simp only [not_forall, Nat.not_lt] at hlow
      obtain ⟨j, hj, hpj⟩ := hlow
      have hjcur : j ∈ (⟨p, k⟩ : Block) :=
        ⟨hpj, by have := (hE j hj).2; simp only [Block.stop]; omega⟩
      have hle := h.order_le_of_meets hk hmax hal hao hE hj hjcur
      exact ⟨_, hperm.mem_iff.mpr List.mem_cons_self,
        mem_of_start_mem hal h.aligned hle ⟨j, hj, hjcur⟩⟩

theorem HandoverExact.step (hg : ∀ q, (g q).isFree = false) (hw : WholeUpTo E (i + 1))
    (hE : E i ↔ (g i).type = .normalMem ∧ (g i).refCount.slt 0#32) (h : HandoverExact E g i s) :
    HandoverExact E g (i + 1) (poolInitStep s i) := by
  have hpage : s.pgdb i = g i := h.fresh i (Nat.le_refl i)
  rw [poolInitStep_eq, hpage]
  by_cases he : (g i).type = .normalMem ∧ (g i).refCount.slt 0#32
  · rw [if_pos he]
    have hstart := h.start (hE.mpr he) (by rw [hpage]; exact he.1)
    obtain ⟨hloop, hmax⟩ := hstart.combinePages hg hw 10 rfl
    exact hloop.finish (Nat.lt_succ_of_le (combinePages_order_le 10 i 0 (addedPage s i))) hmax
  · rw [if_neg he]
    refine { toHandoverBase := ⟨fun b hb => Nat.le_succ_of_le (h.stop b hb),
               fun q hq => h.fresh q (Nat.le_of_succ_le hq)⟩,
             toPoolInv := h.toPoolInv, toMaximal := ⟨h.entry, h.inside, ?_⟩ }
    intro a hal hao ha
    refine h.maximal a hal hao (fun j hj => ⟨(ha j hj).1, ?_⟩)
    have hne : j ≠ i := fun heq => he (hE.mp (heq ▸ (ha j hj).1))
    have := (ha j hj).2
    omega

/-- The test succeeds at an upper half when the first page below it is in E: that page is
on a list, and no listed block starts earlier. -/
theorem LoopExact.canCombine_of_start (h : LoopExact E g i p k s) {q : ℕ}
    (hq : 2 ^ (k + 1) ∣ q) (hp : p = q + 2 ^ k) (hEq : E q) : s.CanCombine (getPageBuddy p k) := by
  have hone : ∀ r ∈ (⟨q, 0⟩ : Block), E r ∧ r < p := by
    intro r hr
    rw [mem_zero_iff.mp hr]
    exact ⟨hEq, by omega⟩
  obtain ⟨b, hb, hsub⟩ := h.maximal ⟨q, 0⟩ (Nat.one_dvd q) (Nat.zero_lt_succ 10) hone
  have hqb : q ∈ b := hsub q (Block.start_mem ⟨q, 0⟩)
  have hstart : b.start = q := by
    have hin := mem_of_start_mem (b := ⟨q, k⟩) (h.block_aligned hb) (two_pow_succ_dvd hq)
      (h.listed_order_le hq hp hb hqb) ⟨q, hqb, Block.start_mem ⟨q, k⟩⟩
    exact Nat.le_antisymm hqb.1 (hin b.start b.start_mem).1
  rw [hp, getPageBuddy_upper hq, ← hstart]
  exact h.entry b hb

/-- A full upper half absorbs the lower half whose first page is free, hole included. -/
theorem LoopExact.covers_hole (hg : ∀ q, (g q).isFree = false) {o j : ℕ} {q : ℕ}
    (hbad : HalfHole E q o) (hlast : q + 2 ^ (o + 1) = i + 1) (hj : j ∈ (⟨q, o⟩ : Block)) (d : ℕ) :
    ∀ {n p k : ℕ} {s : PoolState}, d + k = o → n + k = maxPageOrder - 1 → LoopExact E g i p k s →
      (j ∈ (⟨(PoolState.combinePages n p k s).1, (PoolState.combinePages n p k s).2.1⟩ : Block) ∨
        Covered ((PoolState.combinePages n p k s).2.2.freeBlocks globlPagePool) j) := by
  obtain ⟨_, ho, hdvd, hEq, hupper, _⟩ := hbad
  induction d with
  | zero =>
    intro n p k s hk hn h
    obtain rfl : k = o := by omega
    obtain ⟨m, rfl⟩ : ∃ m, n = m + 1 := ⟨n - 1, by unfold maxPageOrder at hn; omega⟩
    have hp : p = q + 2 ^ k := by have := h.last; omega
    have hc := h.canCombine_of_start hdvd hp hEq
    rw [PoolState.combinePages]
    simp only [if_pos hc]
    refine (h.toLoopBase.combine hg hc).combinePages_cover hg m (Or.inl ?_)
    rw [combineStep_fst, hp, getPageBuddy_upper hdvd, Nat.min_eq_right (by omega)]
    exact mem_parent.mpr (Or.inl hj)
  | succ d ih =>
    intro n p k s hk hn h
    obtain ⟨m, rfl⟩ : ∃ m, n = m + 1 := ⟨n - 1, by unfold maxPageOrder at hn; omega⟩
    have hple : 2 ^ (k + 1) ≤ 2 ^ o := Nat.pow_le_pow_right (by omega) (by omega)
    have hdvdi : 2 ^ (k + 1) ∣ i + 1 := by
      rw [← hlast]
      exact (Nat.dvd_add ((pow_dvd_pow 2 (by omega)).trans hdvd) (pow_dvd_pow 2 (by omega)))
    have hlow : 2 ^ (k + 1) ∣ i + 1 - 2 ^ (k + 1) := Nat.dvd_sub hdvdi (Nat.dvd_refl _)
    have hp : p = (i + 1 - 2 ^ (k + 1)) + 2 ^ k := by have := h.last; omega
    have hlisted : ⟨getPageBuddy p k, k⟩ ∈ s.freeBlocks globlPagePool := by
      rw [hp, getPageBuddy_upper hlow]
      apply h.lower_listed (by unfold maxPageOrder at *; omega) hlow hp
      intro r hr
      rw [Block.mem_iff] at hr
      refine hupper r ⟨?_, ?_⟩ <;> simp only [Block.stop] at hr ⊢ <;> omega
    have hc : s.CanCombine (getPageBuddy p k) := h.entry _ hlisted
    rw [PoolState.combinePages]
    simp only [if_pos hc]
    exact ih (by omega) (by omega) (h.combine hg hc hlisted)

end Exact

/-! ### The whole loop -/

section Run

variable {s : PoolState} {nr : ℕ}

/-- The state after the first n rounds. -/
def handedOver (s : PoolState) (n : ℕ) : PoolState :=
  (List.range n).foldl poolInitStep (s.init globlPagePool)

theorem handedOver_succ (s : PoolState) (n : ℕ) :
    handedOver s (n + 1) = poolInitStep (handedOver s n) n := by
  rw [handedOver, List.range_succ, List.foldl_append]
  rfl

theorem freeBlocks_init (s : PoolState) : (s.init globlPagePool).freeBlocks globlPagePool = [] := by
  have hnil : ∀ b, b ∉ (s.init globlPagePool).freeBlocks globlPagePool := by
    intro b hb
    obtain ⟨horder, hmem⟩ := mem_freeBlocks.mp hb
    simp [PoolState.init, horder] at hmem
  exact List.eq_nil_iff_forall_not_mem.mpr hnil

theorem handedOver_base (hg : ∀ q, (s.pgdb q).isFree = false) (n : ℕ) :
    HandoverBase s.pgdb n (handedOver s n) := by
  induction n with
  | zero =>
    refine ⟨?_, fun _ _ => rfl⟩
    intro b hb
    simp only [handedOver, List.range_zero, List.foldl_nil, freeBlocks_init] at hb
    exact absurd hb List.not_mem_nil
  | succ n ih =>
    rw [handedOver_succ]
    exact (ih.step hg).1

theorem handedOver_cover (hg : ∀ q, (s.pgdb q).isFree = false) {j n m : ℕ} (hnm : n ≤ m)
    (h : Covered ((handedOver s n).freeBlocks globlPagePool) j) :
    Covered ((handedOver s m).freeBlocks globlPagePool) j := by
  induction m with
  | zero => rwa [Nat.le_zero.mp hnm] at h
  | succ m ih =>
    rcases Nat.le_succ_iff.mp hnm with hle | rfl
    · rw [handedOver_succ]
      exact ((handedOver_base hg m).step hg).2 j (ih hle)
    · exact h

theorem handedOver_exact (hg : ∀ q, (s.pgdb q).isHead = false ∧ (s.pgdb q).isFree = false) :
    ∀ n ≤ nr, WholeUpTo (Eligible nr s.pgdb) n →
      HandoverExact (Eligible nr s.pgdb) s.pgdb n (handedOver s n) := by
  intro n
  induction n with
  | zero =>
    intro _ _
    have hnil : (handedOver s 0).freeBlocks globlPagePool = [] := freeBlocks_init s
    refine { toHandoverBase := handedOver_base (fun q => (hg q).2) 0, toPoolInv := ⟨?_, ?_⟩,
             toMaximal := ⟨?_, ?_, ?_⟩ }
    · rw [hnil]
      exact ⟨List.Pairwise.nil, by simp⟩
    · intro q hhead _
      have hq : ((handedOver s 0).pgdb q).isHead = false := (hg q).1
      rw [hq] at hhead
      exact absurd hhead (by simp)
    · rw [hnil]
      simp
    · rw [hnil]
      simp
    · intro a _ _ ha
      exact absurd (ha a.start a.start_mem).2 (Nat.not_lt_zero _)
  | succ n ih =>
    intro hn hw
    rw [handedOver_succ]
    have hw' : WholeUpTo (Eligible nr s.pgdb) n := fun p o hbad => Nat.lt_of_succ_lt (hw p o hbad)
    refine (ih (Nat.le_of_succ_le hn) hw').step (fun q => (hg q).2) hw ?_
    exact ⟨fun he => he.2, fun he => ⟨hn, he⟩⟩

/-- A page of the hole is listed once the full half above it is complete. -/
theorem handedOver_covers_hole
    (hg : ∀ q, (s.pgdb q).isHead = false ∧ (s.pgdb q).isFree = false) {q o i j : ℕ}
    (hbad : HalfHole (Eligible nr s.pgdb) q o) (hlast : q + 2 ^ (o + 1) = i + 1)
    (hj : j ∈ (⟨q, o⟩ : Block)) (hw : WholeUpTo (Eligible nr s.pgdb) i) :
    i < nr ∧ Covered ((handedOver s (i + 1)).freeBlocks globlPagePool) j := by
  have hpos := Nat.two_pow_pos o
  have hi : Eligible nr s.pgdb i := by
    refine hbad.2.2.2.2.1 i ⟨?_, ?_⟩ <;> simp only [Block.stop] <;> omega
  have hexact := handedOver_exact hg i (Nat.le_of_lt hi.1) hw
  have hpage : (handedOver s i).pgdb i = s.pgdb i := hexact.fresh i (Nat.le_refl i)
  refine ⟨hi.1, ?_⟩
  rw [handedOver_succ, poolInitStep_eq, hpage, if_pos hi.2]
  have hstart := hexact.start hi (by rw [hpage]; exact hi.2.1)
  have hle : (PoolState.combinePages 10 i 0 (addedPage (handedOver s i) i)).2.1 < maxPageOrder :=
    Nat.lt_succ_of_le (combinePages_order_le 10 i 0 _)
  rcases hstart.covers_hole (fun q => (hg q).2) hbad hlast hj o (Nat.add_zero o) rfl with
    hmem | ⟨b, hb, hmem⟩
  · exact ⟨_, (freeBlocks_listBlock hle).mem_iff.mpr List.mem_cons_self, hmem⟩
  · exact ⟨b, (freeBlocks_listBlock hle).mem_iff.mpr (List.mem_cons_of_mem _ hb), hmem⟩

/-- The hand-over lists exactly the eligible pages if and only if there is no full
upper half, of order 1 to 9, next to a lower half with an eligible first page and a
hole. -/
theorem handsOverExactly_iff (hnr : nr < 2 ^ 31)
    (hg : ∀ q, (s.pgdb q).isHead = false ∧ (s.pgdb q).isFree = false) :
    HandsOverExactly nr s ↔ ∀ p o, ¬ HalfHole (Eligible nr s.pgdb) p o := by
  have hrun : pagesPoolInit nr s = some (handedOver s nr) := pagesPoolInit_eq hnr s
  constructor
  · rintro ⟨s', hs', _, hcover⟩ p o hbad
    obtain rfl : handedOver s nr = s' := Option.some.inj (hrun.symm.trans hs')
    -- take the hole whose full half is complete first
    have hex : ∃ e, ∃ p o, HalfHole (Eligible nr s.pgdb) p o ∧ p + 2 ^ (o + 1) = e :=
      ⟨_, p, o, hbad, rfl⟩
    classical
    obtain ⟨q, r, hbad', he⟩ := Nat.find_spec hex
    have hpos := Nat.two_pow_pos (r + 1)
    obtain ⟨i, hi⟩ : ∃ i, Nat.find hex = i + 1 := ⟨Nat.find hex - 1, by omega⟩
    have hw : WholeUpTo (Eligible nr s.pgdb) i := by
      intro p' o' hbad''
      have := Nat.find_min' hex ⟨p', o', hbad'', rfl⟩
      omega
    obtain ⟨j, hj, hhole⟩ := hbad'.2.2.2.2.2
    obtain ⟨hlt, hcov⟩ := handedOver_covers_hole hg hbad' (he.trans hi) hj hw
    exact hhole ((hcover j).mp (handedOver_cover (fun q => (hg q).2) hlt hcov))
  · intro hnone
    have hexact := handedOver_exact hg nr (Nat.le_refl nr)
      (fun p o hbad => absurd hbad (hnone p o))
    refine ⟨_, hrun, ?_, ?_⟩
    · exact (List.pairwise_append.mp hexact.separated.apart).1
    · intro i
      constructor
      · rintro ⟨b, hb, hi⟩
        exact hexact.inside b hb i hi
      · intro hi
        obtain ⟨b, hb, hsub⟩ := hexact.maximal ⟨i, 0⟩ (Nat.one_dvd i) (Nat.zero_lt_succ 10) (by
          intro j hj
          rw [mem_zero_iff.mp hj]
          exact ⟨hi, hi.1⟩)
        exact ⟨b, hb, hsub i (Block.start_mem ⟨i, 0⟩)⟩

end Run

/-- A database of four pages, all available but those in used. -/
def fourPageDatabase (used : List ℕ) : PoolState where
  pgdb q :=
    if q < 4 ∧ q ∉ used then { Page.zero with type := .normalMem, refCount := -1#32 } else Page.zero
  freelist _ _ := []

theorem fourPageDatabase_flags (used : List ℕ) (q : ℕ) :
    ((fourPageDatabase used).pgdb q).isHead = false ∧
      ((fourPageDatabase used).pgdb q).isFree = false := by
  by_cases hq : q < 4 ∧ q ∉ used
  · simp only [fourPageDatabase, if_pos hq]
    exact ⟨rfl, rfl⟩
  · simp only [fourPageDatabase, if_neg hq]
    exact ⟨rfl, rfl⟩

/-- Without holes the hand-over is exact. -/
theorem handsOverExactly_fourPages : HandsOverExactly 4 (fourPageDatabase []) := by
  have hE : ∀ i, i < 4 → Eligible 4 (fourPageDatabase []).pgdb i := by
    intro i hi
    have hpg : (fourPageDatabase []).pgdb i =
        { Page.zero with type := .normalMem, refCount := -1#32 } :=
      if_pos ⟨hi, List.not_mem_nil⟩
    refine ⟨hi, ?_⟩
    rw [hpg]
    exact ⟨rfl, rfl⟩
  apply (handsOverExactly_iff (by decide) (fourPageDatabase_flags [])).mpr
  rintro p o ⟨_, _, _, _, hupper, i, hi, hhole⟩
  have hlast := (hupper (p + 2 ^ o) (Block.start_mem ⟨p + 2 ^ o, o⟩)).1
  have hlt := hi.2
  simp only [Block.stop] at hlt
  exact hhole (hE i (by omega))

/-- With page 1 in use, freeing pages 2 and 3 absorbs it: they merge to order 1, and
their buddy, page 0 alone, passes the test. -/
theorem handsOver_not_exact :
    ¬ ∀ (nr : ℕ) (s : PoolState), nr < 2 ^ 31 →
      (∀ q, (s.pgdb q).isHead = false ∧ (s.pgdb q).isFree = false) →
      (∀ q, nr ≤ q → s.pgdb q = Page.zero) → HandsOverExactly nr s := by
  intro hall
  have hzero : ∀ q, 4 ≤ q → (fourPageDatabase [1]).pgdb q = Page.zero := by
    intro q hq
    exact if_neg (fun h => absurd h.1 (Nat.not_lt.mpr hq))
  obtain ⟨s', hs', _, hcover⟩ := hall 4 _ (by decide) (fourPageDatabase_flags [1]) hzero
  have hrun := @pagesPoolInit_eq 4 (by decide) (fourPageDatabase [1])
  obtain rfl := Option.some.inj (hrun.symm.trans hs')
  have hpage : Covered ((handedOver (fourPageDatabase [1]) 4).freeBlocks globlPagePool) 1 := by
    decide
  have helig := ((hcover 1).mp hpage).2.1
  revert helig
  decide

end ClosureOS
