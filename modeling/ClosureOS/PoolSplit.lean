import ClosureOS.PoolPartition

/-!
AllocPages as a split of one block. The block comes from the first list, from the order
asked for upwards, that is not empty. Its first part is handed out, and what is left of it
goes back as one block on each list in between. No other list and no other entry changes.
-/
namespace ClosureOS

open DyadicBlocks PoolState

/-- The entries of a block that is free as a whole. -/
def FreeEntries (g : Pgdb) (b : Block) : Prop :=
  ∀ q ∈ b, (g q).type = .normalMem ∧ (g q).isFree = true ∧ (g q).order = b.order ∧
    ((g q).isHead = true ↔ q = b.start)

/-- The lists of a pool hold disjoint aligned blocks, each free as a whole. -/
structure FreeLists (pid : ℕ) (s : PoolState) : Prop where
  separated : Separated (s.freeBlocks pid)
  entries : ∀ b ∈ s.freeBlocks pid, FreeEntries s.pgdb b

/-- The same while the block (p, k) is being split and is on no list. -/
structure SplitInv (pid : ℕ) (s : PoolState) (p k : ℕ) : Prop where
  separated : Separated (⟨p, k⟩ :: s.freeBlocks pid)
  entries : ∀ b ∈ s.freeBlocks pid, FreeEntries s.pgdb b
  normal : ∀ q ∈ (⟨p, k⟩ : Block), (s.pgdb q).type = .normalMem

variable {pid : ℕ} {s s' : PoolState} {p k j order q : ℕ} {b : Block}

theorem FreeEntries.congr {g g' : Pgdb} (h : FreeEntries g b) (heq : ∀ q ∈ b, g' q = g q) :
    FreeEntries g' b := by
  intro q hq
  rw [heq q hq]
  exact h q hq

theorem freeEntries_reinit (hk : k < maxPageOrder)
    (hnormal : ∀ q ∈ (⟨p, k⟩ : Block), (s.pgdb q).type = .normalMem) :
    FreeEntries (s.reinit p k true).pgdb ⟨p, k⟩ := by
  intro q hq
  rw [reinit_pgdb_of_mem hq]
  exact ⟨hnormal q hq, rfl, orderField_of_lt hk, beq_iff_eq⟩

theorem FreeEntries.reinit {free : Bool} (h : FreeEntries s.pgdb b)
    (hapart : Block.Apart ⟨p, k⟩ b) : FreeEntries (s.reinit p k free).pgdb b :=
  h.congr fun _ hq => reinit_pgdb_of_not_mem (hapart.symm.not_mem hq)

theorem FreeLists.open_split (h : FreeLists pid s) (hb : ⟨p, k⟩ ∈ s.freeBlocks pid) :
    SplitInv pid (s.listDel p) p k := by
  have hperm := freeBlocks_listDel_of_separated h.separated hb
  refine ⟨h.separated.perm hperm, fun b hmem => ?_, fun q hq => (h.entries _ hb q hq).1⟩
  exact h.entries b (hperm.mem_iff.mpr (List.mem_cons_of_mem _ hmem))

theorem SplitInv.put_half (h : SplitInv pid s p (k + 1)) (hk : k < maxPageOrder) :
    SplitInv pid ((s.reinit (getPageBuddy p k) k true).listAddNext pid k (getPageBuddy p k))
      p k := by
  have hx := getPageBuddy_of_dvd h.separated.head_aligned (Nat.lt_succ_self k)
  have hperm :=
    freeBlocks_listAddNext (s.reinit (getPageBuddy p k) k true) pid (getPageBuddy p k) hk
  have hsep := h.separated.split
  rw [← getPageBuddy_eq] at hsep
  refine ⟨hsep.of_perm (hperm.cons _), fun b hb => ?_, fun q hq => ?_⟩
  · rcases List.mem_cons.mp (hperm.mem_iff.mp hb) with rfl | hb
    · refine freeEntries_reinit hk fun q hq => h.normal q (mem_parent.mpr (Or.inr ?_))
      rwa [hx] at hq
    · exact (h.entries b hb).reinit (hsep.tail.head_apart hb)
  · have hnot : q ∉ (⟨getPageBuddy p k, k⟩ : Block) :=
      (hsep.head_apart List.mem_cons_self).not_mem hq
    rw [listAddNext_pgdb, reinit_pgdb_of_not_mem hnot]
    exact h.normal q (mem_parent.mpr (Or.inl hq))

theorem SplitInv.put_halves (h : SplitInv pid s p j) (hle : order ≤ j) (hj : j ≤ maxPageOrder) :
    SplitInv pid (putHalves pid p order j s) p order :=
  putHalves_invariant (I := fun k t => SplitInv pid t p k)
    (fun _ _ _ hkj ht => ht.put_half (hkj.trans_le hj)) hle h

/-- Handing the block out leaves the lists and their entries. -/
theorem SplitInv.close (h : SplitInv pid s p k) : FreeLists pid (s.reinit p k false) where
  separated := h.separated.tail
  entries b hb := (h.entries b hb).reinit (h.separated.head_apart hb)

/-- Each list from order up to the one split gets the upper half of that order. -/
theorem putHalves_freelist (pid : ℕ) (s : PoolState) (hp : 2 ^ j ∣ p) (hle : order ≤ j) (i : ℕ) :
    (putHalves pid p order j s).freelist pid i =
      if order ≤ i ∧ i < j then (p + 2 ^ i) :: s.freelist pid i else s.freelist pid i := by
  refine putHalves_invariant (I := fun k t => t.freelist pid i =
    if k ≤ i ∧ i < j then (p + 2 ^ i) :: s.freelist pid i else s.freelist pid i)
    (fun k t _ hkj ht => ?_) hle (if_neg (by omega)).symm
  rw [listAddNext_self, getPageBuddy_of_dvd hp hkj]
  by_cases hik : i = k
  · subst hik
    rw [Function.update_self, if_pos ⟨le_rfl, hkj⟩]
    refine congrArg (List.cons _) (ht.trans (if_neg ?_))
    omega
  · have hiff : (k ≤ i ∧ i < j) ↔ (k + 1 ≤ i ∧ i < j) := by omega
    rw [Function.update_of_ne hik]
    simp only [hiff]
    exact ht

theorem freeBlocks_putHalves (pid : ℕ) (s : PoolState) (hp : 2 ^ j ∣ p) (hle : order ≤ j)
    (hj : j ≤ maxPageOrder) :
    ((putHalves pid p order j s).freeBlocks pid).Perm (halves p order j ++ s.freeBlocks pid) := by
  refine putHalves_invariant
    (I := fun k t => (t.freeBlocks pid).Perm (halves p k j ++ s.freeBlocks pid))
    (fun k t _ hkj ht => ?_) hle (by rw [halves_self]; rfl)
  have hpush := freeBlocks_listAddNext (t.reinit (getPageBuddy p k) k true) pid (getPageBuddy p k)
    (hkj.trans_le hj)
  rw [halves_cons p hkj]
  rw [getPageBuddy_of_dvd hp hkj] at hpush ⊢
  exact hpush.trans (ht.cons _)

/-- What AllocPages does when it returns p, the first entry of list j. -/
structure SplitResult (s : PoolState) (pid order j p : ℕ) (s' : PoolState) : Prop where
  order_le : order ≤ j
  lt_max : j < maxPageOrder
  first : (s.freelist pid j).head? = some p
  smallest : ∀ i, order ≤ i → i < j → s.freelist pid i = []
  aligned : 2 ^ order ∣ p
  taken : ∀ q ∈ (⟨p, order⟩ : Block), Covered (s.freeBlocks pid) q
  remaining : ∀ q, Covered (s'.freeBlocks pid) q ↔
    Covered (s.freeBlocks pid) q ∧ q ∉ (⟨p, order⟩ : Block)
  lists : ∀ k < maxPageOrder, s'.freelist pid k =
    if order ≤ k ∧ k < j then [p + 2 ^ k]
    else if k = j then (s.freelist pid k).tail else s.freelist pid k
  freeLists : FreeLists pid s'
  entries : ∀ q ∈ (⟨p, order⟩ : Block), (s'.pgdb q).isFree = false ∧
    (s'.pgdb q).order = order ∧ ((s'.pgdb q).isHead = true ↔ q = p)
  frame : ∀ q, q ∉ (⟨p, j⟩ : Block) → s'.pgdb q = s.pgdb q

/-- Unlinking the first entry of list j takes it off that list only. -/
theorem listDel_freelist (h : FreeLists pid s) (hj : j < maxPageOrder)
    (hfirst : (s.freelist pid j).head? = some p) (hk : k < maxPageOrder) :
    (s.listDel p).freelist pid k =
      if k = j then (s.freelist pid k).tail else s.freelist pid k := by
  by_cases hkj : k = j
  · subst hkj
    rw [if_pos rfl]
    cases hl : s.freelist pid k with
    | nil => simp [hl] at hfirst
    | cons x l =>
      obtain rfl : x = p := by simpa [hl] using hfirst
      simp [listDel, hl]
  · rw [if_neg hkj]
    refine List.erase_of_not_mem fun hp => hkj ?_
    have hpj : ⟨p, j⟩ ∈ s.freeBlocks pid := mem_freeBlocks.mpr ⟨hj, List.mem_of_mem_head? hfirst⟩
    have hpk : ⟨p, k⟩ ∈ s.freeBlocks pid := mem_freeBlocks.mpr ⟨hk, hp⟩
    exact congrArg Block.order
      (h.separated.eq_of_mem hpk hpj (Block.start_mem ⟨p, k⟩) (Block.start_mem ⟨p, j⟩))

/-- Splitting a free block loses no page but those of the block that is handed out. -/
theorem covered_putHalves (h : FreeLists pid s) (hmem : ⟨p, j⟩ ∈ s.freeBlocks pid)
    (hle : order ≤ j) (q : ℕ) : Covered (s.freeBlocks pid) q ↔
      Covered ((putHalves pid p order j (s.listDel p)).freeBlocks pid) q ∨
        q ∈ (⟨p, order⟩ : Block) := by
  have hj : j < maxPageOrder := (mem_freeBlocks.mp hmem).1
  have hperm := freeBlocks_putHalves pid (s.listDel p) (h.separated.aligned _ hmem) hle hj.le
  rw [covered_perm (freeBlocks_listDel_of_separated h.separated hmem), covered_cons,
    ← covered_halves hle, covered_perm hperm, covered_append, or_assoc, or_comm]

/-- A successful call splits the block its search finds. -/
theorem allocPages_splitResult (h : FreeLists pid s)
    (halloc : s.allocPages pid order = (some p, s')) :
    ∃ j, s.allocSearch pid order = some (j, p) ∧
      (s'.freeBlocks pid).Perm (halves p order j ++ (s.listDel p).freeBlocks pid) ∧
      SplitResult s pid order j p s' := by
  obtain ⟨_, j, hsearch, rfl⟩ := allocPages_eq_some halloc
  obtain ⟨hle, hmem, hfirst, hsmallest⟩ := allocSearch_eq_some hsearch
  have hj : j < maxPageOrder := (mem_freeBlocks.mp hmem).1
  have hdvd : 2 ^ j ∣ p := h.separated.aligned _ hmem
  have hopen := h.open_split hmem
  have hinv := hopen.put_halves hle hj.le
  have hsub : ∀ q ∈ (⟨p, order⟩ : Block), q ∈ (⟨p, j⟩ : Block) := fun q => mem_of_order_le hle
  have hperm := freeBlocks_putHalves pid (s.listDel p) hdvd hle hj.le
  have hcover := covered_putHalves h hmem hle
  refine ⟨j, hsearch, hperm, hle, hj, hfirst, hsmallest, (pow_dvd_pow 2 hle).trans hdvd, ?_, ?_,
    ?_, hinv.close, ?_, ?_⟩
  · exact fun q hq => ⟨_, hmem, hsub q hq⟩
  · intro q
    rw [hcover]
    constructor
    · rintro ⟨b, hb, hq⟩
      exact ⟨Or.inl ⟨b, hb, hq⟩, (hinv.separated.head_apart hb).symm.not_mem hq⟩
    · rintro ⟨hq | hq, hnot⟩
      · exact hq
      · exact absurd hq hnot
  · intro k hk
    have hlist := putHalves_freelist pid (s.listDel p) hdvd hle k
    rw [listDel_freelist h hj hfirst hk] at hlist
    apply hlist.trans
    split
    · next hkj => rw [if_neg hkj.2.ne, hsmallest k hkj.1 hkj.2]
    · rfl
  · intro q hq
    rw [reinit_pgdb_of_mem hq]
    exact ⟨rfl, orderField_of_lt (hle.trans_lt hj), beq_iff_eq⟩
  · intro q hq
    rw [reinit_pgdb_of_not_mem fun hmem => hq (hsub q hmem), putHalves_pgdb hdvd hle (Or.inr hq),
      listDel_pgdb]

/-- AllocPages returns a page if and only if a list from order upwards is not empty. -/
theorem allocPages_isSome (s : PoolState) (pid order : ℕ) :
    (∃ p, (s.allocPages pid order).1 = some p) ↔
      order < maxPageOrder ∧ ∃ j, order ≤ j ∧ j < maxPageOrder ∧ s.freelist pid j ≠ [] := by
  rcases s.allocPages_cases pid order with ⟨ho, j, p, hsearch, heq⟩ | ⟨hnone, heq⟩
  · obtain ⟨hle, hmem, _, _⟩ := allocSearch_eq_some hsearch
    obtain ⟨hj, hp⟩ := mem_freeBlocks.mp hmem
    rw [heq]
    exact iff_of_true ⟨p, rfl⟩ ⟨ho, j, hle, hj, List.ne_nil_of_mem hp⟩
  · rw [heq]
    apply iff_of_false (by simp)
    rintro ⟨ho, j, hle, hj, hne⟩
    rcases hnone with hlt | hnone
    · omega
    · exact hne (allocSearch_eq_none.mp hnone j hle hj)

/-- AllocPages on lists of whole free blocks. -/
theorem allocPages_split (h : FreeLists pid s) (order : ℕ) :
    ((∃ p, (s.allocPages pid order).1 = some p) ↔
      order < maxPageOrder ∧ ∃ j, order ≤ j ∧ j < maxPageOrder ∧ s.freelist pid j ≠ []) ∧
    (∀ p s', s.allocPages pid order = (some p, s') → ∃ j, SplitResult s pid order j p s') ∧
    ∀ s', s.allocPages pid order = (none, s') → s' = s :=
  ⟨allocPages_isSome s pid order,
    fun _ _ halloc => (allocPages_splitResult h halloc).imp fun _ hres => hres.2.2,
    fun _ => allocPages_none⟩

theorem fourPages_freeLists : FreeLists 0 fourPages.pool where
  separated := ⟨by decide, by decide⟩
  entries b hb := by
    rw [fourPages_freeBlocks] at hb
    obtain rfl := List.mem_singleton.mp hb
    intro q hq
    have hlt : q < 4 := hq.2
    simp [fourPages, hlt]

/-- Taking one of four pages that are free as one block. -/
theorem allocPages_split_fourPages :
    ∃ j, SplitResult fourPages.pool 0 0 j 0 (fourPages.pool.allocPages 0 0).2 :=
  (allocPages_split fourPages_freeLists 0).2.1 0 _ (Prod.ext (by decide) rfl)

end ClosureOS
