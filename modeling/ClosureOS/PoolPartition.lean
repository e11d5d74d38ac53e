import ClosureOS.PagePool
import Mathlib.Logic.Relation

/-!
Runs of AllocPages and FreePages on one pool, and the partition of the pages
into free and live blocks. Splitting always keeps the partition. Merging keeps it
when every buddy it absorbs is free as a whole: the merge loop reads the flags of
the buddy's head page and not its order, so a buddy of smaller order is absorbed
together with pages that are not free.
-/
namespace ClosureOS

open DyadicBlocks PoolState

/-- A pool in the middle of a run, with the blocks handed out and not yet freed. -/
structure PoolRun where
  pool : PoolState
  live : List Block

inductive PoolOp
  | alloc (order : ℕ)
  | free (b : Block)
deriving DecidableEq

namespace PoolRun

variable {pid : ℕ}

/-- FreePages takes a block that is live. -/
def Valid (c : PoolRun) : PoolOp → Prop
  | .alloc _ => True
  | .free b => b ∈ c.live

def step (pid : ℕ) (c : PoolRun) : PoolOp → PoolRun
  | .alloc order =>
    match c.pool.allocPages pid order with
    | (some p, s) => ⟨s, ⟨p, order⟩ :: c.live⟩
    | (none, s) => ⟨s, c.live⟩
  | .free b => ⟨c.pool.freePages pid (some b.start) b.order, c.live.erase b⟩

instance (c : PoolRun) : ∀ op, Decidable (c.Valid op)
  | .alloc _ => isTrue trivial
  | .free b => inferInstanceAs (Decidable (b ∈ c.live))

/-- One valid call. -/
def Step (pid : ℕ) (c c' : PoolRun) : Prop := ∃ op, c.Valid op ∧ c' = c.step pid op

/-- Every call of a list is valid when its turn comes. -/
def ValidAll (pid : ℕ) : PoolRun → List PoolOp → Prop
  | _, [] => True
  | c, op :: ops => c.Valid op ∧ (c.step pid op).ValidAll pid ops

instance decidableValidAll : ∀ (c : PoolRun) ops, Decidable (c.ValidAll pid ops)
  | _, [] => isTrue trivial
  | c, op :: ops =>
    have := decidableValidAll (c.step pid op) ops
    inferInstanceAs (Decidable (_ ∧ _))

theorem run_of_ops {c : PoolRun} (ops : List PoolOp) (h : c.ValidAll pid ops) :
    Relation.ReflTransGen (Step pid) c (ops.foldl (step pid) c) := by
  induction ops generalizing c with
  | nil => exact Relation.ReflTransGen.refl
  | cons op ops ih => exact Relation.ReflTransGen.head ⟨op, h.1, rfl⟩ (ih h.2)

/-- The free and the live blocks are pairwise disjoint. -/
def Disjoint (pid : ℕ) (c : PoolRun) : Prop :=
  (c.pool.freeBlocks pid ++ c.live).Pairwise Block.Apart

/-- The states a run may start from. -/
structure WellFormed (pid : ℕ) (c : PoolRun) : Prop where
  entry : ∀ b ∈ c.pool.freeBlocks pid, (c.pool.pgdb b.start).type = .normalMem ∧
    (c.pool.pgdb b.start).isHead ∧ (c.pool.pgdb b.start).isFree ∧
    (c.pool.pgdb b.start).order = b.order
  aligned : ∀ b ∈ c.pool.freeBlocks pid ++ c.live, b.Aligned
  disjoint : c.Disjoint pid
  head_only : ∀ q, (c.pool.pgdb q).isHead → ∃ b ∈ c.pool.freeBlocks pid ++ c.live, b.start = q
  free_only : ∀ q, (c.pool.pgdb q).isFree → ∃ b ∈ c.pool.freeBlocks pid, q ∈ b

end PoolRun

/-! ### The condition on a merge -/

/-- Every buddy the merge loop absorbs is the head of a block of the order at
which it is absorbed. -/
def MergesWhole : ℕ → ℕ → ℕ → PoolState → Prop
  | 0, _, _, _ => True
  | n + 1, p, order, s =>
    s.CanCombine (getPageBuddy p order) →
      (s.pgdb (getPageBuddy p order)).order = order ∧
        MergesWhole n (s.combineStep p (getPageBuddy p order)).1 (order + 1)
          (s.combineStep p (getPageBuddy p order)).2

instance decidableMergesWhole : ∀ n p order s, Decidable (MergesWhole n p order s)
  | 0, _, _, _ => isTrue trivial
  | n + 1, p, order, s =>
    have := decidableMergesWhole n (s.combineStep p (getPageBuddy p order)).1 (order + 1)
      (s.combineStep p (getPageBuddy p order)).2
    inferInstanceAs (Decidable (_ → _ ∧ _))

namespace PoolRun

/-- A call that reaches no partially free buddy. AllocPages never does. -/
def WholeBuddies (c : PoolRun) : PoolOp → Prop
  | .alloc _ => True
  | .free b => MergesWhole (maxPageOrder - 1 - b.order) b.start b.order c.pool

/-- One valid call that absorbs whole buddies only. -/
def WholeStep (pid : ℕ) (c c' : PoolRun) : Prop :=
  ∃ op, c.Valid op ∧ c.WholeBuddies op ∧ c' = c.step pid op

end PoolRun

/-! ### The invariant -/

/-- Free and live blocks are separated, and a page flagged as a free head is
listed with the order it carries. -/
structure PoolInv (pid : ℕ) (s : PoolState) (live : List Block) : Prop where
  separated : Separated (s.freeBlocks pid ++ live)
  listed : ∀ q, (s.pgdb q).isHead → (s.pgdb q).isFree →
    ⟨q, (s.pgdb q).order⟩ ∈ s.freeBlocks pid

/-- The same while an operation works on the block cur, which is on no list. -/
structure OpenInv (pid : ℕ) (s : PoolState) (cur : Block) (live : List Block) : Prop where
  separated : Separated (cur :: (s.freeBlocks pid ++ live))
  listed : ∀ q, q ∉ cur → (s.pgdb q).isHead → (s.pgdb q).isFree →
    ⟨q, (s.pgdb q).order⟩ ∈ s.freeBlocks pid

variable {pid : ℕ} {s : PoolState} {live : List Block} {p k : ℕ}

theorem PoolRun.WellFormed.poolInv {c : PoolRun} (h : c.WellFormed pid) :
    PoolInv pid c.pool c.live where
  separated := ⟨h.disjoint, h.aligned⟩
  listed q hhead hfree := by
    obtain ⟨b, hb, rfl⟩ := h.head_only q hhead
    obtain ⟨a, ha, hmem⟩ := h.free_only b.start hfree
    have hab : a = b := eq_of_mem_of_pairwise h.disjoint (List.mem_append_left _ ha) hb hmem
      b.start_mem
    subst hab
    rw [(h.entry a ha).2.2.2]
    exact ha

/-- Freeing a live block takes it out of the live ones. -/
theorem PoolInv.open_free (h : PoolInv pid s live) {b : Block} (hb : b ∈ live) :
    OpenInv pid s b (live.erase b) where
  separated := by
    apply h.separated.perm
    exact ((List.perm_cons_erase hb).append_left _).trans List.perm_middle
  listed q _ := h.listed q

/-- Allocating unlinks the first entry of a list. -/
theorem PoolInv.open_alloc (h : PoolInv pid s live) (hp : ⟨p, k⟩ ∈ s.freeBlocks pid) :
    OpenInv pid (s.listDel p) ⟨p, k⟩ live := by
  have hperm := freeBlocks_listDel h.separated hp
  refine ⟨h.separated.perm (hperm.append_right live), ?_⟩
  intro q hq hhead hfree
  rcases List.mem_cons.mp (hperm.mem_iff.mp (h.listed q hhead hfree)) with heq | hmem
  · have hqp : q = p := congrArg Block.start heq
    exact absurd (hqp ▸ Block.start_mem ⟨p, k⟩) hq
  · exact hmem

/-- Putting the upper half of the current block back. -/
theorem OpenInv.put_half (h : OpenInv pid s ⟨p, k + 1⟩ live) (hk : k < maxPageOrder) :
    OpenInv pid ((s.reinit (getPageBuddy p k) k true).listAddNext pid k (getPageBuddy p k))
      ⟨p, k⟩ live := by
  have hbuddy := getPageBuddy_of_dvd h.separated.head_aligned (Nat.lt_succ_self k)
  have hperm :=
    freeBlocks_listAddNext (s.reinit (getPageBuddy p k) k true) pid (getPageBuddy p k) hk
  refine ⟨separated_put_half h.separated hk, ?_⟩
  intro q hq hhead hfree
  rw [hperm.mem_iff]
  by_cases hqb : q ∈ (⟨getPageBuddy p k, k⟩ : Block)
  · -- inside the half put back, only its head is flagged as a head
    simp only [listAddNext_pgdb, reinit_pgdb_of_mem hqb, reinitEntry, beq_iff_eq] at hhead ⊢
    subst hhead
    rw [orderField_of_lt hk]
    exact List.mem_cons_self
  · simp only [listAddNext_pgdb, reinit_pgdb_of_not_mem hqb] at hhead hfree ⊢
    refine List.mem_cons_of_mem _ (h.listed q ?_ hhead hfree)
    intro hmem
    rcases mem_parent.mp hmem with hlow | hhigh
    · exact hq hlow
    · rw [hbuddy] at hqb
      exact hqb hhigh

theorem OpenInv.put_halves {order j : ℕ} (h : OpenInv pid s ⟨p, j⟩ live) (hle : order ≤ j)
    (hj : j ≤ maxPageOrder) : OpenInv pid (putHalves pid p order j s) ⟨p, order⟩ live :=
  putHalves_invariant (I := fun k t => OpenInv pid t ⟨p, k⟩ live)
    (fun _ _ _ hkj ht => ht.put_half (hkj.trans_le hj)) hle h

/-- The current block is handed out. -/
theorem OpenInv.close_alloc (h : OpenInv pid s ⟨p, k⟩ live) :
    PoolInv pid (s.reinit p k false) (⟨p, k⟩ :: live) := by
  refine ⟨h.separated.perm List.perm_middle.symm, ?_⟩
  intro q hhead hfree
  by_cases hq : q ∈ (⟨p, k⟩ : Block)
  · simp [reinit_pgdb_of_mem hq, reinitEntry] at hfree
  · simp only [reinit_pgdb_of_not_mem hq] at hhead hfree ⊢
    exact h.listed q hq hhead hfree

/-- The current block goes on the list of its order. -/
theorem OpenInv.close_free (h : OpenInv pid s ⟨p, k⟩ live) (hk : k < maxPageOrder) :
    PoolInv pid ((s.reinit p k true).listAddNext pid k p) live := by
  have hperm := freeBlocks_listAddNext (s.reinit p k true) pid p hk
  refine ⟨h.separated.of_perm (hperm.append_right live), ?_⟩
  intro q hhead hfree
  rw [hperm.mem_iff]
  by_cases hq : q ∈ (⟨p, k⟩ : Block)
  · simp only [listAddNext_pgdb, reinit_pgdb_of_mem hq, reinitEntry, beq_iff_eq] at hhead ⊢
    subst hhead
    rw [orderField_of_lt hk]
    exact List.mem_cons_self
  · simp only [listAddNext_pgdb, reinit_pgdb_of_not_mem hq] at hhead hfree ⊢
    exact List.mem_cons_of_mem _ (h.listed q hq hhead hfree)

theorem combineStep_fst (s : PoolState) (p buddy : ℕ) :
    (s.combineStep p buddy).1 = min p buddy := by
  rw [combineStep]
  split
  · omega
  · simp only
    omega

theorem combineStep_freelist (s : PoolState) (p buddy : ℕ) :
    (s.combineStep p buddy).2.freelist = (s.listDel buddy).freelist := by
  unfold combineStep
  split <;> rfl

theorem combineStep_pgdb (s : PoolState) (p buddy q : ℕ) (hq : q ≠ p) :
    (s.combineStep p buddy).2.pgdb q = s.pgdb q := by
  unfold combineStep
  split
  · exact Function.update_of_ne hq _ _
  · rfl

theorem mem_freeBlocks_combineStep {pid buddy : ℕ} {b : Block} :
    b ∈ (s.combineStep p buddy).2.freeBlocks pid ↔
      b.order < maxPageOrder ∧ b.start ∈ (s.freelist pid b.order).erase buddy := by
  rw [mem_freeBlocks, combineStep_freelist]
  rfl

theorem mem_freeBlocks_of_combineStep {pid buddy : ℕ} {b : Block}
    (h : b ∈ (s.combineStep p buddy).2.freeBlocks pid) : b ∈ s.freeBlocks pid := by
  obtain ⟨horder, hmem⟩ := mem_freeBlocks_combineStep.mp h
  exact mem_freeBlocks.mpr ⟨horder, List.mem_of_mem_erase hmem⟩

theorem mem_freeBlocks_combineStep_of_ne {pid buddy : ℕ} {b : Block} (h : b ∈ s.freeBlocks pid)
    (hne : b.start ≠ buddy) : b ∈ (s.combineStep p buddy).2.freeBlocks pid := by
  obtain ⟨horder, hmem⟩ := mem_freeBlocks.mp h
  exact mem_freeBlocks_combineStep.mpr ⟨horder, (List.mem_erase_of_ne hne).mpr hmem⟩

/-- Absorbing a buddy that is free as a whole. -/
theorem OpenInv.combine (h : OpenInv pid s ⟨p, k⟩ live)
    (hc : s.CanCombine (getPageBuddy p k)) (hk : (s.pgdb (getPageBuddy p k)).order = k) :
    OpenInv pid (s.combineStep p (getPageBuddy p k)).2
      ⟨(s.combineStep p (getPageBuddy p k)).1, k + 1⟩ live := by
  have hp : 2 ^ k ∣ p := h.separated.head_aligned
  rw [combineStep_fst]
  rw [getPageBuddy_eq] at hc hk ⊢
  have hlisted := h.listed _ (xor_two_pow_not_mem hp) hc.2.1 hc.2.2
  rw [hk] at hlisted
  have hperm : (s.freeBlocks pid).Perm
      (⟨p ^^^ 2 ^ k, k⟩ :: (s.combineStep p (p ^^^ 2 ^ k)).2.freeBlocks pid) := by
    have hdel := freeBlocks_listDel h.separated.tail hlisted
    simp only [PoolState.freeBlocks, combineStep_freelist] at hdel ⊢
    exact hdel
  constructor
  · exact (h.separated.perm ((hperm.append_right live).cons _)).merge
  · intro q hq hhead hfree
    have hqp : q ∉ (⟨p, k⟩ : Block) ∧ q ∉ (⟨p ^^^ 2 ^ k, k⟩ : Block) :=
      not_or.mp fun hhalf => hq ((mem_merged hp).mpr hhalf)
    have hne : q ≠ p := fun he => hqp.1 (he ▸ Block.start_mem ⟨p, k⟩)
    rw [combineStep_pgdb _ _ _ _ hne] at hhead hfree ⊢
    rcases List.mem_cons.mp (hperm.mem_iff.mp (h.listed q hqp.1 hhead hfree)) with heq | hmem
    · have hqb : q = p ^^^ 2 ^ k := congrArg Block.start heq
      exact absurd (hqb ▸ Block.start_mem ⟨p ^^^ 2 ^ k, k⟩) hqp.2
    · exact hmem

/-- What a round of the merge loop keeps, the loop keeps. -/
theorem combinePages_invariant {I : ℕ → ℕ → PoolState → Prop}
    (hstep : ∀ p k s, I p k s → s.CanCombine (getPageBuddy p k) →
      I (s.combineStep p (getPageBuddy p k)).1 (k + 1) (s.combineStep p (getPageBuddy p k)).2)
    (n : ℕ) (h : I p k s) :
    I (combinePages n p k s).1 (combinePages n p k s).2.1 (combinePages n p k s).2.2 := by
  induction n generalizing p k s with
  | zero => exact h
  | succ n ih =>
    unfold combinePages
    by_cases hc : s.CanCombine (getPageBuddy p k)
    · simp only [if_pos hc]
      exact ih (hstep p k s h hc)
    · simp only [if_neg hc]
      exact h

/-- The same with the number of rounds that are left. -/
theorem combinePages_rounds {I : ℕ → ℕ → ℕ → PoolState → Prop}
    (hstep : ∀ n p k s, I (n + 1) p k s → s.CanCombine (getPageBuddy p k) →
      I n (s.combineStep p (getPageBuddy p k)).1 (k + 1) (s.combineStep p (getPageBuddy p k)).2)
    {n : ℕ} (h : I n p k s) : ∃ m, I m (combinePages n p k s).1 (combinePages n p k s).2.1
      (combinePages n p k s).2.2 := by
  induction n generalizing p k s with
  | zero => exact ⟨0, h⟩
  | succ n ih =>
    unfold combinePages
    by_cases hc : s.CanCombine (getPageBuddy p k)
    · simp only [if_pos hc]
      exact ih (hstep n p k s h hc)
    · simp only [if_neg hc]
      exact ⟨n + 1, h⟩

/-- The same when every buddy that the loop absorbs is free as a whole. -/
theorem MergesWhole.invariant {I : ℕ → ℕ → PoolState → Prop}
    (hstep : ∀ p k s, I p k s → s.CanCombine (getPageBuddy p k) →
      (s.pgdb (getPageBuddy p k)).order = k →
      I (s.combineStep p (getPageBuddy p k)).1 (k + 1) (s.combineStep p (getPageBuddy p k)).2)
    {n : ℕ} (hw : MergesWhole n p k s) (h : I p k s) :
    I (combinePages n p k s).1 (combinePages n p k s).2.1 (combinePages n p k s).2.2 := by
  induction n generalizing p k s with
  | zero => exact h
  | succ n ih =>
    unfold combinePages
    by_cases hc : s.CanCombine (getPageBuddy p k)
    · obtain ⟨hk, hw⟩ := hw hc
      simp only [if_pos hc]
      exact ih hw (hstep p k s h hc hk)
    · simp only [if_neg hc]
      exact h

theorem OpenInv.combine_pages {n : ℕ} (h : OpenInv pid s ⟨p, k⟩ live) (hw : MergesWhole n p k s) :
    OpenInv pid (combinePages n p k s).2.2
      ⟨(combinePages n p k s).1, (combinePages n p k s).2.1⟩ live :=
  hw.invariant (I := fun p k s => OpenInv pid s ⟨p, k⟩ live)
    (fun _ _ _ h hc hk => h.combine hc hk) h

theorem combinePages_order_le (n p k : ℕ) (s : PoolState) :
    (combinePages n p k s).2.1 ≤ k + n := by
  induction n generalizing p k s with
  | zero => exact Nat.le_refl _
  | succ n ih =>
    unfold combinePages
    by_cases hc : s.CanCombine (getPageBuddy p k)
    · simp only [if_pos hc]
      have := ih (s.combineStep p (getPageBuddy p k)).1 (k + 1)
        (s.combineStep p (getPageBuddy p k)).2
      omega
    · simp only [if_neg hc]
      omega

theorem le_combinePages_order (n p k : ℕ) (s : PoolState) : k ≤ (combinePages n p k s).2.1 :=
  combinePages_invariant (I := fun _ j _ => k ≤ j) (fun _ _ _ hj _ => Nat.le_succ_of_le hj) n
    (Nat.le_refl k)

/-- The merge loop only takes blocks off the lists. -/
theorem mem_freeBlocks_of_combinePages {pid n : ℕ} {b : Block}
    (hb : b ∈ (combinePages n p k s).2.2.freeBlocks pid) : b ∈ s.freeBlocks pid :=
  combinePages_invariant (I := fun _ _ t => b ∈ t.freeBlocks pid → b ∈ s.freeBlocks pid)
    (fun _ _ _ ht _ hb => ht (mem_freeBlocks_of_combineStep hb)) n id hb

/-! ### Fields that are never written -/

/-- A field that neither __reinit_page nor the merge loop writes. -/
structure Untouched {α : Type} (f : Page → α) : Prop where
  reinit : ∀ pg order free head, f (reinitEntry pg order free head) = f pg
  head : ∀ pg : Page, f { pg with isHead := false } = f pg

theorem untouched_pool : Untouched Page.pool := ⟨fun _ _ _ _ => rfl, fun _ => rfl⟩

theorem untouched_type : Untouched Page.type := ⟨fun _ _ _ _ => rfl, fun _ => rfl⟩

section Untouched

variable {α : Type} {f : Page → α}

theorem Untouched.reinit_pgdb (hf : Untouched f) (s : PoolState) (p order : ℕ) (free : Bool)
    (q : ℕ) : f ((s.reinit p order free).pgdb q) = f (s.pgdb q) := by
  by_cases hq : q ∈ (⟨p, order⟩ : Block)
  · rw [reinit_pgdb_of_mem hq, hf.reinit]
  · rw [reinit_pgdb_of_not_mem hq]

theorem Untouched.putHalves (hf : Untouched f) {p order j : ℕ} (hle : order ≤ j) (pid : ℕ)
    (s : PoolState) (q : ℕ) :
    f ((PoolState.putHalves pid p order j s).pgdb q) = f (s.pgdb q) :=
  putHalves_invariant (I := fun _ t => f (t.pgdb q) = f (s.pgdb q))
    (fun _ _ _ _ ht => (hf.reinit_pgdb _ _ _ _ q).trans ht) hle rfl

theorem Untouched.allocPages (hf : Untouched f) (s : PoolState) (pid order q : ℕ) :
    f ((s.allocPages pid order).2.pgdb q) = f (s.pgdb q) := by
  rcases s.allocPages_cases pid order with ⟨_, j, p, hsearch, heq⟩ | ⟨_, heq⟩
  · rw [heq, hf.reinit_pgdb, hf.putHalves (allocSearch_eq_some hsearch).1, listDel_pgdb]
  · rw [heq]

theorem Untouched.combineStep (hf : Untouched f) (s : PoolState) (p buddy q : ℕ) :
    f ((s.combineStep p buddy).2.pgdb q) = f (s.pgdb q) := by
  by_cases hq : q = p
  · subst hq
    rw [PoolState.combineStep]
    split
    · exact (congrArg f (Function.update_self ..)).trans (hf.head _)
    · rfl
  · rw [combineStep_pgdb _ _ _ _ hq]

theorem Untouched.combinePages (hf : Untouched f) (n p k : ℕ) (s : PoolState) (q : ℕ) :
    f ((PoolState.combinePages n p k s).2.2.pgdb q) = f (s.pgdb q) :=
  combinePages_invariant (I := fun _ _ t => f (t.pgdb q) = f (s.pgdb q))
    (fun _ _ _ ht _ => (hf.combineStep _ _ _ q).trans ht) n rfl

theorem Untouched.freePages (hf : Untouched f) (s : PoolState) (pid : ℕ) (page : Option ℕ)
    (order q : ℕ) : f ((s.freePages pid page order).pgdb q) = f (s.pgdb q) := by
  cases page with
  | none => rfl
  | some p =>
    by_cases ho : order ≥ maxPageOrder
    · simp only [PoolState.freePages, if_pos ho]
    · simp only [PoolState.freePages, if_neg ho, listAddNext_pgdb]
      rw [hf.reinit_pgdb, hf.combinePages]

end Untouched

/-- AllocPages keeps the partition; a returned block becomes live. -/
theorem PoolInv.alloc (h : PoolInv pid s live) (order : ℕ) :
    (∃ p, (s.allocPages pid order).1 = some p ∧
      PoolInv pid (s.allocPages pid order).2 (⟨p, order⟩ :: live)) ∨
    ((s.allocPages pid order).1 = none ∧ PoolInv pid (s.allocPages pid order).2 live) := by
  rcases s.allocPages_cases pid order with ⟨_, j, p, hsearch, heq⟩ | ⟨_, heq⟩
  · obtain ⟨hle, hmem, _, _⟩ := allocSearch_eq_some hsearch
    have hj : j ≤ maxPageOrder := Nat.le_of_lt (mem_freeBlocks.mp hmem).1
    rw [heq]
    exact Or.inl ⟨p, rfl, ((h.open_alloc hmem).put_halves hle hj).close_alloc⟩
  · rw [heq]
    exact Or.inr ⟨rfl, h⟩

/-- FreePages of a live block keeps the partition of the other blocks. -/
theorem PoolInv.free (h : PoolInv pid s live) {b : Block} (hb : b ∈ live)
    (hw : MergesWhole (maxPageOrder - 1 - b.order) b.start b.order s) :
    PoolInv pid (s.freePages pid (some b.start) b.order) (live.erase b) := by
  by_cases ho : b.order ≥ maxPageOrder
  · have heq : s.freePages pid (some b.start) b.order = s := by simp only [freePages, if_pos ho]
    rw [heq]
    refine ⟨?_, h.listed⟩
    exact (h.open_free hb).separated.tail
  · simp only [freePages, if_neg ho]
    have hopen := (h.open_free hb).combine_pages hw
    have hle := combinePages_order_le (maxPageOrder - 1 - b.order) b.start b.order s
    exact hopen.close_free (by unfold maxPageOrder at *; omega)

theorem PoolInv.step {c c' : PoolRun} (h : PoolInv pid c.pool c.live)
    (hstep : c.WholeStep pid c') : PoolInv pid c'.pool c'.live := by
  obtain ⟨op, hvalid, hwhole, rfl⟩ := hstep
  cases op with
  | alloc order =>
    rcases h.alloc order with ⟨p, hp, hinv⟩ | ⟨hp, hinv⟩
    · have heq : c.pool.allocPages pid order = (some p, (c.pool.allocPages pid order).2) :=
        Prod.ext hp rfl
      rw [PoolRun.step, heq]
      exact hinv
    · have heq : c.pool.allocPages pid order = (none, (c.pool.allocPages pid order).2) :=
        Prod.ext hp rfl
      rw [PoolRun.step, heq]
      exact hinv
  | free b => exact h.free hvalid hwhole

theorem PoolInv.run {c c' : PoolRun} (h : PoolInv pid c.pool c.live)
    (hrun : Relation.ReflTransGen (PoolRun.WholeStep pid) c c') :
    PoolInv pid c'.pool c'.live := by
  induction hrun with
  | refl => exact h
  | tail _ hstep ih => exact ih.step hstep

/-- In every run whose frees absorb whole buddies only, free and live blocks stay
pairwise disjoint. So the next AllocPages returns pages of no live block, and the
next such FreePages lists pages of no block that stays live. -/
theorem whole_run_disjoint {c c' : PoolRun} (h : c.WellFormed pid)
    (hrun : Relation.ReflTransGen (PoolRun.WholeStep pid) c c') :
    c'.Disjoint pid ∧
      (∀ order p, (c'.pool.allocPages pid order).1 = some p →
        ∀ b ∈ c'.live, Block.Apart ⟨p, order⟩ b) ∧
      (∀ b ∈ c'.live, c'.WholeBuddies (.free b) →
        ∀ a ∈ (c'.pool.freePages pid (some b.start) b.order).freeBlocks pid,
          ∀ d ∈ c'.live.erase b, Block.Apart a d) := by
  have hinv := h.poolInv.run hrun
  refine ⟨hinv.separated.apart, ?_, ?_⟩
  · intro order p hp b hb
    rcases hinv.alloc order with ⟨q, hq, hnext⟩ | ⟨hq, _⟩
    · obtain rfl : q = p := Option.some.inj (hq.symm.trans hp)
      have hperm := (hnext.separated.perm List.perm_middle)
      exact hperm.head_apart (List.mem_append_right _ hb)
    · rw [hq] at hp
      exact absurd hp (by simp)
  · intro b hb hw a ha d hd
    exact (List.pairwise_append.mp (hinv.free hb hw).separated.apart).2.2 a ha d hd

/-! ### A merge with a partially free buddy -/

/-- Four pages, free as one block of order 2. -/
def fourPages : PoolRun where
  pool :=
    { pgdb := fun q =>
        if q < 4 then { Page.zero with
          type := .normalMem, isFree := true, isHead := q == 0, order := 2, refCount := -1#32 }
        else Page.zero
      freelist := fun _ k => if k = 2 then [0] else [] }
  live := []

theorem fourPages_freeBlocks : fourPages.pool.freeBlocks 0 = [⟨0, 2⟩] := by decide

theorem fourPages_wellFormed : fourPages.WellFormed 0 where
  entry := by decide
  aligned := by decide
  disjoint := by
    unfold PoolRun.Disjoint
    decide
  head_only q hq := by
    by_cases hlt : q < 4
    · have hq0 : q = 0 := by simpa [fourPages, hlt] using hq
      exact ⟨⟨0, 2⟩, by decide, hq0.symm⟩
    · simp [fourPages, hlt, Page.zero] at hq
  free_only q hq := by
    by_cases hlt : q < 4
    · exact ⟨⟨0, 2⟩, by decide, Nat.zero_le q, hlt⟩
    · simp [fourPages, hlt, Page.zero] at hq

/-- A run of whole merges: a block of order 1 is taken and given back. -/
theorem whole_run_disjoint_fourPages :
    ((fourPages.step 0 (.alloc 1)).step 0 (.free ⟨0, 1⟩)).Disjoint 0 := by
  have hrun : Relation.ReflTransGen (PoolRun.WholeStep 0) fourPages
      ((fourPages.step 0 (.alloc 1)).step 0 (.free ⟨0, 1⟩)) :=
    (Relation.ReflTransGen.single ⟨.alloc 1, trivial, trivial, rfl⟩).tail
      ⟨.free ⟨0, 1⟩, by unfold PoolRun.Valid; decide, by unfold PoolRun.WholeBuddies; decide, rfl⟩
  exact (whole_run_disjoint fourPages_wellFormed hrun).1

/-- Pages 0 and 1 are live as one block and pages 2 and 3 singly. Freeing page 2 and
then the block absorbs page 2 as if it were a block of order 1, and page 3 with it. -/
theorem run_not_disjoint :
    ¬ ∀ (pid : ℕ) (c c' : PoolRun), c.WellFormed pid →
      Relation.ReflTransGen (PoolRun.Step pid) c c' → c'.Disjoint pid := by
  intro hall
  let ops : List PoolOp := [.alloc 1, .alloc 0, .alloc 0, .free ⟨2, 0⟩, .free ⟨0, 1⟩]
  have hrun := @PoolRun.run_of_ops 0 fourPages ops (by decide)
  have hdisj := hall 0 _ _ fourPages_wellFormed hrun
  unfold PoolRun.Disjoint at hdisj
  revert hdisj
  decide

end ClosureOS
