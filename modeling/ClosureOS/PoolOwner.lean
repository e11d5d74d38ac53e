import ClosureOS.PageRefs
import ClosureOS.PoolListed
import ClosureOS.PoolSplit

/-!
The pool field of a page, through which put_page and KHeapPool::PageFree find the pool to
give a block back to. AddPages writes it once for each page of the block in its loop, but
always on the first page, and nothing writes it later. So a block knows its pool when its
first page was an argument of AddPages; the first page of a half split off a larger
donated block was not, and keeps the null pointer.
-/
namespace ClosureOS

open DyadicBlocks PoolState

/-- The call of FreePages made by KHeapPool::PageFree. -/
def PoolState.pageFreeCall (s : PoolState) (p : ℕ) : FreeCall :=
  let head := getHeadPage s.pgdb p
  ⟨(s.pgdb head).pool, head, (s.pgdb head).order⟩

/-- A sequence of AddPages calls. -/
def addAll (pid : ℕ) (s : PoolState) (adds : List Block) : PoolState :=
  adds.foldl (fun s b => s.addPages pid b.start b.order) s

/-- Page p, just returned as a block, leads back to its pool: the calls through its pool
field go to that pool, with the block it heads. -/
structure KnowsPool (pid order p : ℕ) (s : PoolState) : Prop where
  pool : (s.pgdb p).pool = some pid
  put : s.putPageCall p = some ⟨some pid, p, order⟩
  pageFree : s.pageFreeCall p = ⟨some pid, p, order⟩

/-- In a run of AllocPages, every block that is returned knows its pool. -/
def AllKnowPool (pid : ℕ) : PoolState → List ℕ → Prop
  | _, [] => True
  | s, order :: orders =>
    (∀ p s', s.allocPages pid order = (some p, s') → KnowsPool pid order p s') ∧
      AllKnowPool pid (s.allocPages pid order).2 orders

/-- In every run of AllocPages, every block that is returned knows its pool. -/
def AlwaysKnowPool (pid : ℕ) (s : PoolState) : Prop := ∀ orders, AllKnowPool pid s orders

/-- No page is marked as the head of a free block. -/
def NoFreeHeads (s : PoolState) : Prop := ∀ q, (s.pgdb q).isHead → ¬ (s.pgdb q).isFree

/-- The page was the argument of a call of AddPages. -/
def Added (adds : List Block) (q : ℕ) : Prop := ∃ b ∈ adds, b.start = q

instance (adds : List Block) (q : ℕ) : Decidable (Added adds q) :=
  inferInstanceAs (Decidable (∃ b ∈ adds, b.start = q))

/-! ### The pool field is never written again -/

namespace PoolState

theorem setPage_pool (s : PoolState) (p : ℕ) (pg : Page) (q : ℕ) :
    ((s.setPage p pg).pgdb q).pool = if q = p then pg.pool else (s.pgdb q).pool := by
  simp only [setPage, Function.update_apply]
  split <;> rfl

theorem addPages_pool (s : PoolState) (pid p order q : ℕ) :
    ((s.addPages pid p order).pgdb q).pool = if q = p then some pid else (s.pgdb q).pool := by
  rw [addPages_eq, untouched_pool.freePages, withPool, setPage_pool]

end PoolState

section Runs

variable {pid : ℕ} {s s' : PoolState} {adds : List Block} {orders : List ℕ} {p order q k : ℕ}

theorem addAll_pool (hnull : (s.pgdb q).pool = none) (adds : List Block) :
    ((addAll pid s adds).pgdb q).pool = some pid ↔ ∃ b ∈ adds, b.start = q := by
  induction adds using List.reverseRecOn with
  | nil => simp [addAll, hnull]
  | append_singleton adds b ih =>
    unfold addAll at ih ⊢
    rw [List.foldl_append, List.foldl_cons, List.foldl_nil, addPages_pool]
    by_cases hq : q = b.start
    · simp [hq]
    · rw [if_neg hq, ih]
      simp [Ne.symm hq]

/-- A block that AllocPages returns knows its pool when its head carries it. -/
theorem knowsPool_iff (halloc : s.allocPages pid order = (some p, s')) :
    KnowsPool pid order p s' ↔ (s.pgdb p).pool = some pid := by
  have hpool : (s'.pgdb p).pool = (s.pgdb p).pool := by
    have hsame := untouched_pool.allocPages s pid order p
    rwa [halloc] at hsame
  refine ⟨fun h => hpool.symm.trans h.pool, fun h => ?_⟩
  obtain ⟨ho, j, _, rfl⟩ := allocPages_eq_some halloc
  have hentry := @reinit_pgdb_of_mem (putHalves pid p order j (s.listDel p)) p order false p
    (Block.start_mem ⟨p, order⟩)
  simp only [reinitEntry, beq_self_eq_true, if_true, orderField_of_lt ho] at hentry
  have hhead := getHeadPage_of_isHead (congrArg Page.isHead hentry)
  have horder := congrArg Page.order hentry
  have hcount := congrArg Page.refCount hentry
  simp only at horder hcount
  refine ⟨hpool.trans h, ?_, ?_⟩
  · rw [putPageCall, hhead, hcount, if_pos (by decide), horder, hpool, h]
  · rw [pageFreeCall, hhead, horder, hpool, h]

/-! ### Runs in which all blocks know their pool -/

theorem AlwaysKnowPool.next (h : AlwaysKnowPool pid s) (order : ℕ) :
    AlwaysKnowPool pid (s.allocPages pid order).2 :=
  fun orders => (h (order :: orders)).2

theorem AlwaysKnowPool.returned (h : AlwaysKnowPool pid s)
    (halloc : s.allocPages pid order = (some p, s')) : (s.pgdb p).pool = some pid :=
  (knowsPool_iff halloc).mp ((h [order]).1 p s' halloc)

/-- The blocks whose pages all carry the pool. -/
def Pooled (pid : ℕ) (s : PoolState) (b : Block) : Prop :=
  b.Aligned ∧ ∀ q ∈ b, (s.pgdb q).pool = some pid

/-- If the listed blocks have only pages with the pool, then splitting finds no others. -/
theorem alwaysKnowPool_of_pooled (h : ListsOnly pid (Pooled pid s) s) : AlwaysKnowPool pid s := by
  intro orders
  induction orders generalizing s with
  | nil => trivial
  | cons order orders ih =>
    obtain ⟨hlisted, hreturned⟩ := h.alloc (halving_within _) order
    refine ⟨fun p s' halloc => ?_, ih fun b hb => ⟨(hlisted b hb).1, fun q hq => ?_⟩⟩
    · obtain ⟨_, _, hp⟩ := hreturned p (congrArg Prod.fst halloc)
      exact (knowsPool_iff halloc).mpr (hp p (Block.start_mem ⟨p, order⟩))
    · rw [untouched_pool.allocPages]
      exact (hlisted b hb).2 q hq

theorem allocPages_take (h : AlwaysKnowPool pid s) (hk : k < maxPageOrder) {x : ℕ}
    (hhead : (s.freelist pid k).head? = some x) :
    ∃ t, AlwaysKnowPool pid t ∧ (∀ q, (t.pgdb q).pool = (s.pgdb q).pool) ∧
      t.freelist = (s.listDel x).freelist := by
  refine ⟨_, h.next k, fun q => untouched_pool.allocPages s pid k q, ?_⟩
  rw [allocPages_of_head hk hhead]
  rfl

/-- A state of a run that starts with the pool fields f: page p is the first entry of list
k and on no list below, and the lists below m are empty. -/
structure FirstOn (pid : ℕ) (f : ℕ → Option ℕ) (s : PoolState) (p k m : ℕ) : Prop where
  always : AlwaysKnowPool pid s
  pools : ∀ q, (s.pgdb q).pool = f q
  first : (s.freelist pid k).head? = some p
  below : ∀ i < k, p ∉ s.freelist pid i
  empty : ∀ i < m, s.freelist pid i = []

variable {f : ℕ → Option ℕ} {m : ℕ}

/-- AllocPages takes the entries in front of p off list k. -/
theorem AlwaysKnowPool.exists_first (hk : k < maxPageOrder) (h : AlwaysKnowPool pid s)
    (hpools : ∀ q, (s.pgdb q).pool = f q) (hp : p ∈ s.freelist pid k)
    (hbelow : ∀ i < k, p ∉ s.freelist pid i) : ∃ t, FirstOn pid f t p k 0 := by
  generalize hl : s.freelist pid k = l at hp
  induction l generalizing s with
  | nil => exact absurd hp List.not_mem_nil
  | cons x l ih =>
    by_cases hx : x = p
    · subst hx
      exact ⟨s, h, hpools, by rw [hl]; rfl, hbelow, fun i hi => absurd hi (Nat.not_lt_zero i)⟩
    · obtain ⟨t, ht, hpools', hlists⟩ := allocPages_take h hk (by rw [hl]; rfl)
      refine ih ht (fun q => (hpools' q).trans (hpools q)) (fun i hi => ?_) ?_ ?_
      · rw [hlists]
        exact fun hmem => hbelow i hi (List.mem_of_mem_erase hmem)
      · rw [hlists]
        simp [listDel, hl]
      · exact (List.mem_cons.mp hp).resolve_left (Ne.symm hx)

/-- AllocPages empties the next list below k. -/
theorem FirstOn.drain_list (hk : k < maxPageOrder) (hmk : m < k) (h : FirstOn pid f s p k m) :
    ∃ t, FirstOn pid f t p k (m + 1) := by
  generalize hl : s.freelist pid m = l
  induction l generalizing s with
  | nil =>
    refine ⟨s, h.always, h.pools, h.first, h.below, fun i hi => ?_⟩
    rcases Nat.lt_succ_iff_lt_or_eq.mp hi with hi | rfl
    · exact h.empty i hi
    · exact hl
  | cons x l ih =>
    have hx : p ≠ x := by
      rintro rfl
      exact h.below m hmk (by rw [hl]; exact List.mem_cons_self)
    obtain ⟨t, ht, hpools, hlists⟩ := allocPages_take h.always (hmk.trans hk) (by rw [hl]; rfl)
    refine ih (s := t) ⟨ht, fun q => (hpools q).trans (h.pools q), ?_, fun i hi => ?_,
      fun i hi => ?_⟩ ?_
    · have hfirst := h.first
      rw [hlists]
      cases hlist : s.freelist pid k with
      | nil => simp [hlist] at hfirst
      | cons y rest =>
        obtain rfl : y = p := by simpa [hlist] using hfirst
        simp [listDel, hlist, hx]
    · rw [hlists]
      exact fun hmem => h.below i hi (List.mem_of_mem_erase hmem)
    · rw [hlists]
      simp [listDel, h.empty i hi]
    · rw [hlists]
      simp [listDel, hl]

theorem FirstOn.drain (hk : k < maxPageOrder) (h : FirstOn pid f s p k 0) (hm : m ≤ k) :
    ∃ t, FirstOn pid f t p k m := by
  induction m with
  | zero => exact ⟨s, h⟩
  | succ m ih =>
    obtain ⟨t, ht⟩ := ih (by omega)
    exact ht.drain_list hk hm

/-- With nothing on the lists below, AllocPages(0) splits the block down to its first page, and
each upper half becomes the first entry of its list. -/
theorem FirstOn.split (hk : k < maxPageOrder) (hp : 2 ^ k ∣ p) (h : FirstOn pid f s p k k) :
    f p = some pid ∧ ∀ m < k, ∃ t, FirstOn pid f t (p + 2 ^ m) m 0 := by
  have hsearch : ∀ j r, s.allocSearch pid 0 = some (j, r) → j = k ∧ r = p := by
    intro j r hfound
    obtain ⟨_, _, hhead, hempty⟩ := allocSearch_eq_some hfound
    rcases Nat.lt_trichotomy j k with hlt | rfl | hlt
    · rw [h.empty j hlt] at hhead
      exact absurd hhead.symm (Option.some_ne_none r)
    · exact ⟨rfl, Option.some.inj (hhead.symm.trans h.first)⟩
    · have hfirst := h.first
      rw [hempty k (Nat.zero_le k) hlt] at hfirst
      exact absurd hfirst.symm (Option.some_ne_none p)
  rcases s.allocPages_cases pid 0 with ⟨_, j, r, hfound, heq⟩ | ⟨hnone, _⟩
  · obtain ⟨rfl, rfl⟩ := hsearch j r hfound
    refine ⟨(h.pools r).symm.trans (h.always.returned heq), fun m hm => ?_⟩
    have hnext := h.always.next 0
    have hpools := fun q => (untouched_pool.allocPages s pid 0 q).trans (h.pools q)
    rw [heq] at hnext hpools
    have hlists : ∀ i < j, ((putHalves pid r 0 j (s.listDel r)).reinit r 0 false).freelist pid i =
        [r + 2 ^ i] := by
      intro i hi
      have hlist := putHalves_freelist pid (s.listDel r) hp (Nat.zero_le j) i
      rw [if_pos ⟨Nat.zero_le i, hi⟩] at hlist
      refine hlist.trans (congrArg (List.cons _) ?_)
      simp [listDel, h.empty i hi]
    refine ⟨_, hnext, hpools, by rw [hlists m hm]; rfl, fun i hi => ?_,
      fun i hi => absurd hi (Nat.not_lt_zero i)⟩
    have hpow : 2 ^ i < 2 ^ m := Nat.pow_lt_pow_right (by decide) hi
    rw [hlists i (hi.trans hm), List.mem_singleton]
    omega
  · rcases hnone with hle | hnone
    · exact absurd hle (by decide)
    · have hempty := allocSearch_eq_none.mp hnone k (Nat.zero_le k) hk
      have hfirst := h.first
      rw [hempty] at hfirst
      exact absurd hfirst.symm (Option.some_ne_none p)

/-- Every page of the block is the first page of some block that is returned. -/
theorem FirstOn.pool (hk : k < maxPageOrder) (hp : 2 ^ k ∣ p) (h : FirstOn pid f s p k k)
    (hq : q ∈ (⟨p, k⟩ : Block)) : f q = some pid := by
  induction k using Nat.strong_induction_on generalizing s p with
  | _ k ih =>
    obtain ⟨hfirst, hhalves⟩ := h.split hk hp
    rcases (covered_halves (Nat.zero_le k)).mpr hq with hq | ⟨b, hb, hq⟩
    · rw [mem_zero_iff.mp hq]
      exact hfirst
    · obtain ⟨m, hm, rfl⟩ := List.mem_map.mp hb
      have hmk : m < k := by
        have := List.mem_range'_1.mp hm
        omega
      obtain ⟨t, ht⟩ := hhalves m hmk
      obtain ⟨t', ht'⟩ := ht.drain (hmk.trans hk) le_rfl
      exact ih m hmk (hmk.trans hk)
        (Nat.dvd_add ((pow_dvd_pow 2 hmk.le).trans hp) (Nat.dvd_refl _)) ht' hq

/-- When all blocks know their pool in every run, every page of a listed block has the pool. -/
theorem AlwaysKnowPool.pooled (h : AlwaysKnowPool pid s) (honce : ListedOnce pid s)
    (haligned : ListsOnly pid Block.Aligned s) : ListsOnly pid (Pooled pid s) s := by
  refine fun b hb => ⟨haligned b hb, fun q hq => ?_⟩
  obtain ⟨hk, hmem⟩ := mem_freeBlocks.mp hb
  have hbelow : ∀ i < b.order, b.start ∉ s.freelist pid i := fun i hi hin =>
    hi.ne (honce.unique i b.order b.start (hi.trans hk) hk hin hmem)
  obtain ⟨t, ht⟩ := h.exists_first hk (f := fun q => (s.pgdb q).pool) (fun _ => rfl) hmem hbelow
  obtain ⟨t', ht'⟩ := ht.drain hk le_rfl
  exact ht'.pool hk (haligned b hb) hq

/-! ### The lists after AddPages -/

/-- The state between two calls of AddPages: only pages with A are listed or marked as free
heads, each on one list. -/
structure AddedInv (pid : ℕ) (A : ℕ → Prop) (s : PoolState) : Prop where
  once : ListedOnce pid s
  aligned : ListsOnly pid Block.Aligned s
  listed : ∀ k < maxPageOrder, ∀ q ∈ s.freelist pid k, A q
  heads : ∀ q, (s.pgdb q).isHead → (s.pgdb q).isFree → A q

/-- The same in the merge loop, with the block (p, k). -/
structure MergeInv (pid : ℕ) (A : ℕ → Prop) (p k : ℕ) (s : PoolState) : Prop extends
    AddedInv pid A s where
  current : A p
  unlisted : Unlisted pid s p
  dvd : 2 ^ k ∣ p

variable {A : ℕ → Prop}

theorem MergeInv.combine (h : MergeInv pid A p k s) (hc : s.CanCombine (getPageBuddy p k)) :
    MergeInv pid A (s.combineStep p (getPageBuddy p k)).1 (k + 1)
      (s.combineStep p (getPageBuddy p k)).2 := by
  obtain ⟨honce, hbuddy⟩ := h.once.listDel (getPageBuddy p k)
  have hlists := combineStep_freelist s p (getPageBuddy p k)
  refine ⟨⟨⟨?_, ?_⟩, fun b hb => h.aligned b (mem_freeBlocks_of_combineStep hb), ?_, ?_⟩,
    ?_, ?_, ?_⟩
  · rw [hlists]
    exact honce.nodup
  · rw [hlists]
    exact honce.unique
  · rw [hlists]
    exact fun i hi q hq => h.listed i hi q (List.mem_of_mem_erase hq)
  · intro q hhead hfree
    by_cases hq : q = p
    · rw [hq]
      exact h.current
    · rw [combineStep_pgdb _ _ _ _ hq] at hhead hfree
      exact h.heads q hhead hfree
  · rw [combineStep_fst]
    rcases Nat.le_total p (getPageBuddy p k) with hle | hle
    · rw [Nat.min_eq_left hle]
      exact h.current
    · rw [Nat.min_eq_right hle]
      exact h.heads _ hc.2.1 hc.2.2
  · unfold Unlisted
    rw [hlists, combineStep_fst]
    rcases Nat.le_total p (getPageBuddy p k) with hle | hle
    · rw [Nat.min_eq_left hle]
      exact h.unlisted.listDel _
    · rw [Nat.min_eq_right hle]
      exact hbuddy
  · rw [combineStep_fst, getPageBuddy_eq]
    exact dvd_min_xor h.dvd

/-- The block goes on the list of its order. -/
theorem MergeInv.close (h : MergeInv pid A p k s) (hk : k < maxPageOrder) :
    AddedInv pid A ((s.reinit p k true).listAddNext pid k p) where
  once := ListedOnce.add (s := s.reinit p k true) ⟨h.once.nodup, h.once.unique⟩ h.unlisted k
  aligned := h.aligned.add hk h.dvd
  listed i hi q hq := by
    rw [listAddNext_self, Function.update_apply] at hq
    split at hq
    · rcases List.mem_cons.mp hq with rfl | hq
      · exact h.current
      · exact h.listed k hk q hq
    · exact h.listed i hi q hq
  heads q hhead hfree := by
    rw [listAddNext_pgdb] at hhead hfree
    by_cases hq : q ∈ (⟨p, k⟩ : Block)
    · rw [reinit_pgdb_of_mem hq] at hhead
      rw [show q = p from beq_iff_eq.mp hhead]
      exact h.current
    · rw [reinit_pgdb_of_not_mem hq] at hhead hfree
      exact h.heads q hhead hfree

theorem AddedInv.withPool (h : AddedInv pid A s) (p : ℕ) : AddedInv pid A (s.withPool pid p) where
  once := ⟨h.once.nodup, h.once.unique⟩
  aligned := h.aligned
  listed := h.listed
  heads q hhead hfree := by
    rw [withPool_field Page.isHead fun _ => rfl] at hhead
    rw [withPool_field Page.isFree fun _ => rfl] at hfree
    exact h.heads q hhead hfree

theorem AddedInv.mono {A' : ℕ → Prop} (h : AddedInv pid A s) (hsub : ∀ q, A q → A' q) :
    AddedInv pid A' s where
  once := h.once
  aligned := h.aligned
  listed k hk q hq := hsub q (h.listed k hk q hq)
  heads q hhead hfree := hsub q (h.heads q hhead hfree)

/-- One call of AddPages on a block whose first page is new. -/
theorem AddedInv.add {b : Block} (h : AddedInv pid A s) (hnew : ¬ A b.start) (hb : b.Aligned)
    (ho : b.order < maxPageOrder) :
    AddedInv pid (fun q => A q ∨ q = b.start) (s.addPages pid b.start b.order) := by
  have hopen : MergeInv pid (fun q => A q ∨ q = b.start) b.start b.order
      (s.withPool pid b.start) :=
    { (h.withPool b.start).mono fun q hq => Or.inl hq with
      current := Or.inr rfl
      unlisted := fun k hk hmem => hnew (h.listed k hk b.start hmem)
      dvd := hb }
  have hdone := combinePages_invariant (I := fun p k t => MergeInv pid _ p k t)
    (fun _ _ _ ht hc => ht.combine hc) (maxPageOrder - 1 - b.order) hopen
  have hle := combinePages_order_le (maxPageOrder - 1 - b.order) b.start b.order
    (s.withPool pid b.start)
  rw [addPages_eq, freePages, if_neg (by omega)]
  exact hdone.close (by omega)

theorem addAll_concat (s : PoolState) (adds : List Block) (b : Block) :
    addAll pid s (adds ++ [b]) = (addAll pid s adds).addPages pid b.start b.order := by
  rw [addAll, addAll, List.foldl_append, List.foldl_cons, List.foldl_nil]

/-- Calls of AddPages on blocks without a common page, from an empty pool. -/
theorem addedInv_addAll (hempty : ∀ k, s.freelist pid k = []) (hheads : NoFreeHeads s)
    (hsep : Separated adds) (horder : ∀ b ∈ adds, b.order < maxPageOrder) :
    AddedInv pid (Added adds) (addAll pid s adds) := by
  induction adds using List.reverseRecOn with
  | nil =>
    refine ⟨⟨fun k _ => ?_, fun i j q _ _ hq => ?_⟩, fun b hb => ?_, fun k _ q hq => ?_,
      fun q hhead hfree => absurd hfree (hheads q hhead)⟩
    · rw [addAll, List.foldl_nil, hempty]
      exact List.nodup_nil
    · rw [addAll, List.foldl_nil, hempty] at hq
      exact absurd hq List.not_mem_nil
    · have hmem := (mem_freeBlocks.mp hb).2
      rw [addAll, List.foldl_nil, hempty] at hmem
      exact absurd hmem List.not_mem_nil
    · rw [addAll, List.foldl_nil, hempty] at hq
      exact absurd hq List.not_mem_nil
  | append_singleton adds b ih =>
    have hperm : (adds ++ [b]).Perm (b :: adds) := List.perm_append_singleton b adds
    have hcons := hsep.perm hperm
    have hnew : ¬ Added adds b.start := by
      rintro ⟨a, ha, hstart⟩
      exact hcons.start_ne ha hstart.symm
    have hnext := (ih hcons.tail fun a ha => horder a (List.mem_append_left _ ha)).add hnew
      hcons.head_aligned (horder b (by simp))
    rw [addAll_concat]
    refine hnext.mono fun q hq => ?_
    rcases hq with ⟨a, ha, rfl⟩ | rfl
    · exact ⟨a, List.mem_append_left _ ha, rfl⟩
    · exact ⟨b, by simp, rfl⟩

end Runs

/-- Two pages of memory, on no list yet. -/
def twoPages : PoolState where
  pgdb := fun q => if q < 2 then { Page.zero with type := .normalMem } else Page.zero
  freelist := fun _ _ => []

theorem twoPages_pool (q : ℕ) : (twoPages.pgdb q).pool = none := by
  simp only [twoPages]
  split <;> rfl

theorem twoPages_noFreeHeads : NoFreeHeads twoPages := by
  intro q
  simp only [twoPages]
  split <;> simp [Page.zero]

end ClosureOS
