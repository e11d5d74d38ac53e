import ClosureOS.PoolBounds

/-!
Which entries __free_pages can touch in a run of any kind, merges of partially free buddies
included. The blocks that a run can come to work on are the donated pages, halves of such
blocks, and the parent of such a block when the first page of its buddy is one of them: the
merge loop takes this page for the head of the whole buddy. The entries stay inside the
database in every run if and only if the buddies of these blocks are inside.
-/
namespace ClosureOS

open DyadicBlocks PoolState

/-- The blocks that runs can gather from donated pages. -/
inductive Gathered (s : PoolState) (donated : List ℕ) : Block → Prop
  | page {p : ℕ} (hp : p ∈ donated) : Gathered s donated ⟨p, 0⟩
  | low {p k : ℕ} (h : Gathered s donated ⟨p, k + 1⟩) : Gathered s donated ⟨p, k⟩
  | high {p k : ℕ} (h : Gathered s donated ⟨p, k + 1⟩) : Gathered s donated ⟨p + 2 ^ k, k⟩
  | merge {p k : ℕ} (hk : k < maxPageOrder - 1) (h : Gathered s donated ⟨p, k⟩)
      (hbuddy : Gathered s donated ⟨getPageBuddy p k, 0⟩)
      (hnormal : (s.pgdb (getPageBuddy p k)).type = .normalMem) :
      Gathered s donated ⟨min p (getPageBuddy p k), k + 1⟩

/-- The buddies of these blocks, below the largest order, are in the database. -/
def GatheredInside (nr : ℕ) (s : PoolState) (donated : List ℕ) : Prop :=
  ∀ p k, k < maxPageOrder - 1 → Gathered s donated ⟨p, k⟩ → getPageBuddy p k < nr

section Gather

variable {pid nr : ℕ} {s t : PoolState} {donated : List ℕ} {c c' : DonationRun} {p k n q : ℕ}
  {b : Block}

theorem gathered_halving (s : PoolState) (donated : List ℕ) : Halving (Gathered s donated) where
  aligned b h := by
    induction h with
    | page hp => exact Nat.one_dvd _
    | low _ ih => exact two_pow_succ_dvd ih
    | high _ ih => exact Nat.dvd_add (two_pow_succ_dvd ih) (Nat.dvd_refl _)
    | merge _ _ _ _ ih _ =>
      unfold Block.Aligned
      rw [getPageBuddy_eq]
      exact dvd_min_xor ih
  low _ _ h := Gathered.low h
  high _ _ h := Gathered.high h

/-- Every page of a gathered block is one. -/
theorem Gathered.single (h : Gathered s donated b) (hq : q ∈ b) : Gathered s donated ⟨q, 0⟩ := by
  obtain ⟨p, k⟩ := b
  induction k generalizing p with
  | zero =>
    rw [mem_zero_iff.mp hq]
    exact h
  | succ k ih =>
    rcases mem_parent.mp hq with hq | hq
    · exact ih p h.low hq
    · exact ih _ h.high hq

theorem Gathered.order_lt (h : Gathered s donated b) : b.order < maxPageOrder := by
  induction h with
  | page => exact Nat.succ_pos _
  | low _ ih => exact Nat.lt_of_succ_lt ih
  | high _ ih => exact Nat.lt_of_succ_lt ih
  | merge hk _ _ _ _ _ => exact Nat.add_lt_of_lt_sub hk

/-- The buddy of an even page is the next one, the buddy of an odd page the one before. -/
theorem getPageBuddy_zero (q : ℕ) :
    (2 ∣ q ∧ getPageBuddy q 0 = q + 1) ∨ ∃ r, q = r + 1 ∧ 2 ∣ r ∧ getPageBuddy r 0 = q := by
  have hone : 2 ^ 0 ∣ q := Nat.one_dvd q
  rcases half_cases hone with hq | ⟨r, hr, rfl⟩
  · exact Or.inl ⟨hq, getPageBuddy_of_dvd hq Nat.one_pos⟩
  · exact Or.inr ⟨r, rfl, hr, getPageBuddy_of_dvd hr Nat.one_pos⟩

/-- When the buddies are in the database, so are the blocks. -/
theorem Gathered.lt (hdonated : ∀ q ∈ donated, q < nr) (hinside : GatheredInside nr s donated)
    (h : Gathered s donated b) (hq : q ∈ b) : q < nr := by
  have hzero : 0 < maxPageOrder - 1 := by decide
  induction h with
  | page hp =>
    rw [mem_zero_iff.mp hq]
    exact hdonated _ hp
  | low _ ih => exact ih (mem_parent.mpr (Or.inl hq))
  | high _ ih => exact ih (mem_parent.mpr (Or.inr hq))
  | @merge p k hk h hbuddy hnormal ih _ =>
    have hmerged := Gathered.merge hk h hbuddy hnormal
    have hp : 2 ^ k ∣ p := (gathered_halving s donated).aligned _ h
    rw [getPageBuddy_eq] at hq
    rcases (mem_merged hp).mp hq with hlow | hhigh
    · exact ih hlow
    · rcases getPageBuddy_zero q with ⟨_, heven⟩ | ⟨r, rfl, heven, hodd⟩
      · have hlt := hinside q 0 hzero (hmerged.single (by rw [getPageBuddy_eq]; exact hq))
        omega
      · cases k with
        | zero =>
          rw [mem_zero_iff.mp hhigh, ← getPageBuddy_eq]
          exact hinside p 0 hk h
        | succ k =>
          -- the page in front of q is in the buddy too
          have hdvd := (pow_dvd_pow 2 (Nat.le_add_left 1 k)).trans (dvd_xor_two_pow hp)
          have hr : r ∈ (⟨p ^^^ 2 ^ (k + 1), k + 1⟩ : Block) := by
            rw [Block.mem_iff] at hhigh ⊢
            obtain ⟨x, hx⟩ := hdvd
            obtain ⟨y, hy⟩ := heven
            simp only at hhigh ⊢
            omega
          rw [← hodd]
          refine hinside r 0 hzero (hmerged.single ?_)
          rw [getPageBuddy_eq]
          exact (mem_merged hp).mpr (Or.inr hr)

/-! ### Every run keeps to gathered blocks -/

/-- Blocks on the lists and pages marked as free heads are gathered. -/
structure PoolGathered (pid : ℕ) (s₀ : PoolState) (donated : List ℕ) (s : PoolState) : Prop where
  listed : ListsOnly pid (Gathered s₀ donated) s
  heads : ∀ q, (s.pgdb q).isHead → (s.pgdb q).isFree → Gathered s₀ donated ⟨q, 0⟩
  type : ∀ q, (s.pgdb q).type = (s₀.pgdb q).type

/-- The same in the merge loop, with the block (p, k) and n rounds to go. -/
structure MergeGathered (pid : ℕ) (s₀ : PoolState) (donated : List ℕ) (n p k : ℕ) (s : PoolState) :
    Prop extends PoolGathered pid s₀ donated s where
  current : Gathered s₀ donated ⟨p, k⟩
  rounds : n + k = maxPageOrder - 1

/-- The same in a run. -/
structure RunGathered (pid : ℕ) (s₀ : PoolState) (donated : List ℕ) (c : DonationRun) : Prop where
  pool : PoolGathered pid s₀ donated c.pool
  live : ∀ b ∈ c.live, Gathered s₀ donated b
  rest : ∀ q ∈ c.rest, q ∈ donated

theorem MergeGathered.combine (h : MergeGathered pid s donated (n + 1) p k t)
    (hc : t.CanCombine (getPageBuddy p k)) :
    MergeGathered pid s donated n (t.combineStep p (getPageBuddy p k)).1 (k + 1)
      (t.combineStep p (getPageBuddy p k)).2 where
  listed b hb := h.listed b (mem_freeBlocks_of_combineStep hb)
  heads q hhead hfree := by
    by_cases hq : q = p
    · rw [hq]
      exact h.current.single (Block.start_mem ⟨p, k⟩)
    · rw [combineStep_pgdb _ _ _ _ hq] at hhead hfree
      exact h.heads q hhead hfree
  type q := (untouched_type.combineStep t p _ q).trans (h.type q)
  current := by
    have hrounds := h.rounds
    rw [combineStep_fst]
    exact Gathered.merge (by omega) h.current (h.heads _ hc.2.1 hc.2.2)
      ((h.type _).symm.trans hc.1)
  rounds := by
    have hrounds := h.rounds
    omega

/-- The rounds of the loop find their entries in the database. -/
theorem MergeGathered.roundBelow (hdonated : ∀ q ∈ donated, q < nr)
    (hinside : GatheredInside nr s donated) (h : MergeGathered pid s donated n p k t) :
    RoundBelow nr pid n p k t where
  listed i hi q hq :=
    (h.listed _ (mem_freeBlocks.mpr ⟨hi, hq⟩)).lt hdonated hinside (Block.start_mem ⟨q, i⟩)
  current _ hq := h.current.lt hdonated hinside hq
  buddy hn := by
    have hrounds := h.rounds
    exact hinside p k (by omega) h.current

/-- Writing a gathered block keeps the marks on gathered pages. -/
theorem PoolGathered.reinit (h : PoolGathered pid s donated t)
    (hb : Gathered s donated ⟨p, k⟩) (free : Bool) :
    PoolGathered pid s donated (t.reinit p k free) where
  listed := h.listed
  heads q hhead hfree := by
    by_cases hq : q ∈ (⟨p, k⟩ : Block)
    · exact hb.single hq
    · rw [reinit_pgdb_of_not_mem hq] at hhead hfree
      exact h.heads q hhead hfree
  type q := (untouched_type.reinit_pgdb t p k free q).trans (h.type q)

theorem PoolGathered.free (h : PoolGathered pid s donated t) (hb : Gathered s donated b) :
    PoolGathered pid s donated (t.freePages pid (some b.start) b.order) := by
  have hlt := hb.order_lt
  have hopen : MergeGathered pid s donated (maxPageOrder - 1 - b.order) b.start b.order t :=
    { h with current := hb, rounds := by omega }
  obtain ⟨m, hdone⟩ := combinePages_rounds (fun _ _ _ _ ht hc => ht.combine hc) hopen
  have hclosed := hdone.toPoolGathered.reinit hdone.current true
  simp only [freePages, if_neg (Nat.not_le_of_lt hlt)]
  exact ⟨hdone.listed.add hdone.current.order_lt hdone.current, hclosed.heads, hclosed.type⟩

theorem PoolGathered.alloc (h : PoolGathered pid s donated t) (order : ℕ) :
    PoolGathered pid s donated (t.allocPages pid order).2 ∧
      ∀ p, (t.allocPages pid order).1 = some p → Gathered s donated ⟨p, order⟩ := by
  have hhalving := gathered_halving s donated
  obtain ⟨hlisted, hreturned⟩ := h.listed.alloc hhalving order
  refine ⟨⟨hlisted, ?_, fun q => (untouched_type.allocPages t pid order q).trans (h.type q)⟩,
    fun p hp => (hreturned p hp).2⟩
  rcases t.allocPages_cases pid order with ⟨_, j, p, hsearch, heq⟩ | ⟨_, heq⟩
  · obtain ⟨hle, hmem, _, _⟩ := allocSearch_eq_some hsearch
    have hp := h.listed _ hmem
    have hsplit : PoolGathered pid s donated (putHalves pid p order j (t.listDel p)) := by
      refine putHalves_invariant (I := fun _ u => PoolGathered pid s donated u)
        (fun k u _ hkj hu => ?_) hle ⟨h.listed.listDel p, h.heads, h.type⟩
      have hbuddy := hhalving.buddy hp hkj
      have hnext := hu.reinit hbuddy true
      exact ⟨hu.listed.add hbuddy.order_lt hbuddy, hnext.heads, hnext.type⟩
    rw [heq]
    exact (hsplit.reinit (hhalving.low_of_le hp hle) false).heads
  · rw [heq]
    exact h.heads

theorem PoolGathered.withPool (h : PoolGathered pid s donated t) (p : ℕ) :
    PoolGathered pid s donated (t.withPool pid p) where
  listed := h.listed
  heads q hhead hfree := by
    rw [withPool_field Page.isHead fun _ => rfl] at hhead
    rw [withPool_field Page.isFree fun _ => rfl] at hfree
    exact h.heads q hhead hfree
  type q := (withPool_field Page.type (fun _ => rfl) t p q).trans (h.type q)

theorem RunGathered.step (h : RunGathered pid s donated c) (hstep : c.Step pid c') :
    RunGathered pid s donated c' := by
  obtain ⟨op, hvalid, rfl⟩ := hstep
  cases op with
  | add p =>
    have hp := Gathered.page (s := s) (h.rest p hvalid)
    exact ⟨(h.pool.withPool p).free hp, h.live, fun q hq => h.rest q (List.mem_of_mem_erase hq)⟩
  | alloc order =>
    obtain ⟨hpool, hreturned⟩ := h.pool.alloc order
    rcases hcall : c.pool.allocPages pid order with ⟨_ | p, t⟩
    · rw [hcall] at hpool
      simp only [DonationRun.step, hcall]
      exact ⟨hpool, h.live, h.rest⟩
    · rw [hcall] at hpool hreturned
      simp only [DonationRun.step, hcall]
      refine ⟨hpool, fun b hb => ?_, h.rest⟩
      rcases List.mem_cons.mp hb with rfl | hb
      · exact hreturned p rfl
      · exact h.live b hb
  | free b =>
    exact ⟨h.pool.free (h.live b hvalid), fun a ha => h.live a (List.mem_of_mem_erase ha), h.rest⟩

theorem RunGathered.run (h : RunGathered pid s donated c)
    (hrun : Relation.ReflTransGen (DonationRun.Step pid) c c') :
    RunGathered pid s donated c' := by
  induction hrun with
  | refl => exact h
  | tail _ hstep ih => exact ih.step hstep

theorem Donatable.runGathered (h : Donatable pid s donated) :
    RunGathered pid s donated ⟨s, [], donated⟩ where
  pool := by
    refine ⟨fun b hb => ?_, fun q _ hfree => ?_, fun _ => rfl⟩
    · have hmem := (mem_freeBlocks.mp hb).2
      rw [h.empty] at hmem
      exact absurd hmem List.not_mem_nil
    · rw [h.notFree] at hfree
      exact absurd hfree Bool.false_ne_true
  live b hb := absurd hb List.not_mem_nil
  rest q hq := hq

theorem PoolGathered.freeAccess_lt (hdonated : ∀ q ∈ donated, q < nr)
    (hinside : GatheredInside nr s donated) (h : PoolGathered pid s donated t)
    (hb : Gathered s donated b) : ∀ q ∈ t.freeAccess pid b.start b.order, q < nr :=
  ClosureOS.freeAccess_lt (I := MergeGathered pid s donated)
    (fun _ _ _ _ ht => ht.roundBelow hdonated hinside) (fun _ _ _ _ ht hc => ht.combine hc)
    fun _ => { h with current := hb, rounds := by have := hb.order_lt; omega }

/-- In every state of every run, __free_pages touches entries of the database. -/
theorem RunGathered.access_lt (hdonated : ∀ q ∈ donated, q < nr)
    (hinside : GatheredInside nr s donated) (h : RunGathered pid s donated c) (op : DonationOp)
    (hvalid : c.Valid op) : ∀ q ∈ c.access pid op, q < nr := by
  cases op with
  | add p =>
    exact (h.pool.withPool p).freeAccess_lt hdonated hinside (b := ⟨p, 0⟩)
      (Gathered.page (h.rest p hvalid))
  | alloc order => exact fun q hq => absurd hq List.not_mem_nil
  | free b => exact h.pool.freeAccess_lt hdonated hinside (h.live b hvalid)

/-! ### A run that gathers a block -/

/-- The block lies in a live one. -/
def DonationRun.Holds (c : DonationRun) (b : Block) : Prop := ∃ a ∈ c.live, ∀ i ∈ b, i ∈ a

/-- No list of the pool has an entry, and no page is marked as the head of a free block. -/
structure Drained (pid : ℕ) (s : PoolState) : Prop where
  empty : ∀ k < maxPageOrder, s.freelist pid k = []
  noHeads : ∀ q, (s.pgdb q).isHead → ¬ (s.pgdb q).isFree

/-- The block b is the only one on the lists, and its head the only one marked. -/
structure OneFree (pid : ℕ) (s : PoolState) (b : Block) : Prop where
  lists : ∀ k < maxPageOrder, s.freelist pid k = if k = b.order then [b.start] else []
  head : (s.pgdb b.start).isHead ∧ (s.pgdb b.start).isFree
  noHeads : ∀ q, q ≠ b.start → (s.pgdb q).isHead → ¬ (s.pgdb q).isFree

/-- A state of a run between two merges: all pages that were gathered are live, and the other
donated ones still wait. -/
structure Idle (pid : ℕ) (s₀ : PoolState) (donated : List ℕ) (c : DonationRun) : Prop where
  drained : Drained pid c.pool
  type : ∀ q, (c.pool.pgdb q).type = (s₀.pgdb q).type
  live : ∀ b ∈ c.live, b.Aligned ∧ b.order < maxPageOrder
  pages : ∀ q ∈ donated, q ∈ c.rest ∨ c.Holds ⟨q, 0⟩

theorem combinePages_of_not (h : ¬ t.CanCombine (getPageBuddy p k)) (n : ℕ) :
    combinePages n p k t = (p, k, t) := by
  cases n with
  | zero => rfl
  | succ n => simp only [combinePages, if_neg h]

theorem Drained.not_canCombine (h : Drained pid t) (q : ℕ) : ¬ t.CanCombine q :=
  fun hc => h.noHeads q hc.2.1 hc.2.2

/-- Writing the block leaves its first page as the only head in it. -/
theorem oneFree_close (hk : k < maxPageOrder) (hempty : ∀ i < maxPageOrder, t.freelist pid i = [])
    (houtside : ∀ q, q ∉ (⟨p, k⟩ : Block) → (t.pgdb q).isHead → ¬ (t.pgdb q).isFree) :
    OneFree pid ((t.reinit p k true).listAddNext pid k p) ⟨p, k⟩ where
  lists i hi := by
    rw [listAddNext_self, Function.update_apply]
    split
    · next hik =>
      change p :: t.freelist pid k = _
      rw [hempty k hk]
    · exact hempty i hi
  head := by
    rw [listAddNext_pgdb, reinit_pgdb_of_mem (Block.start_mem ⟨p, k⟩)]
    exact ⟨beq_self_eq_true p, rfl⟩
  noHeads q hq hhead := by
    rw [listAddNext_pgdb] at hhead ⊢
    by_cases hmem : q ∈ (⟨p, k⟩ : Block)
    · rw [reinit_pgdb_of_mem hmem] at hhead
      exact absurd (beq_iff_eq.mp hhead) hq
    · rw [reinit_pgdb_of_not_mem hmem] at hhead ⊢
      exact houtside q hmem hhead

/-- Freeing a block when nothing else is free. -/
theorem Drained.free (h : Drained pid t) (hb : b.order < maxPageOrder) :
    OneFree pid (t.freePages pid (some b.start) b.order) b := by
  simp only [freePages, if_neg (Nat.not_le_of_lt hb),
    combinePages_of_not (h.not_canCombine _) _]
  exact oneFree_close hb h.empty fun q _ => h.noHeads q

/-- Freeing a block when only a part of its buddy is free, from the first page on. -/
theorem OneFree.free {j : ℕ} (h : OneFree pid t ⟨getPageBuddy p k, j⟩) (hk : k < maxPageOrder - 1)
    (hp : 2 ^ k ∣ p) (hnormal : (t.pgdb (getPageBuddy p k)).type = .normalMem) :
    OneFree pid (t.freePages pid (some p) k) ⟨min p (getPageBuddy p k), k + 1⟩ := by
  have hc : t.CanCombine (getPageBuddy p k) := ⟨hnormal, h.head⟩
  have hfst := combineStep_fst t p (getPageBuddy p k)
  have hdvd : 2 ^ (k + 1) ∣ min p (getPageBuddy p k) := by
    rw [getPageBuddy_eq]
    exact dvd_min_xor hp
  have hhalf : ∀ q, q ∉ (⟨min p (getPageBuddy p k), k + 1⟩ : Block) →
      q ≠ p ∧ q ≠ getPageBuddy p k := by
    intro q hq
    rw [getPageBuddy_eq, mem_merged hp, not_or] at hq
    refine ⟨fun he => hq.1 (he ▸ Block.start_mem ⟨p, k⟩), fun he => hq.2 ?_⟩
    rw [he, getPageBuddy_eq]
    exact Block.start_mem ⟨p ^^^ 2 ^ k, k⟩
  have houtside : ∀ q, q ∉ (⟨min p (getPageBuddy p k), k + 1⟩ : Block) →
      ((t.combineStep p (getPageBuddy p k)).2.pgdb q).isHead →
        ¬ ((t.combineStep p (getPageBuddy p k)).2.pgdb q).isFree := by
    intro q hq
    rw [combineStep_pgdb _ _ _ _ (hhalf q hq).1]
    exact h.noHeads q (hhalf q hq).2
  have hstop : ¬ (t.combineStep p (getPageBuddy p k)).2.CanCombine
      (getPageBuddy (min p (getPageBuddy p k)) (k + 1)) :=
    fun hcan => houtside _ (getPageBuddy_not_mem hdvd) hcan.2.1 hcan.2.2
  obtain ⟨n, hn⟩ : ∃ n, maxPageOrder - 1 - k = n + 1 := ⟨maxPageOrder - 1 - k - 1, by omega⟩
  have hmax : ¬ k ≥ maxPageOrder := by omega
  simp only [freePages, if_neg hmax, hn, combinePages, if_pos hc, hfst, combinePages_of_not hstop]
  refine oneFree_close (by omega) (fun i hi => ?_) houtside
  rw [combineStep_freelist]
  change (t.freelist pid i).erase _ = []
  rw [h.lists i hi]
  split
  · simp
  · rfl

/-- Taking the only free block. -/
theorem OneFree.alloc (h : OneFree pid t b) (hb : b.order < maxPageOrder) :
    ∃ u, t.allocPages pid b.order = (some b.start, u) ∧ Drained pid u := by
  have hlist := h.lists b.order hb
  rw [if_pos rfl] at hlist
  refine ⟨_, allocPages_of_head hb (by rw [hlist]; rfl), ⟨fun i hi => ?_, fun q hhead => ?_⟩⟩
  · change (t.freelist pid i).erase _ = []
    rw [h.lists i hi]
    split
    · simp
    · rfl
  · by_cases hq : q ∈ (⟨b.start, b.order⟩ : Block)
    · rw [reinit_pgdb_of_mem hq]
      exact Bool.false_ne_true
    · rw [reinit_pgdb_of_not_mem hq] at hhead ⊢
      exact h.noHeads q (fun he => hq (he ▸ Block.start_mem ⟨b.start, b.order⟩)) hhead

/-- The run goes on to c', where b is live too and nothing that was live is lost. -/
structure Continues (pid : ℕ) (s₀ : PoolState) (donated : List ℕ) (c c' : DonationRun) (b : Block) :
    Prop where
  run : Relation.ReflTransGen (DonationRun.Step pid) c c'
  idle : Idle pid s₀ donated c'
  keeps : ∀ a, c.Holds a → c'.Holds a
  holds : c'.Holds b

theorem DonationRun.step_alloc {u : PoolState} {order : ℕ}
    (h : c.pool.allocPages pid order = (some p, u)) :
    c.step pid (.alloc order) = { c with pool := u, live := ⟨p, order⟩ :: c.live } := by
  simp only [DonationRun.step, h]

/-- A page that waits is added and taken. -/
theorem Idle.add (h : Idle pid s donated c) (hq : q ∈ c.rest) :
    ∃ c', Continues pid s donated c c' ⟨q, 0⟩ := by
  have hdrained : Drained pid (c.pool.withPool pid q) := by
    refine ⟨h.drained.empty, fun r hhead => ?_⟩
    rw [withPool_field Page.isHead fun _ => rfl] at hhead
    rw [withPool_field Page.isFree fun _ => rfl]
    exact h.drained.noHeads r hhead
  have hfree : OneFree pid (c.step pid (.add q)).pool ⟨q, 0⟩ :=
    hdrained.free (b := ⟨q, 0⟩) (Nat.succ_pos _)
  obtain ⟨u, halloc, hnext⟩ := hfree.alloc (Nat.succ_pos _)
  have htype := fun r => (untouched_type.allocPages (c.step pid (.add q)).pool pid 0 r).trans
    ((untouched_type.freePages (c.pool.withPool pid q) pid (some q) 0 r).trans
      ((withPool_field Page.type (fun _ => rfl) c.pool q r).trans (h.type r)))
  rw [halloc] at htype
  refine ⟨⟨u, ⟨q, 0⟩ :: c.live, c.rest.erase q⟩, ?_, ⟨hnext, htype, fun b hb => ?_, fun r hr => ?_⟩,
    fun a => ?_, ⟨_, List.mem_cons_self, fun _ hi => hi⟩⟩
  · refine (Relation.ReflTransGen.single ⟨.add q, hq, rfl⟩).tail ⟨.alloc 0, trivial, ?_⟩
    rw [DonationRun.step_alloc halloc]
    rfl
  · rcases List.mem_cons.mp hb with rfl | hb
    · exact ⟨Nat.one_dvd _, Nat.succ_pos _⟩
    · exact h.live b hb
  · by_cases hrq : r = q
    · subst hrq
      exact Or.inr ⟨_, List.mem_cons_self, fun _ hi => hi⟩
    · rcases h.pages r hr with hrest | ⟨a, ha, hsub⟩
      · exact Or.inl ((List.mem_erase_of_ne hrq).mpr hrest)
      · exact Or.inr ⟨a, List.mem_cons_of_mem _ ha, hsub⟩
  · exact fun ⟨d, hd, hsub⟩ => ⟨d, List.mem_cons_of_mem _ hd, hsub⟩

/-- A block in place of two others that it contains. -/
theorem exists_cons_erase {live : List Block} {a b d e : Block} (ha : ∀ i ∈ a, i ∈ e)
    (hb : ∀ i ∈ b, i ∈ e) (hd : ∃ x ∈ live, ∀ i ∈ d, i ∈ x) :
    ∃ x ∈ e :: (live.erase b).erase a, ∀ i ∈ d, i ∈ x := by
  obtain ⟨x, hx, hsub⟩ := hd
  by_cases hxa : x = a
  · exact ⟨e, List.mem_cons_self, fun i hi => ha i (hxa ▸ hsub i hi)⟩
  · by_cases hxb : x = b
    · exact ⟨e, List.mem_cons_self, fun i hi => hb i (hxb ▸ hsub i hi)⟩
    · exact ⟨x, List.mem_cons_of_mem _ ((List.mem_erase_of_ne hxa).mpr
        ((List.mem_erase_of_ne hxb).mpr hx)), hsub⟩

/-- A live block is merged with a buddy of which a first part is live. -/
theorem Idle.merge {j : ℕ} (h : Idle pid s donated c) (hk : k < maxPageOrder - 1)
    (hp : ⟨p, k⟩ ∈ c.live) (hbuddy : ⟨getPageBuddy p k, j⟩ ∈ c.live) (hj : j ≤ k)
    (hnormal : (s.pgdb (getPageBuddy p k)).type = .normalMem) :
    ∃ c', Continues pid s donated c c' ⟨min p (getPageBuddy p k), k + 1⟩ := by
  have hdvd : 2 ^ k ∣ p := (h.live _ hp).1
  have hfirst : OneFree pid (c.step pid (.free ⟨getPageBuddy p k, j⟩)).pool ⟨getPageBuddy p k, j⟩ :=
    h.drained.free (b := ⟨getPageBuddy p k, j⟩) (h.live _ hbuddy).2
  have htype := fun r => (untouched_type.freePages c.pool pid (some (getPageBuddy p k)) j r).trans
    (h.type r)
  have hmerged := hfirst.free hk hdvd ((htype _).trans hnormal)
  have hne : (⟨p, k⟩ : Block) ≠ ⟨getPageBuddy p k, j⟩ := by
    intro he
    have hstart : p = getPageBuddy p k := congrArg Block.start he
    exact getPageBuddy_not_mem hdvd (hstart ▸ Block.start_mem ⟨p, k⟩)
  obtain ⟨u, halloc, hnext⟩ := hmerged.alloc (Nat.add_lt_of_lt_sub hk)
  have htype' := fun r => (untouched_type.allocPages _ pid (k + 1) r).trans
    ((untouched_type.freePages (c.step pid (.free ⟨getPageBuddy p k, j⟩)).pool pid (some p) k
      r).trans (htype r))
  rw [halloc] at htype'
  have hparent : ∀ i, i ∈ (⟨p, k⟩ : Block) ∨ i ∈ (⟨getPageBuddy p k, j⟩ : Block) →
      i ∈ (⟨min p (getPageBuddy p k), k + 1⟩ : Block) := by
    intro i hi
    rw [getPageBuddy_eq] at hi ⊢
    exact (mem_merged hdvd).mpr (hi.imp id (mem_of_order_le hj))
  -- what was in one of the two blocks is in their parent
  have hkeep : ∀ a, c.Holds a → ∃ d ∈ (⟨min p (getPageBuddy p k), k + 1⟩ : Block) ::
      (c.live.erase ⟨getPageBuddy p k, j⟩).erase ⟨p, k⟩, ∀ i ∈ a, i ∈ d :=
    fun _ ha => exists_cons_erase (fun i hi => hparent i (Or.inl hi))
      (fun i hi => hparent i (Or.inr hi)) ha
  refine ⟨⟨u, ⟨min p (getPageBuddy p k), k + 1⟩ ::
      (c.live.erase ⟨getPageBuddy p k, j⟩).erase ⟨p, k⟩, c.rest⟩, ?_,
    ⟨hnext, htype', fun b hb => ?_, fun q hq => (h.pages q hq).imp id (hkeep _)⟩, hkeep,
    ⟨_, List.mem_cons_self, fun _ hi => hi⟩⟩
  · refine ((Relation.ReflTransGen.single ⟨.free ⟨getPageBuddy p k, j⟩, hbuddy, rfl⟩).tail
      ⟨.free ⟨p, k⟩, (List.mem_erase_of_ne hne).mpr hp, rfl⟩).tail ⟨.alloc (k + 1), trivial, ?_⟩
    rw [DonationRun.step_alloc halloc]
    rfl
  · rcases List.mem_cons.mp hb with rfl | hb
    · refine ⟨?_, Nat.add_lt_of_lt_sub hk⟩
      unfold Block.Aligned
      rw [getPageBuddy_eq]
      exact dvd_min_xor hdvd
    · exact h.live b (List.mem_of_mem_erase (List.mem_of_mem_erase hb))

theorem Continues.weaken {a : Block} (h : Continues pid s donated c c' b) (hsub : ∀ i ∈ a, i ∈ b) :
    Continues pid s donated c c' a :=
  { h with holds := h.holds.imp fun _ hd => ⟨hd.1, fun i hi => hd.2 i (hsub i hi)⟩ }

theorem Continues.trans {a : Block} {c'' : DonationRun} (h : Continues pid s donated c c' a)
    (h' : Continues pid s donated c' c'' b) : Continues pid s donated c c'' b where
  run := h.run.trans h'.run
  idle := h'.idle
  keeps d hd := h'.keeps d (h.keeps d hd)
  holds := h'.holds

theorem Idle.stay (h : Idle pid s donated c) (hb : c.Holds b) : Continues pid s donated c c b :=
  ⟨Relation.ReflTransGen.refl, h, fun _ ha => ha, hb⟩

/-- Every gathered block comes to lie in a live one in some run. -/
theorem Gathered.exists_continues (h : Gathered s donated b) (hidle : Idle pid s donated c) :
    ∃ c', Continues pid s donated c c' b := by
  induction h generalizing c with
  | page hp =>
    rcases hidle.pages _ hp with hrest | hholds
    · exact hidle.add hrest
    · exact ⟨c, hidle.stay hholds⟩
  | low _ ih =>
    obtain ⟨c', hc'⟩ := ih hidle
    exact ⟨c', hc'.weaken fun i hi => mem_parent.mpr (Or.inl hi)⟩
  | high _ ih =>
    obtain ⟨c', hc'⟩ := ih hidle
    exact ⟨c', hc'.weaken fun i hi => mem_parent.mpr (Or.inr hi)⟩
  | @merge p k hk hblock hbuddy hnormal ih ihb =>
    obtain ⟨c₁, hc₁⟩ := ih hidle
    obtain ⟨c₂, hc₂⟩ := ihb hc₁.idle
    have hrun := hc₁.trans hc₂
    have hp : 2 ^ k ∣ p := (gathered_halving s donated).aligned _ hblock
    obtain ⟨d, hd, hsub⟩ := hc₂.keeps _ hc₁.holds
    obtain ⟨e, he, hmem⟩ := hc₂.holds
    have hfirst := hmem _ (Block.start_mem ⟨getPageBuddy p k, 0⟩)
    have hbuddyEq := getPageBuddy_eq p k
    rcases eq_or_parent_subset (hc₂.idle.live d hd).1 hp hsub with rfl | hall
    · rw [hbuddyEq] at hfirst
      rcases start_eq_or_parent_subset (hc₂.idle.live e he).1 hp hfirst with ⟨hstart, hj⟩ | hall
      · have he' : ⟨getPageBuddy p k, e.order⟩ ∈ c₂.live := by
          rw [hbuddyEq, ← hstart]
          exact he
        obtain ⟨c₃, hc₃⟩ := hc₂.idle.merge hk hd he' hj hnormal
        exact ⟨c₃, hrun.trans hc₃⟩
      · rw [hbuddyEq]
        exact ⟨c₂, hrun.trans (hc₂.idle.stay ⟨e, he, hall⟩)⟩
    · rw [hbuddyEq]
      exact ⟨c₂, hrun.trans (hc₂.idle.stay ⟨d, hd, hall⟩)⟩

theorem Donatable.idle (h : Donatable pid s donated) : Idle pid s donated ⟨s, [], donated⟩ where
  drained := by
    refine ⟨fun k _ => h.empty k, fun q _ => ?_⟩
    rw [h.notFree]
    exact Bool.false_ne_true
  type _ := rfl
  live b hb := absurd hb List.not_mem_nil
  pages q hq := Or.inl hq

/-- Freeing a block when nothing else is free touches its buddy and all its pages. -/
theorem Drained.mem_freeAccess (h : Drained pid t) (hb : b.order < maxPageOrder) :
    (b.order < maxPageOrder - 1 →
      getPageBuddy b.start b.order ∈ t.freeAccess pid b.start b.order) ∧
    ∀ q ∈ b, q ∈ t.freeAccess pid b.start b.order := by
  have hstop := h.not_canCombine (getPageBuddy b.start b.order)
  simp only [freeAccess, if_neg (Nat.not_le_of_lt hb), combinePages_of_not hstop]
  constructor
  · intro hk
    obtain ⟨n, hn⟩ : ∃ n, maxPageOrder - 1 - b.order = n + 1 :=
      ⟨maxPageOrder - 1 - b.order - 1, by omega⟩
    refine List.mem_append_left _ (List.mem_append_left _ ?_)
    rw [hn, combineAccess, if_neg hstop]
    exact List.mem_singleton_self _
  · intro q hq
    exact List.mem_append_left _ (List.mem_append_right _ (List.mem_range'_1.mpr hq))

/-- The buddy of a gathered block is touched in some run. -/
theorem Gathered.exists_access (h : Donatable pid s donated) (hb : Gathered s donated ⟨p, k⟩)
    (hk : k < maxPageOrder - 1) :
    ∃ c op, Relation.ReflTransGen (DonationRun.Step pid) ⟨s, [], donated⟩ c ∧ c.Valid op ∧
      getPageBuddy p k ∈ c.access pid op := by
  obtain ⟨c, hc⟩ := hb.exists_continues h.idle
  obtain ⟨d, hd, hsub⟩ := hc.holds
  have hp : 2 ^ k ∣ p := (gathered_halving s donated).aligned _ hb
  obtain ⟨hbuddy, hpages⟩ := hc.idle.drained.mem_freeAccess (hc.idle.live d hd).2
  refine ⟨c, .free d, hc.run, hd, ?_⟩
  rcases eq_or_parent_subset (hc.idle.live d hd).1 hp hsub with rfl | hall
  · exact hbuddy hk
  · refine hpages _ (hall _ ((mem_merged hp).mpr (Or.inr ?_)))
    rw [getPageBuddy_eq]
    exact Block.start_mem ⟨p ^^^ 2 ^ k, k⟩

/-- In a database of whole blocks of the largest order no gathered block leads outside. -/
theorem gatheredInside_of_dvd (hdonated : ∀ q ∈ donated, q < nr)
    (hnr : 2 ^ (maxPageOrder - 1) ∣ nr) : GatheredInside nr s donated := by
  have hlt : ∀ b, Gathered s donated b → ∀ q ∈ b, q < nr := by
    intro b h
    induction h with
    | page hp =>
      intro q hq
      rw [mem_zero_iff.mp hq]
      exact hdonated _ hp
    | low _ ih => exact fun q hq => ih q (mem_parent.mpr (Or.inl hq))
    | high _ ih => exact fun q hq => ih q (mem_parent.mpr (Or.inr hq))
    | @merge p k hk h _ _ ih _ =>
      intro q hq
      have hp : 2 ^ k ∣ p := (gathered_halving s donated).aligned _ h
      rw [getPageBuddy_eq] at hq
      rcases (mem_merged hp).mp hq with hq | hq
      · exact ih q hq
      · rw [← getPageBuddy_eq] at hq
        exact mem_buddy_lt hnr hk hp (ih p (Block.start_mem ⟨p, k⟩)) hq
  intro p k hk h
  exact mem_buddy_lt hnr hk ((gathered_halving s donated).aligned _ h)
    (hlt _ h p (Block.start_mem ⟨p, k⟩)) (Block.start_mem ⟨getPageBuddy p k, k⟩)

end Gather

/-- The first n pages are ordinary memory, and the pool is empty. -/
def emptyPool (n : ℕ) : PoolState where
  pgdb := fun q => if q < n then { Page.zero with type := .normalMem } else Page.zero
  freelist := fun _ _ => []

theorem emptyPool_donatable (pid n : ℕ) : Donatable pid (emptyPool n) (List.range n) where
  nodup := List.nodup_range
  empty _ := rfl
  notFree q := by
    simp only [emptyPool]
    split <;> rfl
  normal q hq := by
    simp only [emptyPool, if_pos (List.mem_range.mp hq)]

end ClosureOS
