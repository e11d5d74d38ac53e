import ClosureOS.PoolAccess
import ClosureOS.PoolListed

/-!
The runs in which AddPages gives donated pages to an empty pool one by one, with calls of
AllocPages and FreePages in between, and a bound for the entries that __free_pages touches
in them. In a run that absorbs whole buddies only, all blocks consist of donated pages.
-/
namespace ClosureOS

open DyadicBlocks PoolState

/-! ### Runs -/

/-- A pool, the live blocks, and the donated pages that were not added yet. -/
structure DonationRun where
  pool : PoolState
  live : List Block
  rest : List ℕ

inductive DonationOp
  | add (p : ℕ)
  | alloc (order : ℕ)
  | free (b : Block)
deriving DecidableEq

namespace DonationRun

/-- AddPages takes a donated page once, FreePages a live block. -/
def Valid (c : DonationRun) : DonationOp → Prop
  | .add p => p ∈ c.rest
  | .alloc _ => True
  | .free b => b ∈ c.live

def step (pid : ℕ) (c : DonationRun) : DonationOp → DonationRun
  | .add p => { c with pool := c.pool.addPages pid p 0, rest := c.rest.erase p }
  | .alloc order =>
    match c.pool.allocPages pid order with
    | (some p, s) => { c with pool := s, live := ⟨p, order⟩ :: c.live }
    | (none, s) => { c with pool := s }
  | .free b =>
    { c with pool := c.pool.freePages pid (some b.start) b.order, live := c.live.erase b }

/-- Every buddy that the call absorbs carries the order at which it is absorbed. -/
def Whole (pid : ℕ) (c : DonationRun) : DonationOp → Prop
  | .add p => MergesWhole (maxPageOrder - 1) p 0 (c.pool.withPool pid p)
  | .alloc _ => True
  | .free b => MergesWhole (maxPageOrder - 1 - b.order) b.start b.order c.pool

instance (c : DonationRun) : ∀ op, Decidable (c.Valid op)
  | .add p => inferInstanceAs (Decidable (p ∈ c.rest))
  | .alloc _ => isTrue trivial
  | .free b => inferInstanceAs (Decidable (b ∈ c.live))

instance (pid : ℕ) (c : DonationRun) : ∀ op, Decidable (c.Whole pid op)
  | .add _ => inferInstanceAs (Decidable (MergesWhole _ _ _ _))
  | .alloc _ => isTrue trivial
  | .free _ => inferInstanceAs (Decidable (MergesWhole _ _ _ _))

/-- The entries that __free_pages touches in the call. -/
def access (pid : ℕ) (c : DonationRun) : DonationOp → List ℕ
  | .add p => (c.pool.withPool pid p).freeAccess pid p 0
  | .alloc _ => []
  | .free b => c.pool.freeAccess pid b.start b.order

/-- One valid call. -/
def Step (pid : ℕ) (c c' : DonationRun) : Prop := ∃ op, c.Valid op ∧ c' = c.step pid op

/-- One valid call that absorbs whole buddies only. -/
def WholeStep (pid : ℕ) (c c' : DonationRun) : Prop :=
  ∃ op, c.Valid op ∧ c.Whole pid op ∧ c' = c.step pid op

end DonationRun

/-- An empty pool, and donated pages of ordinary memory. No page is free yet. -/
structure Donatable (pid : ℕ) (s : PoolState) (donated : List ℕ) : Prop where
  nodup : donated.Nodup
  empty : ∀ k, s.freelist pid k = []
  notFree : ∀ q, (s.pgdb q).isFree = false
  normal : ∀ q ∈ donated, (s.pgdb q).type = .normalMem

/-- The buddy of every aligned block of donated pages, below the largest order, is in the
database. -/
def BuddiesInside (nr : ℕ) (donated : List ℕ) : Prop :=
  ∀ p k, k < maxPageOrder - 1 → 2 ^ k ∣ p → (∀ q ∈ (⟨p, k⟩ : Block), q ∈ donated) →
    getPageBuddy p k < nr

/-! ### The invariant -/

/-- A donated page that was not added yet, as a block. -/
def single (p : ℕ) : Block := ⟨p, 0⟩

/-- Free and live blocks and the pages that wait are separated, and all are donated. -/
structure DonationInv (pid : ℕ) (donated : List ℕ) (c : DonationRun) : Prop where
  pool : PoolInv pid c.pool (c.rest.map single ++ c.live)
  free_within : ∀ b ∈ c.pool.freeBlocks pid, ∀ q ∈ b, q ∈ donated
  live_within : ∀ b ∈ c.live, ∀ q ∈ b, q ∈ donated
  rest_within : ∀ q ∈ c.rest, q ∈ donated
  normal : ∀ q ∈ donated, (c.pool.pgdb q).type = .normalMem

section Invariant

variable {pid : ℕ} {donated : List ℕ} {c c' : DonationRun} {s : PoolState} {live : List Block}
  {p k n q : ℕ} {b : Block}

theorem Donatable.start (h : Donatable pid s donated) :
    DonationInv pid donated ⟨s, [], donated⟩ := by
  have hempty : s.freeBlocks pid = [] := by
    refine List.eq_nil_iff_forall_not_mem.mpr fun b hb => ?_
    have hmem := (mem_freeBlocks.mp hb).2
    rw [h.empty] at hmem
    exact List.not_mem_nil hmem
  refine ⟨⟨⟨?_, ?_⟩, fun q _ hfree => ?_⟩, ?_, ?_, fun q hq => hq, h.normal⟩
  · rw [hempty, List.nil_append, List.append_nil, List.pairwise_map]
    refine h.nodup.imp fun hne => ?_
    simp only [single, Block.Apart, Block.stop]
    omega
  · intro b hb
    rw [hempty, List.nil_append, List.append_nil] at hb
    obtain ⟨q, _, rfl⟩ := List.mem_map.mp hb
    exact ⟨q, (Nat.one_mul q).symm⟩
  · rw [h.notFree] at hfree
    exact absurd hfree (by simp)
  · rw [hempty]
    exact fun b hb => absurd hb List.not_mem_nil
  · exact fun b hb => absurd hb List.not_mem_nil

theorem PoolInv.withPool (h : PoolInv pid s live) (p : ℕ) :
    PoolInv pid (s.withPool pid p) live where
  separated := h.separated
  listed q hhead hfree := by
    rw [withPool_field Page.isHead fun _ => rfl] at hhead
    rw [withPool_field Page.isFree fun _ => rfl] at hfree
    rw [withPool_field Page.order fun _ => rfl]
    exact h.listed q hhead hfree

theorem PoolInv.perm {live' : List Block} (h : PoolInv pid s live) (hp : live.Perm live') :
    PoolInv pid s live' :=
  ⟨h.separated.perm (hp.append_left _), h.listed⟩

/-- The merge loop works on donated pages only. -/
structure OpenDonation (pid : ℕ) (donated : List ℕ) (s : PoolState) (cur : Block)
    (live : List Block) : Prop where
  inv : OpenInv pid s cur live
  cur_within : ∀ q ∈ cur, q ∈ donated
  free_within : ∀ b ∈ s.freeBlocks pid, ∀ q ∈ b, q ∈ donated

theorem OpenDonation.combine (h : OpenDonation pid donated s ⟨p, k⟩ live)
    (hc : s.CanCombine (getPageBuddy p k)) (hk : (s.pgdb (getPageBuddy p k)).order = k) :
    OpenDonation pid donated (s.combineStep p (getPageBuddy p k)).2
      ⟨(s.combineStep p (getPageBuddy p k)).1, k + 1⟩ live where
  inv := h.inv.combine hc hk
  cur_within q hq := by
    have hp : 2 ^ k ∣ p := h.inv.separated.head_aligned
    rw [combineStep_fst, getPageBuddy_eq] at hq
    rcases (mem_merged hp).mp hq with hq | hq
    · exact h.cur_within q hq
    · have hlisted := h.inv.listed _ (getPageBuddy_not_mem hp) hc.2.1 hc.2.2
      rw [hk, getPageBuddy_eq] at hlisted
      exact h.free_within _ hlisted q hq
  free_within b hb := h.free_within b (mem_freeBlocks_of_combineStep hb)

theorem OpenDonation.combine_pages (h : OpenDonation pid donated s ⟨p, k⟩ live)
    (hw : MergesWhole n p k s) :
    OpenDonation pid donated (combinePages n p k s).2.2
      ⟨(combinePages n p k s).1, (combinePages n p k s).2.1⟩ live :=
  hw.invariant (I := fun p k s => OpenDonation pid donated s ⟨p, k⟩ live)
    (fun _ _ _ h hc hk => h.combine hc hk) h

theorem PoolInv.open_donation (h : PoolInv pid s live) (hb : b ∈ live) (hbin : ∀ q ∈ b, q ∈ donated)
    (hfree : ∀ b ∈ s.freeBlocks pid, ∀ q ∈ b, q ∈ donated) :
    OpenDonation pid donated s b (live.erase b) :=
  ⟨h.open_free hb, hbin, hfree⟩

/-- Freeing a block of donated pages lists donated pages. -/
theorem freePages_within (h : PoolInv pid s live) (hb : b ∈ live) (hbin : ∀ q ∈ b, q ∈ donated)
    (hfree : ∀ b ∈ s.freeBlocks pid, ∀ q ∈ b, q ∈ donated)
    (hw : MergesWhole (maxPageOrder - 1 - b.order) b.start b.order s) :
    ∀ a ∈ (s.freePages pid (some b.start) b.order).freeBlocks pid, ∀ q ∈ a, q ∈ donated := by
  by_cases ho : b.order ≥ maxPageOrder
  · simp only [freePages, if_pos ho]
    exact hfree
  · have hopen := (h.open_donation hb hbin hfree).combine_pages hw
    have hlt := (combinePages_order_le (maxPageOrder - 1 - b.order) b.start b.order s).trans_lt
      (show b.order + (maxPageOrder - 1 - b.order) < maxPageOrder by omega)
    intro a ha
    simp only [freePages, if_neg ho] at ha
    rcases List.mem_cons.mp ((freeBlocks_listAddNext _ pid _ hlt).mem_iff.mp ha) with rfl | ha
    · exact hopen.cur_within
    · exact hopen.free_within a ha

theorem DonationInv.add (h : DonationInv pid donated c) (hp : p ∈ c.rest)
    (hw : c.Whole pid (.add p)) : DonationInv pid donated (c.step pid (.add p)) := by
  have hb : single p ∈ c.rest.map single ++ c.live :=
    List.mem_append_left _ (List.mem_map_of_mem hp)
  have hinj : Function.Injective single := fun x y hxy => congrArg Block.start hxy
  have hpool := (h.pool.withPool p).free hb hw
  rw [List.erase_append_left _ (List.mem_map_of_mem hp), ← List.map_erase hinj] at hpool
  refine ⟨hpool, ?_, h.live_within, fun q hq => h.rest_within q (List.mem_of_mem_erase hq), ?_⟩
  · refine freePages_within (h.pool.withPool p) hb (fun q hq => ?_) h.free_within hw
    obtain rfl : q = p := mem_zero_iff.mp hq
    exact h.rest_within q hp
  · intro q hq
    have hsame := untouched_type.freePages (c.pool.withPool pid p) pid (some p) 0 q
    rw [withPool_field Page.type fun _ => rfl, h.normal q hq] at hsame
    exact hsame

theorem DonationInv.alloc (h : DonationInv pid donated c) (order : ℕ) :
    DonationInv pid donated (c.step pid (.alloc order)) := by
  have htype := fun q => untouched_type.allocPages c.pool pid order q
  rcases hcall : c.pool.allocPages pid order with ⟨_ | p, s⟩
  · obtain rfl := allocPages_none hcall
    simp only [DonationRun.step, hcall]
    exact h
  · have hres := allocPages_some h.pool.separated hcall
    rcases h.pool.alloc order with ⟨r, hr, hinv⟩ | ⟨hnone, _⟩
    · rw [hcall] at hr hinv htype
      obtain rfl : p = r := Option.some.inj hr
      simp only [DonationRun.step, hcall]
      obtain ⟨a, ha, hsub⟩ := hres.source
      refine ⟨hinv.perm List.perm_middle.symm, fun b hb q hq => ?_, fun b hb q hq => ?_,
        h.rest_within, fun q hq => (htype q).trans (h.normal q hq)⟩
      · obtain ⟨a, ha, hsub⟩ := hres.free_subset b hb
        exact h.free_within a ha q (hsub q hq)
      · rcases List.mem_cons.mp hb with rfl | hb
        · exact h.free_within a ha q (hsub q hq)
        · exact h.live_within b hb q hq
    · rw [hcall] at hnone
      exact absurd hnone (by simp)

theorem DonationInv.free (h : DonationInv pid donated c) (hb : b ∈ c.live)
    (hw : c.Whole pid (.free b)) : DonationInv pid donated (c.step pid (.free b)) := by
  have hmem : b ∈ c.rest.map single ++ c.live := List.mem_append_right _ hb
  have hperm :
      ((c.rest.map single ++ c.live).erase b).Perm (c.rest.map single ++ c.live.erase b) := by
    have hcons := ((List.perm_cons_erase hb).append_left (c.rest.map single)).trans List.perm_middle
    have herase := hcons.erase b
    rwa [List.erase_cons_head] at herase
  refine ⟨(h.pool.free hmem hw).perm hperm, ?_,
    fun a ha => h.live_within a (List.mem_of_mem_erase ha),
    h.rest_within, fun q hq => ?_⟩
  · exact freePages_within h.pool hmem (h.live_within b hb) h.free_within hw
  · exact (untouched_type.freePages c.pool pid (some b.start) b.order q).trans (h.normal q hq)

theorem DonationInv.step (h : DonationInv pid donated c) (hstep : c.WholeStep pid c') :
    DonationInv pid donated c' := by
  obtain ⟨op, hvalid, hwhole, rfl⟩ := hstep
  cases op with
  | add p => exact h.add hvalid hwhole
  | alloc order => exact h.alloc order
  | free b => exact h.free hvalid hwhole

theorem DonationInv.run (h : DonationInv pid donated c)
    (hrun : Relation.ReflTransGen (DonationRun.WholeStep pid) c c') :
    DonationInv pid donated c' := by
  induction hrun with
  | refl => exact h
  | tail _ hstep ih => exact ih.step hstep

/-! ### Accesses inside the database -/

/-- An entry on a free list is the first page of a free block. -/
theorem mem_donated_of_listed (hfree : ∀ b ∈ s.freeBlocks pid, ∀ q ∈ b, q ∈ donated)
    (hk : k < maxPageOrder) (hq : q ∈ s.freelist pid k) : q ∈ donated :=
  hfree ⟨q, k⟩ (mem_freeBlocks.mpr ⟨hk, hq⟩) q (Block.start_mem ⟨q, k⟩)

variable {nr : ℕ}

/-- What a round of the merge loop finds below nr: the listed pages, the current block and,
if it is not the last round, the buddy. -/
structure RoundBelow (nr pid n p k : ℕ) (s : PoolState) : Prop where
  listed : ∀ i < maxPageOrder, ∀ q ∈ s.freelist pid i, q < nr
  current : ∀ q ∈ (⟨p, k⟩ : Block), q < nr
  buddy : 0 < n → getPageBuddy p k < nr

/-- The merge loop touches entries below nr when all its rounds find them there. -/
theorem combineAccess_lt {I : ℕ → ℕ → ℕ → PoolState → Prop}
    (hround : ∀ n p k s, I n p k s → RoundBelow nr pid n p k s)
    (hstep : ∀ n p k s, I (n + 1) p k s → s.CanCombine (getPageBuddy p k) →
      I n (s.combineStep p (getPageBuddy p k)).1 (k + 1) (s.combineStep p (getPageBuddy p k)).2)
    (h : I n p k s) : ∀ q ∈ combineAccess pid n p k s, q < nr := by
  induction n generalizing p k s with
  | zero => exact fun q hq => absurd hq List.not_mem_nil
  | succ n ih =>
    have hr := hround _ _ _ _ h
    have hbuddy := hr.buddy (Nat.succ_pos n)
    intro q hq
    unfold combineAccess at hq
    by_cases hc : s.CanCombine (getPageBuddy p k)
    · rw [if_pos hc] at hq
      rcases List.mem_append.mp hq with hq | hq
      · rcases List.mem_append.mp hq with hq | hq
        · rcases List.mem_cons.mp hq with rfl | hq
          · exact hbuddy
          · rcases List.mem_cons.mp hq with rfl | hq
            · exact hbuddy
            · obtain ⟨i, hi, hq⟩ := List.mem_flatMap.mp hq
              exact hr.listed i (List.mem_range.mp hi) q (mem_of_mem_listNeighbours hq)
        · split at hq
          · obtain rfl := List.mem_singleton.mp hq
            exact hr.current q (Block.start_mem ⟨q, k⟩)
          · exact absurd hq List.not_mem_nil
      · exact ih (hstep n p k s h hc) q hq
    · rw [if_neg hc] at hq
      obtain rfl := List.mem_singleton.mp hq
      exact hbuddy

/-- The same for FreePages as a whole. -/
theorem freeAccess_lt {I : ℕ → ℕ → ℕ → PoolState → Prop}
    (hround : ∀ n p k s, I n p k s → RoundBelow nr pid n p k s)
    (hstep : ∀ n p k s, I (n + 1) p k s → s.CanCombine (getPageBuddy p k) →
      I n (s.combineStep p (getPageBuddy p k)).1 (k + 1) (s.combineStep p (getPageBuddy p k)).2)
    (h : b.order < maxPageOrder → I (maxPageOrder - 1 - b.order) b.start b.order s) :
    ∀ q ∈ s.freeAccess pid b.start b.order, q < nr := by
  intro q hq
  by_cases ho : b.order ≥ maxPageOrder
  · rw [freeAccess, if_pos ho] at hq
    exact absurd hq List.not_mem_nil
  · have hopen := h (Nat.lt_of_not_le ho)
    obtain ⟨m, hdone⟩ := combinePages_rounds hstep hopen
    have hr := hround _ _ _ _ hdone
    have hlt := (combinePages_order_le (maxPageOrder - 1 - b.order) b.start b.order s).trans_lt
      (show b.order + (maxPageOrder - 1 - b.order) < maxPageOrder by omega)
    rw [freeAccess, if_neg ho] at hq
    rcases List.mem_append.mp hq with hq | hq
    · rcases List.mem_append.mp hq with hq | hq
      · exact combineAccess_lt hround hstep hopen q hq
      · exact hr.current q (List.mem_range'_1.mp hq)
    · exact hr.listed _ hlt q (List.mem_of_mem_head? (Option.mem_toList.mp hq))

/-- The buddies of the donated blocks bound the rounds that absorb whole buddies. -/
theorem OpenDonation.roundBelow (hdonated : ∀ q ∈ donated, q < nr)
    (hbuddies : BuddiesInside nr donated) (h : OpenDonation pid donated s ⟨p, k⟩ live)
    (hnk : n + k = maxPageOrder - 1) : RoundBelow nr pid n p k s where
  listed i hi q hq := hdonated q (mem_donated_of_listed h.free_within hi hq)
  current q hq := hdonated q (h.cur_within q hq)
  buddy hn := hbuddies p k (by omega) h.inv.separated.head_aligned h.cur_within

theorem PoolInv.freeAccess_lt (hdonated : ∀ q ∈ donated, q < nr)
    (hbuddies : BuddiesInside nr donated) (h : PoolInv pid s live) (hb : b ∈ live)
    (hbin : ∀ q ∈ b, q ∈ donated) (hfree : ∀ b ∈ s.freeBlocks pid, ∀ q ∈ b, q ∈ donated)
    (hw : MergesWhole (maxPageOrder - 1 - b.order) b.start b.order s) :
    ∀ q ∈ s.freeAccess pid b.start b.order, q < nr := by
  refine ClosureOS.freeAccess_lt (I := fun n p k t => OpenDonation pid donated t ⟨p, k⟩
    (live.erase b) ∧ MergesWhole n p k t ∧ n + k = maxPageOrder - 1)
    (fun n p k t ht => ht.1.roundBelow hdonated hbuddies ht.2.2) (fun n p k t ht hc => ?_)
    fun ho => ⟨h.open_donation hb hbin hfree, hw, by omega⟩
  obtain ⟨hopen, hwhole, hnk⟩ := ht
  obtain ⟨hk, hrest⟩ := hwhole hc
  exact ⟨hopen.combine hc hk, hrest, by omega⟩

/-- In a state of a run with whole merges, every call touches entries of the database. -/
theorem DonationInv.access_lt (hdonated : ∀ q ∈ donated, q < nr)
    (hbuddies : BuddiesInside nr donated)
    (h : DonationInv pid donated c) {op : DonationOp} (hvalid : c.Valid op) (hw : c.Whole pid op) :
    ∀ q ∈ c.access pid op, q < nr := by
  cases op with
  | add p =>
    refine (h.pool.withPool p).freeAccess_lt (b := single p) hdonated hbuddies
      (List.mem_append_left _ (List.mem_map_of_mem hvalid)) (fun q hq => ?_) h.free_within hw
    obtain rfl : q = p := mem_zero_iff.mp hq
    exact h.rest_within q hvalid
  | alloc order => exact fun q hq => absurd hq List.not_mem_nil
  | free b =>
    exact h.pool.freeAccess_lt hdonated hbuddies (List.mem_append_right _ hvalid)
      (h.live_within b hvalid) h.free_within hw

/-- In a database of whole blocks of the largest order, the buddy of a block is inside. -/
theorem mem_buddy_lt (hnr : 2 ^ (maxPageOrder - 1) ∣ nr) (hk : k < maxPageOrder - 1)
    (hp : 2 ^ k ∣ p) (hlt : p < nr) (hq : q ∈ (⟨getPageBuddy p k, k⟩ : Block)) : q < nr := by
  rw [getPageBuddy_eq] at hq
  obtain ⟨i, hi⟩ := dvd_min_xor hp
  obtain ⟨m, hm⟩ := (pow_dvd_pow 2 (show k + 1 ≤ maxPageOrder - 1 by omega)).trans hnr
  have him : i < m := by
    apply Nat.lt_of_mul_lt_mul_left (a := 2 ^ (k + 1))
    rw [← hi, ← hm]
    exact (Nat.min_le_left _ _).trans_lt hlt
  calc q < min p (p ^^^ 2 ^ k) + 2 ^ (k + 1) := ((mem_merged hp).mpr (Or.inr hq)).2
    _ = 2 ^ (k + 1) * (i + 1) := by rw [hi, Nat.mul_succ]
    _ ≤ 2 ^ (k + 1) * m := Nat.mul_le_mul_left _ him
    _ = nr := hm.symm

end Invariant

end ClosureOS
