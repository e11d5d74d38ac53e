import ClosureOS.HeapSafety
import ClosureOS.PoolBounds

/-!
Which entries of the page database KHeapPool::Free touches. It turns the pointer into an
entry without a check and follows what it finds there. In a run of the heap every block
lies in one that the pool had at the start, so a live pointer leads to entries of the
database.
-/
namespace ClosureOS

open ByteMemory DyadicBlocks PoolState HeapState

/-! ### Blocks of a run -/

namespace HeapState

/-- The heap after the counter of page p was set and list_del took the page off its list. -/
def unlinked (h : HeapState) (p : ℕ) (objNr : Word) : HeapState :=
  (h.setPage p { h.pool.pgdb p with objNr := objNr }).listDel p

theorem unlinked_pgdb (h : HeapState) (p : ℕ) (objNr : Word) :
    (h.unlinked p objNr).pool.pgdb p = { h.pool.pgdb p with objNr := objNr } :=
  Function.update_self ..

/-- The blocks of the heap, free ones and those that were handed out. -/
def allBlocks (h : HeapState) (cfg : HeapConfig) : List Block :=
  h.pool.freeBlocksOf cfg.pools ++ h.handedOut

end HeapState

/-- Every block of h' lies in a block of h. -/
def BlocksInside (cfg : HeapConfig) (h h' : HeapState) : Prop :=
  ∀ b ∈ h'.allBlocks cfg, ∃ a ∈ h.allBlocks cfg, ∀ i ∈ b, i ∈ a

section Blocks

variable {cfg : HeapConfig} {h h' h'' : HeapState} {live : List Allocation} {a : Allocation}
  {b : Block} {c p order fuel : ℕ} {size obj : Word} {source : Option ℕ} {kp : KHeapPool}

theorem BlocksInside.refl (cfg : HeapConfig) (h : HeapState) : BlocksInside cfg h h :=
  fun b hb => ⟨b, hb, fun _ hi => hi⟩

theorem BlocksInside.trans (h₁ : BlocksInside cfg h h') (h₂ : BlocksInside cfg h' h'') :
    BlocksInside cfg h h'' := by
  intro b hb
  obtain ⟨a, ha, hsub⟩ := h₂ b hb
  obtain ⟨d, hd, hsub'⟩ := h₁ a ha
  exact ⟨d, hd, fun i hi => hsub' i (hsub i hi)⟩

/-- Steps that leave the free lists and the blocks handed out as they are. -/
theorem BlocksInside.of_eq (hfree : h'.pool.freeBlocksOf cfg.pools = h.pool.freeBlocksOf cfg.pools)
    (hout : h'.handedOut = h.handedOut) : BlocksInside cfg h h' := by
  have heq : h'.allBlocks cfg = h.allBlocks cfg := by rw [HeapState.allBlocks, hfree, hout]; rfl
  rw [BlocksInside, heq]
  exact BlocksInside.refl cfg h

theorem BlocksInside.stop_le {nr : ℕ} (hin : BlocksInside cfg h h')
    (hstop : ∀ b ∈ h.allBlocks cfg, b.stop ≤ nr) : ∀ b ∈ h'.allBlocks cfg, b.stop ≤ nr := by
  intro b hb
  obtain ⟨a, ha, hsub⟩ := hin b hb
  exact (Block.stop_le_of_subset hsub).trans (hstop a ha)

/-- A block that the pools hand out was part of a free one. -/
theorem HeapInv.tryPools_inside (hinv : HeapInv cfg h live) (hnodup : cfg.pools.Nodup)
    {pids : List ℕ} (hsub : ∀ pid ∈ pids, pid ∈ cfg.pools)
    (hrun : h.tryPools order pids = (some p, h')) : BlocksInside cfg h h' := by
  rcases h.tryPools_cases order pids with ⟨pid, hpid, q, s, halloc, heq⟩ | ⟨heq, _⟩
  · have hfrom := allocatedFrom hnodup (hsub pid hpid) hinv.separated halloc
    rw [heq, Prod.mk.injEq, Option.some.injEq] at hrun
    obtain ⟨rfl, rfl⟩ := hrun
    intro b hb
    rcases List.mem_append.mp hb with hb | hb
    · obtain ⟨a, ha, hba⟩ := hfrom.free_subset b hb
      exact ⟨a, List.mem_append_left _ ha, hba⟩
    · rcases List.mem_cons.mp hb with rfl | hb
      · obtain ⟨a, ha, hba⟩ := hfrom.source
        exact ⟨a, List.mem_append_left _ ha, hba⟩
      · exact ⟨b, List.mem_append_right _ hb, fun _ hi => hi⟩
  · exact absurd (heq.symm.trans hrun) (by simp)

theorem BlocksInside.retireCurrent (cfg : HeapConfig) (h : HeapState) (c : ℕ) :
    BlocksInside cfg h (h.retireCurrent c) :=
  BlocksInside.of_eq (by rw [retireCurrent_pool]) retireCurrent_handedOut

theorem BlocksInside.adoptPage (cfg : HeapConfig) (h : HeapState) (c p : ℕ) :
    BlocksInside cfg h (h.adoptPage c p) :=
  BlocksInside.of_eq rfl rfl

theorem BlocksInside.popObject (cfg : HeapConfig) (h : HeapState) (c p : ℕ) :
    BlocksInside cfg h (h.popObject c p) :=
  BlocksInside.of_eq rfl rfl

theorem HeapInv.cacheMalloc_inside (hinv : HeapInv cfg h live) (hnodup : cfg.pools.Nodup)
    (hc : c ∈ cfg.caches) (hrun : h.cacheMalloc fuel c = some (obj, h')) :
    BlocksInside cfg h h' := by
  rcases hinv.cacheMalloc_cases hnodup hc hrun with ⟨p, _, _, _, rfl⟩ |
    ⟨hzero, p, h₁, halloc, _, _, q, _, _, rfl⟩ | ⟨_, _, rfl, _⟩
  · exact BlocksInside.popObject cfg h c p
  · obtain ⟨hretired, _⟩ := hinv.retire hc hzero
    have hblock := hretired.tryPools_inside hnodup (hretired.cache c hc).attached halloc
    exact (((BlocksInside.retireCurrent cfg h c).trans hblock).trans
      (BlocksInside.adoptPage cfg h₁ c p)).trans (BlocksInside.popObject cfg _ c q)
  · exact BlocksInside.retireCurrent cfg h c

theorem HeapInv.mallocCaches_inside (hnodup : cfg.pools.Nodup) {l : List (ℕ × Word)}
    (hl : ∀ x ∈ l, x.1 ∈ cfg.caches ∧ cfg.objSz x.1 = x.2) (hinv : HeapInv cfg h live)
    (hrun : h.mallocCaches fuel size l = some (obj, source, h')) : BlocksInside cfg h h' := by
  induction l generalizing h with
  | nil =>
    simp only [HeapState.mallocCaches, Option.some.injEq, Prod.mk.injEq] at hrun
    obtain ⟨_, _, rfl⟩ := hrun
    exact BlocksInside.refl cfg h
  | cons x l ih =>
    obtain ⟨c, objSize⟩ := x
    obtain ⟨hc, _⟩ := hl _ List.mem_cons_self
    have hrest := fun x hx => hl x (List.mem_cons_of_mem _ hx)
    rcases HeapState.mallocCaches_cons_eq_some hrun with hpass | ⟨o, h₁, _, hcall, hserved⟩
    · exact ih hrest hinv hpass
    have hstep := hinv.cacheMalloc_inside hnodup hc hcall
    rcases hserved with ⟨rfl, hnext⟩ | ⟨_, _, _, rfl⟩
    · exact hstep.trans (ih hrest (hinv.cacheMalloc_null hnodup hc hcall) hnext)
    · exact hstep

theorem HeapInv.mallocPools_inside (huses : kp.Uses cfg) (hinv : HeapInv cfg h live) :
    BlocksInside cfg h (h.mallocPools kp size).2 := by
  rcases hinv.tryPools (mallocPoolsOrder size) huses.nodup huses.pools with
    ⟨p, h₁, heq, _, _⟩ | ⟨heq, _⟩
  · have hblock := hinv.tryPools_inside huses.nodup huses.pools heq
    simp only [HeapState.mallocPools, heq]
    exact hblock.trans (BlocksInside.of_eq rfl rfl)
  · simp only [HeapState.mallocPools, heq]
    exact BlocksInside.refl cfg h

theorem HeapInv.malloc_inside (huses : kp.Uses cfg) (hinv : HeapInv cfg h live)
    (hrun : h.malloc fuel kp size = some (obj, source, h')) : BlocksInside cfg h h' := by
  obtain ⟨o, src, h₁, hcaches, hserved⟩ := HeapState.malloc_eq_some hrun
  have hstep := hinv.mallocCaches_inside huses.nodup huses.caches hcaches
  rcases hserved with ⟨rfl, _, _, rfl⟩ | ⟨_, _, _, rfl⟩
  · have hinv₁ := hinv.mallocCaches_null huses.nodup huses.caches hcaches
    exact hstep.trans (hinv₁.mallocPools_inside huses)
  · exact hstep

/-- put_page on a head page whose count is 0 moves no block. -/
theorem putPage_inside (hhead : (h.pool.pgdb p).isHead = true)
    (href : (h.pool.pgdb p).refCount = 0#32) (hrun : h.putPage p = some h') :
    BlocksInside cfg h h' := by
  obtain rfl := Option.some.inj ((HeapState.putPage_of_isHead hhead href).symm.trans hrun)
  exact BlocksInside.of_eq rfl rfl

theorem HeapInv.cacheFree_inside (hinv : HeapInv cfg h live) (ha : a ∈ live) (hback : Backed h a b)
    (hsource : a.source = some c) (hrun : h.cacheFree c b.start a.ptr = some h') :
    BlocksInside cfg h h' := by
  have hb := hback.mem
  obtain ⟨_, hslab⟩ := hinv.slab b hb c (hback.kc.trans hsource)
  obtain ⟨_, hlt⟩ := hslab.objNr_succ ha (hinv.virtToPage_mem hback)
  simp only [HeapState.cacheFree, internalObjFree] at hrun
  by_cases hcur : (h.caches c).current = some b.start
  · rw [if_pos hcur] at hrun
    obtain rfl := Option.some.inj hrun
    exact BlocksInside.of_eq rfl rfl
  · obtain ⟨_, href⟩ := hslab.listed hcur hlt
    rw [if_neg hcur] at hrun
    by_cases hone : (h.pool.pgdb b.start).objNr + 1#64 = 1#64
    · rw [if_pos hone] at hrun
      obtain rfl := Option.some.inj hrun
      exact BlocksInside.of_eq (freeBlocksOf_setPage_listDel hinv hb _) rfl
    · rw [if_neg hone] at hrun
      by_cases hall : (h.pool.pgdb b.start).objNr + 1#64 = (h.caches c).pageObjNr
      · rw [if_pos hall] at hrun
        have hentry := h.unlinked_pgdb b.start ((h.pool.pgdb b.start).objNr + 1#64)
        have hunlink : BlocksInside cfg h (h.unlinked b.start
            ((h.pool.pgdb b.start).objNr + 1#64)) :=
          BlocksInside.of_eq (freeBlocksOf_setPage_listDel hinv hb _) rfl
        refine hunlink.trans (putPage_inside ?_ ?_ hrun)
        · rw [hentry]
          exact hinv.isHead hb
        · rw [hentry]
          exact href
      · rw [if_neg hall] at hrun
        obtain rfl := Option.some.inj hrun
        exact BlocksInside.of_eq rfl rfl

theorem HeapInv.free_inside (hinv : HeapInv cfg h live) (ha : a ∈ live)
    (hrun : h.free a.ptr = some h') : BlocksInside cfg h h' := by
  obtain ⟨b, hback⟩ := hinv.backed a ha
  rw [hinv.free_eq hback] at hrun
  cases hsource : a.source with
  | none =>
    simp only [hsource] at hrun
    exact putPage_inside (hinv.isHead hback.mem) (hback.large hsource).2.2 hrun
  | some c =>
    simp only [hsource] at hrun
    exact hinv.cacheFree_inside ha hback hsource hrun

theorem HeapInv.step_inside (huses : kp.Uses cfg) {r r' : HeapRun}
    (hinv : HeapInv cfg r.heap r.live) (hstep : HeapStep kp r r') :
    BlocksInside cfg r.heap r'.heap := by
  cases hstep with
  | malloc hrun => exact hinv.malloc_inside huses hrun
  | free ha hrun => exact hinv.free_inside ha hrun
  | write _ => exact BlocksInside.of_eq rfl rfl

/-- In a run every block lies in a block of the first state. -/
theorem HeapInv.run_inside (huses : kp.Uses cfg) {r r' : HeapRun}
    (hinv : HeapInv cfg r.heap r.live) (hrun : Relation.ReflTransGen (HeapStep kp) r r') :
    BlocksInside cfg r.heap r'.heap := by
  induction hrun with
  | refl => exact BlocksInside.refl cfg r.heap
  | tail hrun hstep ih => exact ih.trans ((hinv.run huses hrun).step_inside huses hstep)

end Blocks

/-! ### The entries that are touched -/

namespace HeapState

/-- The lists of pages of a front end: those of its caches, and the free lists of its pools. -/
def pageLists (h : HeapState) (kp : KHeapPool) : List (List ℕ) :=
  kp.caches.flatMap (fun c => [(h.caches c).partialPages, (h.caches c).fullPages]) ++
    kp.pools.flatMap fun pid => (List.range maxPageOrder).map (h.pool.freelist pid)

/-- The entries touched by list_del on the node of page p. -/
def delAccess (h : HeapState) (kp : KHeapPool) (p : ℕ) : List ℕ :=
  p :: (h.pageLists kp).flatMap fun l => listNeighbours l p

/-- The entries touched by put_page: the page, its head, and those of FreePages when the
count drops below 0. -/
def putAccess (h : HeapState) (p : ℕ) : List ℕ :=
  let head := getHeadPage h.pool.pgdb p
  let pg := h.pool.pgdb head
  p :: head :: match h.pool.putPageCall p with
    | none => []
    | some call => match call.pool with
      | none => []
      | some pid => (h.setPage head { pg with refCount := pg.refCount - 1#32 }).pool.freeAccess pid
          call.page call.order

/-- The entries touched by KMemCache::Free. -/
def cacheFreeAccess (h : HeapState) (kp : KHeapPool) (c page : ℕ) : List ℕ :=
  let objNr := (h.pool.pgdb page).objNr + 1#64
  let kc := h.caches c
  page :: if kc.current = some page then []
    else if objNr = 1#64 then
      h.delAccess kp page ++ (kc.listDel page).fullPages.head?.toList
    else if objNr = kc.pageObjNr then
      h.delAccess kp page ++ (h.unlinked page objNr).putAccess page
    else []

/-- The entries touched by KHeapPool::Free: the page of the pointer, its head, and those
of the function that Free calls. -/
def freeAccess (h : HeapState) (kp : KHeapPool) (obj : Word) : List ℕ :=
  let page := getHeadPage h.pool.pgdb (virtToPage obj)
  virtToPage obj :: page :: match (h.pool.pgdb page).kc with
    | none => h.putAccess page
    | some c => h.cacheFreeAccess kp c page

end HeapState

/-- Free of obj, which is also what every operator delete does, stays in a database of nr
entries, and leaves the heap as it is when obj is null. -/
def FreeAccepts (kp : KHeapPool) (nr : ℕ) (h : HeapState) (obj : Word) : Prop :=
  (∀ i ∈ h.freeAccess kp obj, i < nr) ∧ (obj = 0#64 → h.free obj = some h)

/-- What Malloc may have returned: the pointers of the live allocations, and the null
pointer that stands for no memory. -/
def HeapRun.Returned (r : HeapRun) (obj : Word) : Prop := obj = 0#64 ∨ ∃ a ∈ r.live, a.ptr = obj

section Access

variable {cfg : HeapConfig} {h : HeapState} {live : List Allocation} {a : Allocation} {b : Block}
  {c p nr : ℕ} {kp : KHeapPool}

/-- The blocks of the heap are blocks of database entries. -/
theorem start_lt (hstop : ∀ b ∈ h.allBlocks cfg, b.stop ≤ nr) (hb : b ∈ h.allBlocks cfg) :
    b.start < nr :=
  Nat.lt_of_lt_of_le b.start_mem.2 (hstop b hb)

theorem HeapInv.fullPages_lt (hinv : HeapInv cfg h live)
    (hstop : ∀ b ∈ h.allBlocks cfg, b.stop ≤ nr) (hc : c ∈ cfg.caches) :
    ∀ i ∈ (h.caches c).fullPages, i < nr := by
  intro i hi
  obtain ⟨b, hb, rfl, _⟩ := ((hinv.cache c hc).full i hi).2
  exact start_lt hstop (List.mem_append_right _ hb)

/-- The pages on the lists of the front end are in the database. -/
theorem HeapInv.pageLists_lt (hinv : HeapInv cfg h live)
    (hstop : ∀ b ∈ h.allBlocks cfg, b.stop ≤ nr) (hcaches : ∀ c ∈ kp.caches, c ∈ cfg.caches)
    (hpools : ∀ pid ∈ kp.pools, pid ∈ cfg.pools) : ∀ l ∈ h.pageLists kp, ∀ i ∈ l, i < nr := by
  intro l hl i hi
  rcases List.mem_append.mp hl with hl | hl
  · obtain ⟨c, hc, hl⟩ := List.mem_flatMap.mp hl
    rcases List.mem_pair.mp hl with rfl | rfl
    · rw [(hinv.cache c (hcaches c hc)).noPartial] at hi
      exact absurd hi List.not_mem_nil
    · exact hinv.fullPages_lt hstop (hcaches c hc) i hi
  · obtain ⟨pid, hpid, hl⟩ := List.mem_flatMap.mp hl
    obtain ⟨k, hk, rfl⟩ := List.mem_map.mp hl
    have hfree : (⟨i, k⟩ : Block) ∈ h.pool.freeBlocks pid :=
      mem_freeBlocks.mpr ⟨List.mem_range.mp hk, hi⟩
    exact start_lt hstop (List.mem_append_left _
      (mem_freeBlocksOf.mpr ⟨pid, hpools pid hpid, hfree⟩))

theorem delAccess_lt (hlists : ∀ l ∈ h.pageLists kp, ∀ i ∈ l, i < nr) (hp : p < nr) :
    ∀ i ∈ h.delAccess kp p, i < nr := by
  intro i hi
  rcases List.mem_cons.mp hi with rfl | hi
  · exact hp
  · obtain ⟨l, hl, hi⟩ := List.mem_flatMap.mp hi
    exact hlists l hl i (mem_of_mem_listNeighbours hi)

/-- put_page on a head page whose count is 0 touches this page only. -/
theorem putAccess_lt (hhead : (h.pool.pgdb p).isHead = true)
    (href : (h.pool.pgdb p).refCount = 0#32) (hp : p < nr) : ∀ i ∈ h.putAccess p, i < nr := by
  intro i hi
  simp only [putAccess, putPageCall_of_isHead hhead href, getHeadPage_of_isHead hhead,
    List.mem_cons, List.not_mem_nil, or_false, or_self] at hi
  exact hi ▸ hp

/-- Free of a live object touches its page and pages of the lists. -/
theorem HeapInv.cacheFreeAccess_lt (hinv : HeapInv cfg h live)
    (hstop : ∀ b ∈ h.allBlocks cfg, b.stop ≤ nr) (ha : a ∈ live) (hback : Backed h a b)
    (hsource : a.source = some c) (hlists : ∀ l ∈ h.pageLists kp, ∀ i ∈ l, i < nr) :
    ∀ i ∈ h.cacheFreeAccess kp c b.start, i < nr := by
  have hb := hback.mem
  have hstart := start_lt hstop (List.mem_append_right _ hb)
  obtain ⟨hc, hslab⟩ := hinv.slab b hb c (hback.kc.trans hsource)
  obtain ⟨_, hlt⟩ := hslab.objNr_succ ha (hinv.virtToPage_mem hback)
  intro i hi
  rcases List.mem_cons.mp hi with rfl | hi
  · exact hstart
  by_cases hcur : (h.caches c).current = some b.start
  · rw [if_pos hcur] at hi
    exact absurd hi List.not_mem_nil
  · rw [if_neg hcur] at hi
    split at hi
    · rcases List.mem_append.mp hi with hi | hi
      · exact delAccess_lt hlists hstart i hi
      · have hfirst := List.mem_of_mem_head? (Option.mem_toList.mp hi)
        exact hinv.fullPages_lt hstop hc i (List.mem_of_mem_erase hfirst)
    · split at hi
      · rcases List.mem_append.mp hi with hi | hi
        · exact delAccess_lt hlists hstart i hi
        · have hentry := h.unlinked_pgdb b.start ((h.pool.pgdb b.start).objNr + 1#64)
          refine putAccess_lt ?_ ?_ hstart i hi
          · rw [hentry]
            exact hinv.isHead hb
          · rw [hentry]
            exact (hslab.listed hcur hlt).2
      · exact absurd hi List.not_mem_nil

/-- Free of a live pointer stays in the database. -/
theorem HeapInv.freeAccess_lt (hinv : HeapInv cfg h live)
    (hstop : ∀ b ∈ h.allBlocks cfg, b.stop ≤ nr) (ha : a ∈ live)
    (hlists : ∀ l ∈ h.pageLists kp, ∀ i ∈ l, i < nr) : ∀ i ∈ h.freeAccess kp a.ptr, i < nr := by
  obtain ⟨b, hback⟩ := hinv.backed a ha
  obtain ⟨hhead, hkc⟩ := hinv.free_head hback
  have hmem : b ∈ h.allBlocks cfg := List.mem_append_right _ hback.mem
  have hstart := start_lt hstop hmem
  intro i hi
  simp only [HeapState.freeAccess, hhead] at hi
  rcases List.mem_cons.mp hi with rfl | hi
  · exact Nat.lt_of_lt_of_le (hinv.virtToPage_mem hback).2 (hstop b hmem)
  rcases List.mem_cons.mp hi with rfl | hi
  · exact hstart
  cases hsource : a.source with
  | none =>
    simp only [hkc, hsource] at hi
    exact putAccess_lt (hinv.isHead hback.mem) (hback.large hsource).2.2 hstart i hi
  | some c =>
    simp only [hkc, hsource] at hi
    exact hinv.cacheFreeAccess_lt hstop ha hback hsource hlists i hi

end Access

end ClosureOS
