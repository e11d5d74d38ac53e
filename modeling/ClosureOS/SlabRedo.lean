import ClosureOS.SlabAvailability
import ClosureOS.SlabSlicing

/-!
The redo loop of KMemCache::__internal_obj_alloc on an arbitrary cache. A round pops an
object, or takes the first partial page, or adopts a block from the pools. The partial
pages decrease in the second case, and a page just sliced has an object for the next
round, so the loop ends after at most two rounds more than there are partial pages.
-/
namespace ClosureOS

open ByteMemory DyadicBlocks HeapState

/-- The pages whose node the loop moves: the current one and those on the partial list. -/
def KMemCache.movedPages (kc : KMemCache) : List ℕ := kc.current.toList ++ kc.partialPages

/-- What the loop relies on. Init divides the bytes of a block by the object size, so the
objects of a slab fit into a block; a page's one node is on one list, and the current page's
is on none; the pools hold pages of the direct map. The free lists of the partial pages
are arbitrary. -/
structure RedoReady (h : HeapState) (c : ℕ) : Prop where
  objects : 1 ≤ (h.caches c).pageObjNr.toNat
  objSz_pos : 0 < (h.caches c).objSz.toNat
  fits : (h.caches c).pageObjNr.toNat * (h.caches c).objSz.toNat ≤ 4096 * 2 ^ (h.caches c).order
  current : (h.caches c).freelist ≠ 0#64 → ∃ p, (h.caches c).current = some p
  nodup : (h.caches c).ownedPages.Nodup
  unlisted : ∀ p ∈ (h.caches c).movedPages, (∀ i k, p ∉ h.pool.freelist i k) ∧
    ∀ e, e ≠ c → p ∉ (h.caches e).partialPages ∧ p ∉ (h.caches e).fullPages
  stop : ∀ pid ∈ (h.caches c).attachedPools, ∀ b ∈ h.pool.freeBlocks pid, b.stop ≤ directMapPages

/-- A call takes nothing from the pools, or one block of the cache's order from one of them;
the pages of the cache are those it had, and the one of the new block. -/
def TakesAtMostOne (h h' : HeapState) (c : ℕ) : Prop :=
  (h'.handedOut = h.handedOut ∧ h'.pool.freelist = h.pool.freelist ∧
      (h'.caches c).ownedPages.Perm (h.caches c).ownedPages) ∨
    ∃ pid ∈ (h.caches c).attachedPools, ∃ p s,
      h.pool.allocPages pid (h.caches c).order = (some p, s) ∧
      h'.handedOut = ⟨p, (h.caches c).order⟩ :: h.handedOut ∧ h'.pool.freelist = s.freelist ∧
      (h'.caches c).ownedPages.Perm (p :: (h.caches c).ownedPages)

/-- Nothing to allocate from: the free lists of the cache and of all its partial pages are
empty, and no attached pool has a block of the cache's order. -/
structure Exhausted (h : HeapState) (c : ℕ) : Prop where
  freelist : (h.caches c).freelist = 0#64
  partialPages : ∀ p ∈ (h.caches c).partialPages, (h.pool.pgdb p).freelist = 0#64
  pools : ∀ pid ∈ (h.caches c).attachedPools,
    (h.pool.allocPages pid (h.caches c).order).1 = none

theorem KMemCache.init_fits (objSz : Word) :
    (KMemCache.init objSz).pageObjNr.toNat * objSz.toNat ≤
      4096 * 2 ^ (KMemCache.init objSz).order := by
  have hshift : (pageSize <<< (KMemCache.init objSz).order).toNat ≤
      4096 * 2 ^ (KMemCache.init objSz).order := by
    rw [BitVec.toNat_shiftLeft, Nat.shiftLeft_eq, toNat_pageSize]
    exact Nat.mod_le _ _
  change ((pageSize <<< (KMemCache.init objSz).order) / objSz).toNat * objSz.toNat ≤ _
  rw [BitVec.toNat_udiv]
  exact (Nat.div_mul_le_self _ _).trans hshift

variable {h h' : HeapState} {c p : ℕ} {rest : List ℕ}

/-! ### What each round does -/

theorem sliceStep_next (m : Memory) (sz : Word) (p k : ℕ) :
    ((sliceStep sz)^[k] (m, 0#64, pageToVirt p)).2.2 = slotAddr p sz k := by
  induction k with
  | zero => exact (slotAddr_zero p sz).symm
  | succ k ih =>
    rw [Function.iterate_succ_apply', sliceStep, ih, slotAddr_succ]

theorem sliceStep_head (m : Memory) (sz : Word) (p : ℕ) {k : ℕ} (hk : 0 < k) :
    ((sliceStep sz)^[k] (m, 0#64, pageToVirt p)).2.1 = slotAddr p sz (k - 1) := by
  obtain ⟨j, rfl⟩ := Nat.exists_eq_succ_of_ne_zero (Nat.ne_of_gt hk)
  rw [Function.iterate_succ_apply', sliceStep, sliceStep_next]
  rfl

theorem adoptPage_spec (hpos : 1 ≤ (h.caches c).pageObjNr.toNat) :
    (h.adoptPage c p).caches c =
        { h.caches c with
          current := some p,
          freelist := slotAddr p (h.caches c).objSz ((h.caches c).pageObjNr.toNat - 1) } ∧
      (h.adoptPage c p).pool.freelist = h.pool.freelist ∧
      (h.adoptPage c p).handedOut = h.handedOut := by
  let kc := { h.caches c with current := some p }
  have hhead := (h.pageObjSlicing_of_loop c p kc rfl).2
  rw [sliceStep_head _ _ _ hpos] at hhead
  refine ⟨?_, rfl, rfl⟩
  rw [HeapState.adoptPage, setCache_caches_self, hhead]
  change { (h.setCache c kc).caches c with
    freelist := slotAddr p (h.caches c).objSz ((h.caches c).pageObjNr.toNat - 1) } = _
  rw [setCache_caches_self]

theorem takePartial_spec (hpart : (h.caches c).partialPages = p :: rest)
    (hfull : p ∉ (h.caches c).fullPages) (hpool : ∀ i k, p ∉ h.pool.freelist i k) :
    (h.takePartial c p).caches c =
        { h.caches c with
          current := some p, freelist := (h.pool.pgdb p).freelist, partialPages := rest } ∧
      (h.takePartial c p).pool = h.pool ∧ (h.takePartial c p).handedOut = h.handedOut ∧
      ∀ e, e ≠ c → (h.takePartial c p).caches e = (h.caches e).listDel p := by
  refine ⟨?_, ?_, rfl, fun e he => ?_⟩
  · change KMemCache.listDel ((h.setCache c _).caches c) p = _
    rw [setCache_caches_self, KMemCache.listDel]
    simp only [hpart, List.erase_cons_head, List.erase_of_not_mem hfull]
  · change { h.pool with freelist := fun i k => (h.pool.freelist i k).erase p } = h.pool
    simp only [List.erase_of_not_mem (hpool _ _)]
  · change KMemCache.listDel ((h.setCache c _).caches e) p = _
    rw [setCache_caches_of_ne h _ he]

namespace RedoReady

theorem slabFits (hready : RedoReady h c) {pid : ℕ} (hpid : pid ∈ (h.caches c).attachedPools)
    {s : PoolState} (halloc : h.pool.allocPages pid (h.caches c).order = (some p, s)) :
    SlabFits ⟨p, (h.caches c).order⟩ (h.caches c).objSz (h.caches c).pageObjNr where
  stop := by
    obtain ⟨j, hle, hmem⟩ := PoolState.allocPages_source halloc
    have hstop := hready.stop pid hpid _ hmem
    have hpow : 2 ^ (h.caches c).order ≤ 2 ^ j := Nat.pow_le_pow_right (by omega) hle
    simp only [Block.stop] at hstop ⊢
    omega
  pos := hready.objSz_pos
  fits := hready.fits

/-- A round that takes a partial page: the current page moves to the full list. -/
theorem take_spec (hready : RedoReady h c) (hpart : (h.caches c).partialPages = p :: rest) :
    ((h.retireCurrent c).takePartial c p).caches c =
        { h.caches c with
          current := some p, freelist := (h.pool.pgdb p).freelist, partialPages := rest,
          fullPages := (h.caches c).current.toList ++ (h.caches c).fullPages } ∧
      ((h.retireCurrent c).takePartial c p).pool = h.pool ∧
      ((h.retireCurrent c).takePartial c p).handedOut = h.handedOut ∧
      ∀ e, e ≠ c → ((h.retireCurrent c).takePartial c p).caches e = (h.caches e).listDel p := by
  have hmoved : p ∈ (h.caches c).movedPages := by
    rw [KMemCache.movedPages, hpart]
    exact List.mem_append_right _ List.mem_cons_self
  have hfull : p ∉ (h.caches c).current.toList ++ (h.caches c).fullPages := by
    have hnodup := hready.nodup
    rw [KMemCache.ownedPages, hpart, List.append_assoc, List.cons_append,
      List.nodup_middle, List.nodup_cons] at hnodup
    intro hp
    apply hnodup.1
    rcases List.mem_append.mp hp with hp | hp
    · exact List.mem_append_left _ hp
    · exact List.mem_append_right _ (List.mem_append_right _ hp)
  have hpart' : ((h.retireCurrent c).caches c).partialPages = p :: rest := by
    rw [retireCurrent_caches_self]
    exact hpart
  have hfull' : p ∉ ((h.retireCurrent c).caches c).fullPages := by
    rw [retireCurrent_caches_self]
    exact hfull
  have hpool' : ∀ i k, p ∉ (h.retireCurrent c).pool.freelist i k := by
    rw [retireCurrent_pool]
    exact (hready.unlisted p hmoved).1
  obtain ⟨hcache, hpool, hout, hothers⟩ := takePartial_spec hpart' hfull' hpool'
  rw [retireCurrent_pool] at hpool
  refine ⟨?_, hpool, hout.trans retireCurrent_handedOut, fun e he => ?_⟩
  · rw [hcache, retireCurrent_caches_self, retireCurrent_pool]
  · rw [hothers e he, retireCurrent_caches_of_ne he]

theorem take_owned (hready : RedoReady h c) (hpart : (h.caches c).partialPages = p :: rest) :
    (((h.retireCurrent c).takePartial c p).caches c).ownedPages.Perm
      (h.caches c).ownedPages := by
  rw [(hready.take_spec hpart).1]
  simp only [KMemCache.ownedPages, hpart, Option.toList_some, ← List.append_assoc]
  exact List.perm_append_comm.append_right _

theorem take_ready (hready : RedoReady h c) (hpart : (h.caches c).partialPages = p :: rest) :
    RedoReady ((h.retireCurrent c).takePartial c p) c := by
  obtain ⟨hcache, hpool, _, hothers⟩ := hready.take_spec hpart
  refine ⟨?_, ?_, ?_, ?_, ?_, ?_, ?_⟩
  · rw [hcache]
    exact hready.objects
  · rw [hcache]
    exact hready.objSz_pos
  · rw [hcache]
    exact hready.fits
  · intro _
    rw [hcache]
    exact ⟨p, rfl⟩
  · exact (hready.take_owned hpart).nodup_iff.mpr hready.nodup
  · intro q hq
    have hmoved : q ∈ (h.caches c).movedPages := by
      rw [hcache] at hq
      rw [KMemCache.movedPages, hpart]
      exact List.mem_append_right _ hq
    obtain ⟨hlists, hcaches⟩ := hready.unlisted q hmoved
    rw [hpool]
    refine ⟨hlists, fun e he => ?_⟩
    rw [hothers e he, KMemCache.listDel]
    exact ⟨fun hmem => (hcaches e he).1 (List.mem_of_mem_erase hmem),
      fun hmem => (hcaches e he).2 (List.mem_of_mem_erase hmem)⟩
  · rw [hcache, hpool]
    exact hready.stop

end RedoReady

/-! ### The loop -/

theorem TakesAtMostOne.after_take (hready : RedoReady h c)
    (hpart : (h.caches c).partialPages = p :: rest)
    (hrest : TakesAtMostOne ((h.retireCurrent c).takePartial c p) h' c) :
    TakesAtMostOne h h' c := by
  obtain ⟨hcache, hpool, hout, _⟩ := hready.take_spec hpart
  have howned := hready.take_owned hpart
  unfold TakesAtMostOne at hrest
  rw [hpool, hout] at hrest
  rcases hrest with ⟨hsame, hlists, hpages⟩ | ⟨pid, hpid, q, s, halloc, hadded, hlists, hpages⟩
  · exact Or.inl ⟨hsame, hlists, hpages.trans howned⟩
  · rw [hcache] at hpid halloc hadded
    exact Or.inr ⟨pid, hpid, q, s, halloc, hadded, hlists, hpages.trans (howned.cons q)⟩

theorem RedoReady.adopt (hready : RedoReady h c) (hpart : (h.caches c).partialPages = [])
    {pid : ℕ} (hpid : pid ∈ (h.caches c).attachedPools) {h₁ : HeapState}
    (halloc : h.pool.allocPages pid (h.caches c).order = (some p, h₁.pool))
    (hcaches : h₁.caches = (h.retireCurrent c).caches)
    (hout : h₁.handedOut = ⟨p, (h.caches c).order⟩ :: h.handedOut) :
    ((h₁.adoptPage c p).caches c).freelist ≠ 0#64 ∧
      ((h₁.adoptPage c p).caches c).current = some p ∧
      TakesAtMostOne h ((h₁.adoptPage c p).popObject c p) c := by
  have hfits := hready.slabFits hpid halloc
  have hretired := congrFun hcaches c
  rw [retireCurrent_caches_self] at hretired
  have hpos : 1 ≤ (h₁.caches c).pageObjNr.toNat := by
    rw [hretired]
    exact hready.objects
  obtain ⟨hcache, hlists, hadded⟩ := adoptPage_spec (p := p) hpos
  rw [hretired] at hcache
  refine ⟨?_, by rw [hcache], Or.inr ⟨pid, hpid, p, h₁.pool, halloc, ?_, hlists, ?_⟩⟩
  · rw [hcache]
    exact hfits.slotAddr_ne_zero (Nat.sub_lt hready.objects Nat.one_pos)
  · exact hadded.trans hout
  · rw [popObject_caches_self, hcache]
    simp [KMemCache.ownedPages, hpart]

theorem internalPageAlloc_cases (h : HeapState) (c : ℕ) :
    (∃ p h₁, (h.retireCurrent c).internalPageAlloc c = (some p, h₁) ∧
        (∃ pid ∈ (h.caches c).attachedPools,
          h.pool.allocPages pid (h.caches c).order = (some p, h₁.pool)) ∧
        h₁.caches = (h.retireCurrent c).caches ∧
        h₁.handedOut = ⟨p, (h.caches c).order⟩ :: h.handedOut) ∨
      ((h.retireCurrent c).internalPageAlloc c = (none, h.retireCurrent c) ∧
        ∀ pid ∈ (h.caches c).attachedPools,
          (h.pool.allocPages pid (h.caches c).order).1 = none) := by
  have hcases := (h.retireCurrent c).tryPools_cases ((h.retireCurrent c).caches c).order
    ((h.retireCurrent c).caches c).attachedPools
  rw [HeapState.internalPageAlloc, retireCurrent_caches.1, retireCurrent_caches.2]
  rw [retireCurrent_caches.1, retireCurrent_caches.2, retireCurrent_pool,
    retireCurrent_handedOut] at hcases
  rcases hcases with ⟨pid, hpid, p, s, halloc, heq⟩ | hnone
  · exact Or.inl ⟨p, _, heq, ⟨pid, hpid, halloc⟩, rfl, rfl⟩
  · exact Or.inr hnone

theorem RedoReady.of_nil (hready : RedoReady h c) (hzero : (h.caches c).freelist = 0#64)
    (hpart : (h.caches c).partialPages = []) :
    ∃ obj h', (∀ fuel, 2 ≤ fuel → h.internalObjAlloc fuel c = some (obj, h')) ∧
      TakesAtMostOne h h' c ∧ (obj = 0#64 → Exhausted h c) := by
  rcases internalPageAlloc_cases h c with
    ⟨p, h₁, heq, ⟨pid, hpid, halloc⟩, hcaches, hout⟩ | ⟨heq, hnone⟩
  · obtain ⟨hne, hcur, htakes⟩ := hready.adopt hpart hpid halloc hcaches hout
    refine ⟨_, _, fun fuel hfuel => ?_, htakes, fun hobj => absurd hobj hne⟩
    obtain ⟨fuel, rfl⟩ := Nat.exists_eq_add_of_le' hfuel
    rw [internalObjAlloc_refill (fuel + 1) hzero hpart heq]
    exact internalObjAlloc_pop fuel hne hcur
  · refine ⟨0#64, h.retireCurrent c, fun fuel hfuel => ?_, Or.inl ⟨retireCurrent_handedOut, ?_, ?_⟩,
      fun _ => ⟨hzero, ?_, hnone⟩⟩
    · obtain ⟨fuel, rfl⟩ := Nat.exists_eq_add_of_le' hfuel
      exact internalObjAlloc_refill (fuel + 1) hzero hpart heq
    · rw [retireCurrent_pool]
    · rw [retireCurrent_caches_self]
      simp [KMemCache.ownedPages, hpart]
    · simp [hpart]

theorem RedoReady.of_freelist (hready : RedoReady h c) (hne : (h.caches c).freelist ≠ 0#64) :
    ∃ obj h', (∀ fuel, 1 ≤ fuel → h.internalObjAlloc fuel c = some (obj, h')) ∧
      TakesAtMostOne h h' c ∧ (obj = 0#64 → Exhausted h c) := by
  obtain ⟨p, hcur⟩ := hready.current hne
  refine ⟨_, h.popObject c p, fun fuel hfuel => ?_, Or.inl ⟨rfl, rfl, ?_⟩,
    fun hobj => absurd hobj hne⟩
  · obtain ⟨fuel, rfl⟩ := Nat.exists_eq_add_of_le' hfuel
    exact internalObjAlloc_pop fuel hne hcur
  · rw [popObject_caches_self]
    simp only [KMemCache.ownedPages, List.Perm.refl]

/-- On every state the loop ends, and more rounds than one for each partial page, one for a
new block and one for the object change nothing. It takes at most one block, and null means
that there was nothing to allocate from. -/
theorem internalObjAlloc_complete (hready : RedoReady h c) :
    ∃ obj h', (∀ fuel, (h.caches c).partialPages.length + 2 ≤ fuel →
        h.internalObjAlloc fuel c = some (obj, h')) ∧
      TakesAtMostOne h h' c ∧ (obj = 0#64 → Exhausted h c) := by
  -- the measure is the length of the partial list; the last two rounds need no induction
  induction hpart : (h.caches c).partialPages generalizing h with
  | nil =>
    by_cases hne : (h.caches c).freelist ≠ 0#64
    · obtain ⟨obj, h', hrun, hspec⟩ := hready.of_freelist hne
      exact ⟨obj, h', fun fuel hfuel => hrun fuel (by omega), hspec⟩
    · obtain ⟨obj, h', hrun, hspec⟩ := hready.of_nil (not_not.mp hne) hpart
      exact ⟨obj, h', fun fuel hfuel => hrun fuel (by omega), hspec⟩
  | cons p rest ih =>
    by_cases hne : (h.caches c).freelist ≠ 0#64
    · obtain ⟨obj, h', hrun, hspec⟩ := hready.of_freelist hne
      exact ⟨obj, h', fun fuel hfuel => hrun fuel (by omega), hspec⟩
    · have hzero := not_not.mp hne
      obtain ⟨hcache, hpool, _, _⟩ := hready.take_spec hpart
      obtain ⟨obj, h', hrun, htakes, hnull⟩ := ih (hready.take_ready hpart) (by rw [hcache])
      refine ⟨obj, h', fun fuel hfuel => ?_, htakes.after_take hready hpart, fun hobj => ?_⟩
      · rw [List.length_cons] at hfuel
        obtain ⟨fuel, rfl⟩ : ∃ n, fuel = n + 1 := ⟨fuel - 1, by omega⟩
        rw [internalObjAlloc_take fuel hzero hpart]
        exact hrun fuel (by omega)
      · obtain ⟨hfree, hpartial, hpools⟩ := hnull hobj
        rw [hcache] at hfree hpartial hpools
        rw [hpool] at hpartial hpools
        refine ⟨hzero, fun q hq => ?_, hpools⟩
        rw [hpart] at hq
        rcases List.mem_cons.mp hq with rfl | hq
        · exact hfree
        · exact hpartial q hq

/-- The heap of one cache whose current slab and two partial ones have no free object. -/
def spentHeap : HeapState :=
  slabHeap.setCache 0 { slabHeap.caches 0 with current := some 7, partialPages := [8, 9] }

theorem spentHeap_ready : RedoReady spentHeap 0 where
  objects := by decide
  objSz_pos := by decide
  fits := KMemCache.init_fits 2048#64
  current := fun _ => ⟨7, rfl⟩
  nodup := by decide
  unlisted := by
    intro p hp
    have hle : 7 ≤ p := (show ∀ q ∈ [7, 8, 9], 7 ≤ q by decide) p hp
    refine ⟨fun i k hmem => ?_, fun e he => ?_⟩
    · change p ∈ (if k = 2 then [0] else []) at hmem
      split at hmem
      · obtain rfl := List.mem_singleton.mp hmem
        omega
      · exact List.not_mem_nil hmem
    · rw [spentHeap, setCache_caches_of_ne _ _ he]
      exact ⟨List.not_mem_nil, List.not_mem_nil⟩
  stop := by
    have hpools : (spentHeap.caches 0).attachedPools = [0] := rfl
    rw [hpools]
    intro pid hpid b hb
    obtain rfl := List.mem_singleton.mp hpid
    exact fourPageHeap_fresh.stop b hb

/-- Four rounds skip the two partial slabs and slice a page of the pool. -/
theorem internalObjAlloc_complete_spentHeap :
    ∃ obj h', (∀ fuel, 4 ≤ fuel → spentHeap.internalObjAlloc fuel 0 = some (obj, h')) ∧
      TakesAtMostOne spentHeap h' 0 ∧ obj ≠ 0#64 := by
  obtain ⟨obj, h', hrun, htakes, hnull⟩ := internalObjAlloc_complete spentHeap_ready
  refine ⟨obj, h', hrun, htakes, fun hobj => ?_⟩
  have hsome : (spentHeap.pool.allocPages 0 0).1 = some 0 := rfl
  have hnone := (hnull hobj).pools 0 (by decide)
  exact absurd (hsome.symm.trans hnone) (by simp)

end ClosureOS
