import ClosureOS.HeapRuns

/-!
The heap that kheap_pool_init sets up: eleven caches on one pool and the front end over
them. In every run the live allocations do not overlap, each lies inside one block of
the buddy system, and Free finds the block and the cache of every live pointer.
-/
namespace ClosureOS

open ByteMemory DyadicBlocks PoolState HeapState

/-! ### The initial state -/

def defaultConfig : HeapConfig where
  pools := [globlPagePool]
  caches := List.range kobjectSizeNr
  objSz := fun c => kobjDefaultSize.getD c 0#64

/-- The caches of a loop that sets them one after the other. -/
theorem foldl_setCache (f : ℕ → KMemCache) (l : List ℕ) (h : HeapState) :
    (l.foldl (fun h i => h.setCache i (f i)) h).pool = h.pool ∧
      (l.foldl (fun h i => h.setCache i (f i)) h).handedOut = h.handedOut ∧
      ∀ c ∈ l, (l.foldl (fun h i => h.setCache i (f i)) h).caches c = f c := by
  induction l using List.reverseRecOn with
  | nil => exact ⟨rfl, rfl, by simp⟩
  | append_singleton l i ih =>
    simp only [List.foldl_append, List.foldl_cons, List.foldl_nil]
    refine ⟨ih.1, ih.2.1, fun c hc => ?_⟩
    by_cases hci : c = i
    · subst hci
      exact setCache_caches_self ..
    · rw [setCache_caches_of_ne _ _ hci]
      apply ih.2.2 c
      simpa [hci] using hc

def defaultCache (c : ℕ) : KMemCache :=
  (KMemCache.init (kobjDefaultSize.getD c 0#64)).attach [globlPagePool]

theorem kheapPoolInit_pool (h : HeapState) : (kheapPoolInit h).1.pool = h.pool :=
  (foldl_setCache defaultCache _ h).1

theorem kheapPoolInit_handedOut (h : HeapState) : (kheapPoolInit h).1.handedOut = h.handedOut :=
  (foldl_setCache defaultCache _ h).2.1

theorem kheapPoolInit_caches (h : HeapState) {c : ℕ} (hc : c ∈ defaultConfig.caches) :
    (kheapPoolInit h).1.caches c = defaultCache c :=
  (foldl_setCache defaultCache _ h).2.2 c hc

theorem defaultCache_objSz {c : ℕ} (hc : c ∈ defaultConfig.caches) :
    (defaultCache c).objSz = defaultConfig.objSz c := by
  revert c
  decide

theorem kheapPoolInit_uses (h : HeapState) : (kheapPoolInit h).2.Uses defaultConfig where
  caches := by
    show ∀ x ∈ (List.range kobjectSizeNr).zip kobjDefaultSize,
      x.1 ∈ defaultConfig.caches ∧ defaultConfig.objSz x.1 = x.2
    decide
  pools := fun _ hpid => hpid
  nodup := List.nodup_singleton _

variable {h : HeapState} {r : HeapRun}

theorem HeapInv.init (hsep : Separated (h.pool.freeBlocks globlPagePool))
    (hstop : ∀ b ∈ h.pool.freeBlocks globlPagePool, b.stop ≤ directMapPages)
    (hout : h.handedOut = []) : HeapInv defaultConfig (kheapPoolInit h).1 [] := by
  have hfree : (kheapPoolInit h).1.pool.freeBlocksOf defaultConfig.pools =
      h.pool.freeBlocks globlPagePool := by
    rw [kheapPoolInit_pool]
    exact List.append_nil _
  refine HeapInv.fresh (by rw [hfree]; exact hsep) (by rw [hfree]; exact hstop)
    ((kheapPoolInit_handedOut h).trans hout) fun c hc => ?_
  have hkc := kheapPoolInit_caches h hc
  refine CacheInv.fresh (List.mem_range.mp hc) hkc ?_ (fun pid hpid => hpid)
  rw [hkc]
  exact defaultCache_objSz hc

/-- The states of the runs that start after kheap_pool_init. -/
def HeapReachable (h : HeapState) (r : HeapRun) : Prop :=
  Relation.ReflTransGen (HeapStep (kheapPoolInit h).2) ⟨(kheapPoolInit h).1, []⟩ r

/-- What a run may start from: the free lists hold separated blocks of pages that the
direct map has room for. -/
structure FreshPool (h : HeapState) : Prop where
  separated : Separated (h.pool.freeBlocks globlPagePool)
  stop : ∀ b ∈ h.pool.freeBlocks globlPagePool, b.stop ≤ directMapPages
  handedOut : h.handedOut = []

theorem HeapReachable.heapInv (hpool : FreshPool h) (hrun : HeapReachable h r) :
    HeapInv defaultConfig r.heap r.live :=
  (HeapInv.init hpool.separated hpool.stop hpool.handedOut).run (kheapPoolInit_uses h) hrun

/-! ### Where allocations lie -/

section Extent

variable {cfg : HeapConfig} {live : List Allocation} {a a' : Allocation} {b : Block}

/-- An allocation starts at a multiple of 16 and stays inside its block. -/
theorem HeapInv.extent (hinv : HeapInv cfg h live) (hback : Backed h a b) :
    16 ∣ a.ptr.toNat ∧ 0xFFFF800000000000 + 4096 * b.start ≤ a.ptr.toNat ∧
      a.ptr.toNat + a.size ≤ 0xFFFF800000000000 + 4096 * b.stop := by
  have hstop := hinv.stop_handedOut hback.mem
  have hpos := Nat.two_pow_pos b.order
  unfold Block.stop at hstop ⊢
  cases hsource : a.source with
  | none =>
    obtain ⟨hptr, hsize, _⟩ := hback.large hsource
    have haddr := toNat_pageToVirt (p := b.start) (by omega)
    rw [hptr, haddr]
    omega
  | some c =>
    have hkc := hback.kc.trans hsource
    have hfits := hinv.fits hback.mem hkc
    obtain ⟨hsize, hslot⟩ := hback.object c hsource
    obtain ⟨i, hi, hptr⟩ := mem_slots.mp hslot
    have haddr := hfits.toNat_slotAddr hi
    have hend := hfits.slot_end hi
    obtain ⟨m, hm⟩ := (hinv.sized hback.mem hkc).aligned
    have hmul : i * (h.caches c).objSz.toNat = 16 * (i * m) := by rw [hm]; ring
    rw [hptr, haddr]
    omega

theorem HeapInv.allocations_apart (hinv : HeapInv cfg h live) (ha : a ∈ live) (ha' : a' ∈ live)
    (hne : a.ptr ≠ a'.ptr) :
    a.ptr.toNat + a.size ≤ a'.ptr.toNat ∨ a'.ptr.toNat + a'.size ≤ a.ptr.toNat := by
  obtain ⟨b, hback⟩ := hinv.backed a ha
  obtain ⟨b', hback'⟩ := hinv.backed a' ha'
  by_cases hbb : b = b'
  · subst hbb
    have hsame : a.source = a'.source := hback.kc.symm.trans hback'.kc
    cases hsource : a.source with
    | none =>
      have hptr := (hback.large hsource).1
      have hptr' := (hback'.large (hsame ▸ hsource)).1
      exact absurd (hptr.trans hptr'.symm) hne
    | some c =>
      have hfits := hinv.fits hback.mem (hback.kc.trans hsource)
      obtain ⟨hsize, hslot⟩ := hback.object c hsource
      obtain ⟨hsize', hslot'⟩ := hback'.object c (hsame ▸ hsource)
      obtain ⟨i, hi, hptr⟩ := mem_slots.mp hslot
      obtain ⟨j, hj, hptr'⟩ := mem_slots.mp hslot'
      have hij : i ≠ j := by
        rintro rfl
        exact hne (hptr.trans hptr'.symm)
      have haddr := hfits.toNat_slotAddr hi
      have haddr' := hfits.toNat_slotAddr hj
      rw [hptr, hptr', haddr, haddr']
      rcases Nat.lt_or_gt_of_ne hij with hlt | hlt
      · have hmul := Nat.mul_le_mul_right (h.caches c).objSz.toNat hlt
        rw [Nat.succ_mul] at hmul
        omega
      · have hmul := Nat.mul_le_mul_right (h.caches c).objSz.toNat hlt
        rw [Nat.succ_mul] at hmul
        omega
  · obtain ⟨_, hlow, hhigh⟩ := hinv.extent hback
    obtain ⟨_, hlow', hhigh'⟩ := hinv.extent hback'
    rcases hinv.handedOut_apart hback.mem hback'.mem hbb with hap | hap <;> omega

end Extent

/-- In every state of a run of Malloc and Free the live allocations are pairwise
disjoint, aligned to 16 bytes, and each lies inside one block that the buddy system
handed out. Every call returns. -/
theorem heap_allocations_disjoint (hpool : FreshPool h) (hrun : HeapReachable h r) :
    (r.live.Pairwise fun a a' =>
        a.ptr.toNat + a.size ≤ a'.ptr.toNat ∨ a'.ptr.toNat + a'.size ≤ a.ptr.toNat) ∧
      (∀ a ∈ r.live, 16 ∣ a.ptr.toNat ∧ ∃ b ∈ r.heap.handedOut,
        (pageToVirt b.start).toNat ≤ a.ptr.toNat ∧
          a.ptr.toNat + a.size ≤ (pageToVirt b.start).toNat + 4096 * 2 ^ b.order) ∧
      (∀ fuel size, ∃ res, r.heap.malloc (fuel + 2) (kheapPoolInit h).2 size = some res) ∧
      ∀ a ∈ r.live, ∃ h', r.heap.free a.ptr = some h' := by
  have hinv := hrun.heapInv hpool
  refine ⟨?_, ?_, hinv.malloc_returns (kheapPoolInit_uses h), ?_⟩
  · exact hinv.distinct.imp_of_mem fun ha ha' hne => hinv.allocations_apart ha ha' hne
  · intro a ha
    obtain ⟨b, hback⟩ := hinv.backed a ha
    obtain ⟨halign, hlow, hhigh⟩ := hinv.extent hback
    have hstop := hinv.stop_handedOut hback.mem
    have hpos := Nat.two_pow_pos b.order
    unfold Block.stop at hstop hhigh
    have haddr := toNat_pageToVirt (p := b.start) (by omega)
    refine ⟨halign, b, hback.mem, ?_⟩
    rw [haddr]
    omega
  · intro a ha
    obtain ⟨h', heq, _⟩ := hinv.free ha
    exact ⟨h', heq⟩

/-- A heap whose pool has one free block of four pages. -/
def fourPageHeap : HeapState where
  pool := fourPages.pool
  mem := fun _ => 0#8
  caches := fun _ => KMemCache.init 16#64
  handedOut := []

theorem fourPageHeap_fresh : FreshPool fourPageHeap where
  separated := fourPages_separated
  stop := by
    show ∀ b ∈ fourPages.pool.freeBlocks 0, b.stop ≤ directMapPages
    rw [fourPages_freeBlocks]
    decide
  handedOut := rfl

/-- Two requests for one page each take the last two of the four objects of a slab of
cache 9. -/
theorem fourPageHeap_malloc :
    ((kheapPoolInit fourPageHeap).1.malloc 2 (kheapPoolInit fourPageHeap).2 4096#64).bind
      (fun res => (res.2.2.malloc 2 (kheapPoolInit fourPageHeap).2 4096#64).map
        fun res' => (res.1, res.2.1, res'.1, res'.2.1)) =
      some (0xFFFF800000003000#64, some 9, 0xFFFF800000002000#64, some 9) := rfl

theorem fourPageHeap_reachable : ∃ r, HeapReachable fourPageHeap r ∧
    r.live = [⟨0xFFFF800000002000#64, 4096, some 9⟩, ⟨0xFFFF800000003000#64, 4096, some 9⟩] := by
  obtain ⟨⟨obj, source, h₁⟩, hrun, hrest⟩ := Option.bind_eq_some_iff.mp fourPageHeap_malloc
  obtain ⟨⟨obj', source', h₂⟩, hrun', hres⟩ := Option.map_eq_some_iff.mp hrest
  simp only [Prod.mk.injEq] at hres
  obtain ⟨rfl, rfl, rfl, rfl⟩ := hres
  refine ⟨_, (Relation.ReflTransGen.single (.malloc hrun)).tail (.malloc hrun'), ?_⟩
  rfl

/-- The two live pages of the run do not overlap. -/
theorem heap_allocations_disjoint_fourPages : ∃ r, HeapReachable fourPageHeap r ∧
    r.live.length = 2 ∧ r.live.Pairwise fun a a' =>
      a.ptr.toNat + a.size ≤ a'.ptr.toNat ∨ a'.ptr.toNat + a'.size ≤ a.ptr.toNat := by
  obtain ⟨r, hrun, hlive⟩ := fourPageHeap_reachable
  exact ⟨r, hrun, by rw [hlive]; rfl, (heap_allocations_disjoint fourPageHeap_fresh hrun).1⟩

/-- For every live pointer the page that Free works on is the head page of the block
that holds the allocation, also when the pointer is on a tail page. Its cache is the
one whose Malloc returned the pointer, and none exactly when the allocation is backed
by pages; Free calls that cache with that page. -/
theorem heap_free_finds_owner (hpool : FreshPool h) (hrun : HeapReachable h r) :
    ∀ a ∈ r.live, ∃ b ∈ r.heap.handedOut, virtToPage a.ptr ∈ b ∧
      (∀ x, InRange a.ptr a.size x → virtToPage x ∈ b) ∧
      getHeadPage r.heap.pool.pgdb (virtToPage a.ptr) = b.start ∧
      (r.heap.pool.pgdb b.start).kc = a.source ∧
      r.heap.free a.ptr = match a.source with
        | none => r.heap.putPage b.start
        | some c => r.heap.cacheFree c b.start a.ptr := by
  intro a ha
  have hinv := hrun.heapInv hpool
  obtain ⟨b, hback⟩ := hinv.backed a ha
  obtain ⟨hhead, hkc⟩ := hinv.free_head hback
  exact ⟨b, hback.mem, hinv.virtToPage_mem hback, fun x hx => hinv.range_mem hback hx, hhead, hkc,
    hinv.free_eq hback⟩

/-- The pointer to the last page of the slab is freed through cache 9. -/
theorem heap_free_finds_owner_fourPages : ∃ r, HeapReachable fourPageHeap r ∧
    ∃ b ∈ r.heap.handedOut,
      getHeadPage r.heap.pool.pgdb (virtToPage 0xFFFF800000003000#64) = b.start ∧
        (r.heap.pool.pgdb b.start).kc = some 9 := by
  obtain ⟨r, hrun, hlive⟩ := fourPageHeap_reachable
  obtain ⟨b, hb, _, _, hhead, hkc, _⟩ := heap_free_finds_owner fourPageHeap_fresh hrun
    ⟨0xFFFF800000003000#64, 4096, some 9⟩ (by rw [hlive]; simp)
  exact ⟨r, hrun, b, hb, hhead, hkc⟩

end ClosureOS
