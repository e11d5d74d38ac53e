import ClosureOS.HeapAccess

/-!
What the entries listed for KHeapPool::Free have to do with the call: an entry that is not
listed is left as it is, and heaps that agree on the listed ones are treated alike. So the
list names every entry that the call writes, and every entry that it reads. For a pointer
of a run all of them are in the database, unless it is the null pointer, which Malloc
returns when no memory is left.
-/
namespace ClosureOS

open ByteMemory DyadicBlocks PoolState HeapState

/-- Two heaps with the same memory, caches and lists, and the same entries in l. -/
structure HeapAgreeOn (l : List ℕ) (h t : HeapState) : Prop where
  pool : AgreeOn l h.pool t.pool
  mem : h.mem = t.mem
  caches : h.caches = t.caches

/-- The entries listed for Free are those that it writes and reads: the others stay as they
are, and on a heap with the same listed entries the call does the same. -/
structure FreeFootprint (kp : KHeapPool) (h : HeapState) (obj : Word) : Prop where
  frame : ∀ h' q, h.free obj = some h' → q ∉ h.freeAccess kp obj → h'.pool.pgdb q = h.pool.pgdb q
  congr : ∀ t, HeapAgreeOn (h.freeAccess kp obj) h t →
    t.freeAccess kp obj = h.freeAccess kp obj ∧
      Option.Rel (HeapAgreeOn (h.freeAccess kp obj)) (h.free obj) (t.free obj)

section Footprint

variable {h h' t : HeapState} {kp : KHeapPool} {c p q : ℕ} {obj : Word} {l : List ℕ}

/-! ### Entries that are not listed -/

theorem putPage_frame (hq : q ∉ h.putAccess p) (hrun : h.putPage p = some h') :
    h'.pool.pgdb q = h.pool.pgdb q := by
  obtain ⟨s, hput, rfl⟩ := Option.map_eq_some_iff.mp hrun
  simp only [putAccess, List.mem_cons, not_or] at hq
  obtain ⟨_, hhead, hcalled⟩ := hq
  unfold PoolState.putPage at hput
  cases hcall : h.pool.putPageCall p with
  | none =>
    simp only [hcall] at hput
    obtain rfl := Option.some.inj hput
    exact Function.update_of_ne hhead _ _
  | some call =>
    simp only [hcall] at hput hcalled
    obtain ⟨pid, hpid, rfl⟩ := Option.map_eq_some_iff.mp hput
    simp only [hpid] at hcalled
    exact (freePages_frame hcalled).1.trans (Function.update_of_ne hhead _ _)

theorem cacheFree_frame (hq : q ∉ h.cacheFreeAccess kp c p)
    (hrun : h.cacheFree c p obj = some h') : h'.pool.pgdb q = h.pool.pgdb q := by
  simp only [cacheFreeAccess, List.mem_cons, not_or] at hq
  obtain ⟨hpage, hrest⟩ := hq
  simp only [cacheFree, internalObjFree] at hrun
  split at hrun
  · obtain rfl := Option.some.inj hrun
    exact Function.update_of_ne hpage _ _
  · next hcur =>
    rw [if_neg hcur] at hrest
    split at hrun
    · obtain rfl := Option.some.inj hrun
      exact Function.update_of_ne hpage _ _
    · next hone =>
      rw [if_neg hone] at hrest
      split at hrun
      · next hall =>
        rw [if_pos hall, List.mem_append, not_or] at hrest
        exact (putPage_frame hrest.2 hrun).trans (Function.update_of_ne hpage _ _)
      · obtain rfl := Option.some.inj hrun
        exact Function.update_of_ne hpage _ _

/-- Free leaves the entries that are not listed as they are. -/
theorem free_frame (hq : q ∉ h.freeAccess kp obj) (hrun : h.free obj = some h') :
    h'.pool.pgdb q = h.pool.pgdb q := by
  simp only [HeapState.freeAccess, List.mem_cons, not_or] at hq
  obtain ⟨_, _, hrest⟩ := hq
  simp only [HeapState.free] at hrun
  split at hrun
  · next hkc =>
    simp only [hkc] at hrest
    exact putPage_frame hrest hrun
  · next hkc =>
    simp only [hkc] at hrest
    exact cacheFree_frame hrest hrun

/-! ### Heaps that agree on the listed entries -/

theorem getHeadPage_congr {g g' : Pgdb} (hp : g p = g' p) : getHeadPage g' p = getHeadPage g p := by
  rw [getHeadPage, getHeadPage, hp]

theorem HeapAgreeOn.delAccess (hag : HeapAgreeOn l h t) (kp : KHeapPool) (p : ℕ) :
    t.delAccess kp p = h.delAccess kp p := by
  rw [HeapState.delAccess, HeapState.delAccess, pageLists, pageLists, hag.caches, hag.pool.lists]

theorem HeapAgreeOn.putPage (hag : HeapAgreeOn l h t) (hl : ∀ q ∈ h.putAccess p, q ∈ l) :
    t.putAccess p = h.putAccess p ∧
      Option.Rel (HeapAgreeOn l) (h.putPage p) (t.putPage p) := by
  have hpage := hag.pool.entries p (hl p List.mem_cons_self)
  have hhead : getHeadPage t.pool.pgdb p = getHeadPage h.pool.pgdb p := getHeadPage_congr hpage
  have hentry : h.pool.pgdb (getHeadPage h.pool.pgdb p) = t.pool.pgdb (getHeadPage h.pool.pgdb p) :=
    hag.pool.entries _ (hl _ (by simp [putAccess]))
  have hcalls : t.pool.putPageCall p = h.pool.putPageCall p := by
    rw [putPageCall, putPageCall, hhead, hentry]
  have hset := hag.pool.setPage (getHeadPage h.pool.pgdb p)
    { h.pool.pgdb (getHeadPage h.pool.pgdb p) with
      refCount := (h.pool.pgdb (getHeadPage h.pool.pgdb p)).refCount - 1#32 }
  simp only [putAccess] at hl
  simp only [putAccess, HeapState.putPage, PoolState.putPage, hcalls, hhead, ← hentry]
  cases hcall : h.pool.putPageCall p with
  | none => exact ⟨rfl, Option.Rel.some ⟨hset, hag.mem, hag.caches⟩⟩
  | some call =>
    cases hpid : call.pool with
    | none =>
      simp only [hpid]
      exact ⟨trivial, Option.Rel.none⟩
    | some pid =>
      simp only [hcall, hpid] at hl ⊢
      obtain ⟨haccess, hfree⟩ := freePages_congr hset fun q hq =>
        hl q (List.mem_cons_of_mem _ (List.mem_cons_of_mem _ hq))
      exact ⟨congrArg (fun l => p :: getHeadPage h.pool.pgdb p :: l) haccess,
        Option.Rel.some ⟨hfree, hag.mem, hag.caches⟩⟩

theorem HeapAgreeOn.unlinked (hag : HeapAgreeOn l h t) (hp : p ∈ l) (objNr : Word) :
    HeapAgreeOn l (h.unlinked p objNr) (t.unlinked p objNr) where
  pool := by
    rw [HeapState.unlinked, HeapState.unlinked, hag.pool.entries p hp]
    exact (hag.pool.setPage p _).listDel p
  mem := hag.mem
  caches := by
    change (fun c => (h.caches c).listDel p) = fun c => (t.caches c).listDel p
    rw [hag.caches]

theorem HeapAgreeOn.setPage (hag : HeapAgreeOn l h t) (p : ℕ) (pg : Page) :
    HeapAgreeOn l (h.setPage p pg) (t.setPage p pg) :=
  ⟨hag.pool.setPage p pg, hag.mem, hag.caches⟩

theorem HeapAgreeOn.setCache (hag : HeapAgreeOn l h t) (c : ℕ) (kc : KMemCache) :
    HeapAgreeOn l (h.setCache c kc) (t.setCache c kc) where
  pool := hag.pool
  mem := hag.mem
  caches := by
    rw [HeapState.setCache, HeapState.setCache, hag.caches]

theorem HeapAgreeOn.store64 (hag : HeapAgreeOn l h t) (addr val : Word) :
    HeapAgreeOn l { h with mem := store64 h.mem addr val }
      { t with mem := store64 t.mem addr val } :=
  ⟨hag.pool, congrArg (fun m => ByteMemory.store64 m addr val) hag.mem, hag.caches⟩

theorem HeapAgreeOn.cacheFree (hag : HeapAgreeOn l h t)
    (hl : ∀ q ∈ h.cacheFreeAccess kp c p, q ∈ l) (obj : Word) :
    t.cacheFreeAccess kp c p = h.cacheFreeAccess kp c p ∧
      Option.Rel (HeapAgreeOn l) (h.cacheFree c p obj) (t.cacheFree c p obj) := by
  have hp : p ∈ l := hl p List.mem_cons_self
  have hentry := hag.pool.entries p hp
  have hset := hag.setPage p { h.pool.pgdb p with objNr := (h.pool.pgdb p).objNr + 1#64 }
  simp only [cacheFreeAccess] at hl
  simp only [cacheFreeAccess, HeapState.cacheFree, internalObjFree, ← hentry, ← hag.caches,
    hag.delAccess]
  by_cases hcur : (h.caches c).current = some p
  · -- the object joins the chain of the current page
    simp only [if_pos hcur]
    exact ⟨trivial, Option.Rel.some ((hset.store64 obj _).setCache c _)⟩
  simp only [if_neg hcur] at hl ⊢
  have hunlink := hag.unlinked hp ((h.pool.pgdb p).objNr + 1#64)
  by_cases hone : (h.pool.pgdb p).objNr + 1#64 = 1#64
  · -- the page goes to the full list
    simp only [if_pos hone]
    rw [HeapState.unlinked, HeapState.unlinked, ← hentry] at hunlink
    exact ⟨trivial, Option.Rel.some (hunlink.setCache c _)⟩
  simp only [if_neg hone] at hl ⊢
  by_cases hall : (h.pool.pgdb p).objNr + 1#64 = (h.caches c).pageObjNr
  · -- the page is given back
    simp only [if_pos hall] at hl ⊢
    obtain ⟨haccess, hput⟩ := hunlink.putPage fun q hq =>
      hl q (List.mem_cons_of_mem _ (List.mem_append_right _ hq))
    rw [haccess]
    rw [HeapState.unlinked, HeapState.unlinked, ← hentry] at hput
    exact ⟨rfl, hput⟩
  · simp only [if_neg hall]
    exact ⟨trivial, Option.Rel.some hset⟩

/-- Free does the same on two heaps that agree on the listed entries. -/
theorem free_congr (hag : HeapAgreeOn l h t) (hl : ∀ q ∈ h.freeAccess kp obj, q ∈ l) :
    t.freeAccess kp obj = h.freeAccess kp obj ∧
      Option.Rel (HeapAgreeOn l) (h.free obj) (t.free obj) := by
  have hhead : getHeadPage t.pool.pgdb (virtToPage obj) =
      getHeadPage h.pool.pgdb (virtToPage obj) :=
    getHeadPage_congr (hag.pool.entries _ (hl _ List.mem_cons_self))
  have hentry := hag.pool.entries _ (hl _ (List.mem_cons_of_mem _ List.mem_cons_self))
  simp only [HeapState.freeAccess] at hl
  simp only [HeapState.freeAccess, HeapState.free, hhead, ← hentry]
  cases hkc : (h.pool.pgdb (getHeadPage h.pool.pgdb (virtToPage obj))).kc with
  | none =>
    simp only [hkc] at hl ⊢
    obtain ⟨haccess, hput⟩ := hag.putPage fun q hq =>
      hl q (List.mem_cons_of_mem _ (List.mem_cons_of_mem _ hq))
    rw [haccess]
    exact ⟨rfl, hput⟩
  | some c =>
    simp only [hkc] at hl ⊢
    obtain ⟨haccess, hfree⟩ := hag.cacheFree (fun q hq =>
      hl q (List.mem_cons_of_mem _ (List.mem_cons_of_mem _ hq))) obj
    rw [haccess]
    exact ⟨rfl, hfree⟩

theorem freeFootprint (kp : KHeapPool) (h : HeapState) (obj : Word) : FreeFootprint kp h obj where
  frame _ _ hrun hq := free_frame hq hrun
  congr _ hag := free_congr hag fun _ hq => hq

end Footprint

/-! ### Free in a run -/

/-- A database of nr entries that the direct map has room for, and free lists that hold
separated blocks of it. -/
structure FreshDatabase (nr : ℕ) (h : HeapState) : Prop where
  separated : Separated (h.pool.freeBlocks globlPagePool)
  stop : ∀ b ∈ h.pool.freeBlocks globlPagePool, b.stop ≤ nr
  room : nr ≤ directMapPages
  handedOut : h.handedOut = []

section Run

variable {h : HeapState} {r : HeapRun} {nr : ℕ} {obj : Word}

theorem FreshDatabase.freshPool (hdb : FreshDatabase nr h) : FreshPool h :=
  ⟨hdb.separated, fun b hb => (hdb.stop b hb).trans hdb.room, hdb.handedOut⟩

theorem FreshDatabase.stop_le (hdb : FreshDatabase nr h) :
    ∀ b ∈ (kheapPoolInit h).1.allBlocks defaultConfig, b.stop ≤ nr := by
  intro b hb
  rw [HeapState.allBlocks, kheapPoolInit_pool, kheapPoolInit_handedOut, hdb.handedOut,
    List.append_nil] at hb
  obtain ⟨pid, hpid, hb⟩ := mem_freeBlocksOf.mp hb
  obtain rfl := List.mem_singleton.mp hpid
  exact hdb.stop b hb

/-- In every run Free accepts a pointer that Malloc returned exactly when it is not the
null pointer. The entries are those that the call writes and reads. -/
theorem free_accepts_iff (hdb : FreshDatabase nr h) (hrun : HeapReachable h r)
    (hobj : r.Returned obj) :
    (FreeAccepts (kheapPoolInit h).2 nr r.heap obj ↔ obj ≠ 0#64) ∧
      FreeFootprint (kheapPoolInit h).2 r.heap obj := by
  have huses := kheapPoolInit_uses h
  have hfirst := HeapInv.init hdb.freshPool.separated hdb.freshPool.stop hdb.handedOut
  have hinv := hrun.heapInv hdb.freshPool
  have hstop := (hfirst.run_inside huses hrun).stop_le hdb.stop_le
  have hlists : ∀ l ∈ r.heap.pageLists (kheapPoolInit h).2, ∀ i ∈ l, i < nr :=
    hinv.pageLists_lt hstop (fun _ hc => hc) (fun _ hpid => hpid)
  refine ⟨?_, freeFootprint _ r.heap obj⟩
  constructor
  · -- the entry that belongs to address 0 is the first behind the direct map
    rintro ⟨haccess, _⟩ rfl
    have hlt : 2 ^ 35 < nr := haccess _ List.mem_cons_self
    exact absurd hlt (Nat.not_lt.mpr hdb.room)
  · intro hne
    rcases hobj with hzero | ⟨a, ha, rfl⟩
    · exact absurd hzero hne
    · exact ⟨hinv.freeAccess_lt hstop ha hlists, fun hzero => absurd hzero hne⟩

end Run

theorem fourPageHeap_database : FreshDatabase 4 fourPageHeap where
  separated := fourPages_separated
  stop := by
    show ∀ b ∈ fourPages.pool.freeBlocks 0, b.stop ≤ 4
    rw [fourPages_freeBlocks]
    decide
  room := by decide
  handedOut := rfl

/-- Both live pages can be freed inside a database of four entries. -/
theorem free_accepts_iff_fourPages : ∃ r, HeapReachable fourPageHeap r ∧
    FreeAccepts (kheapPoolInit fourPageHeap).2 4 r.heap 0xFFFF800000002000#64 ∧
      FreeAccepts (kheapPoolInit fourPageHeap).2 4 r.heap 0xFFFF800000003000#64 := by
  obtain ⟨r, hrun, hlive⟩ := fourPageHeap_reachable
  have hfirst : r.Returned 0xFFFF800000002000#64 :=
    Or.inr ⟨⟨0xFFFF800000002000#64, 4096, some 9⟩, by rw [hlive]; decide, rfl⟩
  have hsecond : r.Returned 0xFFFF800000003000#64 :=
    Or.inr ⟨⟨0xFFFF800000003000#64, 4096, some 9⟩, by rw [hlive]; decide, rfl⟩
  exact ⟨r, hrun, (free_accepts_iff fourPageHeap_database hrun hfirst).1.mpr (by decide),
    (free_accepts_iff fourPageHeap_database hrun hsecond).1.mpr (by decide)⟩

/-- A request for 4 GiB finds no block. -/
theorem fourPageHeap_exhausted :
    ((kheapPoolInit fourPageHeap).1.malloc 2 (kheapPoolInit fourPageHeap).2 0x100000000#64).map
      (fun res => res.1) = some 0#64 := rfl

/-- Malloc returns the null pointer, and Free of it reads an entry far behind a database
of four entries. -/
theorem free_not_accepts : ∃ source h',
    (kheapPoolInit fourPageHeap).1.malloc 2 (kheapPoolInit fourPageHeap).2 0x100000000#64 =
        some (0#64, source, h') ∧
      HeapReachable fourPageHeap ⟨h', []⟩ ∧
      ¬ FreeAccepts (kheapPoolInit fourPageHeap).2 4 h' 0#64 := by
  obtain ⟨⟨obj, source, h'⟩, hrun, hobj⟩ := Option.map_eq_some_iff.mp fourPageHeap_exhausted
  obtain rfl : obj = 0#64 := hobj
  have hstep := HeapStep.malloc (r := ⟨(kheapPoolInit fourPageHeap).1, []⟩) hrun
  rw [if_pos rfl] at hstep
  refine ⟨source, h', hrun, Relation.ReflTransGen.single hstep, ?_⟩
  rintro ⟨haccess, _⟩
  have hlt : 2 ^ 35 < 4 := haccess _ List.mem_cons_self
  exact absurd hlt (by decide)

end ClosureOS
