import ClosureOS.HeapSafety
import ClosureOS.SlabLayout
import Mathlib.Tactic.Ring

/-!
KMemCache::Init with KMemCache::__page_obj_slicing, for object sizes of a word or more.
The order that Init computes always leaves room for one object, so the objects tile the
front of the block: as many as fit, one after the other, all of them on the chain.
-/
namespace ClosureOS

open ByteMemory DyadicBlocks

section Init

variable {objSz : Word} {b : Block}

/-- A block of the order that Init computes holds at least one object. -/
theorem KMemCache.init_holds_object (objSz : Word) :
    objSz.toNat ≤ 4096 * 2 ^ (KMemCache.init objSz).order := by
  have hshift : (objSz >>> pageShift).toNat = objSz.toNat / 4096 := by
    rw [BitVec.toNat_ushiftRight, Nat.shiftRight_eq_div_pow]
    rfl
  simp only [KMemCache.init, hshift, ge_iff_le, BitVec.le_def, toNat_pageSize]
  split
  · have hpow : objSz.toNat / 4096 < 2 ^ (objSz.toNat / 4096) := Nat.lt_two_pow_self
    rw [pow_succ]
    omega
  · next hlt =>
    rw [Nat.div_eq_of_lt (Nat.lt_of_not_le hlt), pow_zero]
    omega

/-- page_obj_nr is the number of objects that fit. -/
theorem KMemCache.init_pageObjNr (horder : (KMemCache.init objSz).order ≤ 10) :
    (KMemCache.init objSz).pageObjNr.toNat =
      4096 * 2 ^ (KMemCache.init objSz).order / objSz.toNat := by
  have hpow : 2 ^ (KMemCache.init objSz).order ≤ 2 ^ 10 := Nat.pow_le_pow_right (by decide) horder
  have hshift : (pageSize <<< (KMemCache.init objSz).order).toNat =
      4096 * 2 ^ (KMemCache.init objSz).order := by
    rw [BitVec.toNat_shiftLeft, Nat.shiftLeft_eq, toNat_pageSize, Nat.mod_eq_of_lt (by omega)]
  change ((pageSize <<< (KMemCache.init objSz).order) / objSz).toNat = _
  rw [BitVec.toNat_udiv, hshift]

theorem KMemCache.init_slabFits (hpos : 0 < objSz.toNat)
    (horder : (KMemCache.init objSz).order ≤ 10) (hb : b.order = (KMemCache.init objSz).order)
    (hstop : b.stop ≤ directMapPages) : SlabFits b objSz (KMemCache.init objSz).pageObjNr where
  stop := hstop
  pos := hpos
  fits := by
    rw [KMemCache.init_pageObjNr horder, hb]
    exact Nat.div_mul_le_self _ _

end Init

/-- What the loop of a cache leaves in memory and in the entry of the page. -/
theorem HeapState.pageObjSlicing_of_loop (h : HeapState) (c p : ℕ) (kc : KMemCache) {m : Memory}
    {head next : Word} (hloop : (sliceStep kc.objSz)^[kc.pageObjNr.toNat]
      (h.mem, 0#64, pageToVirt p) = (m, head, next)) :
    ((h.setCache c kc).pageObjSlicing c p).mem = m ∧
      (((h.setCache c kc).pageObjSlicing c p).pool.pgdb p).freelist = head := by
  obtain ⟨r, hentry⟩ := PoolState.getPage_pgdb (h.pool.setPage p
    { h.pool.pgdb p with objNr := kc.pageObjNr, freelist := head, kc := some c }) p p
  simp only [pageObjSlicing, setCache_caches_self, setCache_mem, setCache_pool, hloop, true_and]
  rw [hentry]
  simp only [PoolState.setPage, Function.update_self]

section Slots

variable {objSz nr : Word} {b : Block} {i : ℕ}

theorem SlabFits.toNat_slotAddr_add (hfits : SlabFits b objSz nr) (hi : i < nr.toNat) :
    (slotAddr b.start objSz i).toNat = (pageToVirt b.start).toNat + i * objSz.toNat := by
  rw [hfits.toNat_slotAddr hi, ← slotAddr_zero b.start objSz,
    hfits.toNat_slotAddr (Nat.zero_lt_of_lt hi), Nat.zero_mul, Nat.add_zero]

/-- An object has one number. -/
theorem SlabFits.existsUnique_slot (hfits : SlabFits b objSz nr) (hi : i < nr.toNat) :
    ∃! j, j < nr.toNat ∧
      (slotAddr b.start objSz i).toNat = (pageToVirt b.start).toNat + j * objSz.toNat := by
  refine ⟨i, ⟨hi, hfits.toNat_slotAddr_add hi⟩, fun j hj => ?_⟩
  have heq := hfits.toNat_slotAddr_add hi
  rw [hj.2] at heq
  exact Nat.eq_of_mul_eq_mul_right hfits.pos (Nat.add_left_cancel heq)

end Slots

/-- A cache is initialised with an object size of a word or more and slices a block of the
order it computed. The chain that starts at the page's free list is made of the objects
that fit into the block, at least one, and each at its own multiple of the size; all of them
lie inside the block, and so does every word that the loop writes. -/
theorem pageObjSlicing_tiles {objSz : Word} {b : Block} (hsz : 8 ≤ objSz.toNat)
    (horder : (KMemCache.init objSz).order ≤ 10) (hb : b.order = (KMemCache.init objSz).order)
    (hstop : b.stop ≤ directMapPages) (h : HeapState) (c : ℕ) :
    let h' := (h.setCache c (KMemCache.init objSz)).pageObjSlicing c b.start
    let n := 4096 * 2 ^ b.order / objSz.toNat
    let inBlock := InRange (pageToVirt b.start) (4096 * 2 ^ b.order)
    (KMemCache.init objSz).pageObjNr.toNat = n ∧ 1 ≤ n ∧
    (∃ l, Chain (load64 h'.mem) 0#64 (h'.pool.pgdb b.start).freelist l ∧ l.length = n ∧ l.Nodup ∧
      ∀ a ∈ l, (∃! i, i < n ∧ a.toNat = (pageToVirt b.start).toNat + i * objSz.toNat) ∧
        ∀ x, InRange a objSz.toNat x → inBlock x) ∧
    (∀ k < n, ∀ x, InRange ((HeapState.sliceStep objSz)^[k] (h.mem, 0#64, pageToVirt b.start)).2.2
      8 x → inBlock x) ∧
    ∀ x, ¬ inBlock x → h'.mem x = h.mem x := by
  intro h' n inBlock
  have hpos : 0 < objSz.toNat := by omega
  have hfits := KMemCache.init_slabFits hpos horder hb hstop
  have hnr : (KMemCache.init objSz).pageObjNr.toNat = n := by
    rw [KMemCache.init_pageObjNr horder, ← hb]
  have hone : 1 ≤ n := by
    have hholds := KMemCache.init_holds_object objSz
    rw [← hb] at hholds
    exact (Nat.one_le_div_iff hpos).mpr hholds
  obtain ⟨m', head, hloop, hchain, hframe⟩ := hfits.slicing hsz h.mem (Nat.le_refl _)
  obtain ⟨hmem, hhead⟩ : h'.mem = m' ∧ (h'.pool.pgdb b.start).freelist = head :=
    h.pageObjSlicing_of_loop c b.start (KMemCache.init objSz) hloop
  refine ⟨hnr, hone, ⟨_, ?_, ?_, hfits.nodup_slots, fun a ha => ?_⟩, fun k hk x hx => ?_,
    fun x hx => ?_⟩
  · rw [hmem, hhead]
    exact hchain
  · rw [length_slots, hnr]
  · obtain ⟨i, hi, rfl⟩ := mem_slots.mp ha
    refine ⟨?_, fun x hx => hfits.inRange_block hi (Nat.le_refl _) hx⟩
    rw [← hnr]
    exact hfits.existsUnique_slot hi
  · obtain ⟨_, _, hround, _, _⟩ := hfits.slicing hsz h.mem (show k ≤ _ by omega)
    rw [hround] at hx
    exact hfits.inRange_block (by omega) hsz hx
  · rw [hmem]
    exact hframe x hx

/-- Objects of 1500 bytes leave 1096 bytes of their page unused. -/
theorem pageObjSlicing_tiles_remainder :
    let h' := (fourPageHeap.setCache 3 (KMemCache.init 1500#64)).pageObjSlicing 3 2
    ∃ l, Chain (load64 h'.mem) 0#64 (h'.pool.pgdb 2).freelist l ∧ l.length = 2 ∧
      ∀ a ∈ l, ∃! i, i < 2 ∧ a.toNat = 0xFFFF800000002000 + i * 1500 := by
  obtain ⟨_, _, ⟨l, hchain, hlen, _, hmem⟩, _⟩ := @pageObjSlicing_tiles 1500#64 ⟨2, 0⟩
    (by decide) (by decide) rfl (by decide) fourPageHeap 3
  exact ⟨l, hchain, hlen, fun a ha => (hmem a ha).1⟩

end ClosureOS
