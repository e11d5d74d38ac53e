import ClosureOS.KMemCache
import Mathlib.Data.Nat.Size

/-!
KHeapPool in mm/heap_mm.cppm, the front end of the caches, and its set-up by
kheap_pool_init in mm/mm_main.cppm. A request goes to the first cache that is large
enough and can serve it, then to the buddy system.
-/
namespace ClosureOS

open ByteMemory DyadicBlocks

/-- class KHeapPool: the two arrays of SetKMemCaches and the array of SetPagePools. -/
structure KHeapPool where
  caches : List ℕ
  cacheObjSizes : List Word
  pools : List ℕ

/-- The shift 1 << order on int, converted to size_t. The processor takes the count
modulo 32; the language leaves counts from 32 on undefined. -/
def oneShl (order : ℕ) : Word := (1#32 <<< (order % 32)).signExtend 64

/-- The rounds of the loop that halves size until it is zero. -/
def halvings : ℕ → Word → ℕ
  | 0, _ => 0
  | n + 1, size => if size > 0#64 then halvings n (size >>> 1) + 1 else 0

/-- The order that __malloc_pools asks for. -/
def mallocPoolsOrder (size : Word) : ℕ :=
  let order := halvings 64 (size >>> (pageShift + 1))
  if oneShl order * pageSize < size then order + 1 else order

namespace HeapState

/-- The loop of __malloc_caches. The cache that served the object is kept beside it;
the source returns the object only. -/
def mallocCaches (fuel : ℕ) (size : Word) :
    List (ℕ × Word) → HeapState → Option (Word × Option ℕ × HeapState)
  | [], h => some (0#64, none, h)
  | (c, objSize) :: rest, h =>
    if size ≤ objSize then
      match h.cacheMalloc fuel c with
      | none => none
      | some (obj, h) =>
        if obj ≠ 0#64 then some (obj, some c, h) else mallocCaches fuel size rest h
    else mallocCaches fuel size rest h

def mallocPools (h : HeapState) (kp : KHeapPool) (size : Word) : Word × HeapState :=
  match h.tryPools (mallocPoolsOrder size) kp.pools with
  | (none, h) => (0#64, h)
  | (some p, h) => (pageToVirt p, { h with pool := h.pool.getPage p })

/-- KHeapPool::Malloc, with the cache that served the object, none if it is backed by
pages of its own. -/
def malloc (fuel : ℕ) (h : HeapState) (kp : KHeapPool) (size : Word) :
    Option (Word × Option ℕ × HeapState) :=
  match h.mallocCaches fuel size (kp.caches.zip kp.cacheObjSizes) with
  | none => none
  | some (obj, source, h) =>
    if obj = 0#64 then some ((h.mallocPools kp size).1, none, (h.mallocPools kp size).2)
    else some (obj, source, h)

/-- What the loop of __malloc_caches does at a cache: pass by, be served, or find it out of
memory and go on. -/
theorem mallocCaches_cons_eq_some {h h' : HeapState} {fuel c : ℕ} {size objSize obj : Word}
    {l : List (ℕ × Word)} {source : Option ℕ}
    (hrun : h.mallocCaches fuel size ((c, objSize) :: l) = some (obj, source, h')) :
    h.mallocCaches fuel size l = some (obj, source, h') ∨
      ∃ o h₁, size ≤ objSize ∧ h.cacheMalloc fuel c = some (o, h₁) ∧
        (o = 0#64 ∧ h₁.mallocCaches fuel size l = some (obj, source, h') ∨
          o ≠ 0#64 ∧ obj = o ∧ source = some c ∧ h' = h₁) := by
  rw [mallocCaches] at hrun
  by_cases hle : size ≤ objSize
  · rw [if_pos hle] at hrun
    cases hcall : h.cacheMalloc fuel c with
    | none => simp [hcall] at hrun
    | some r =>
      obtain ⟨o, h₁⟩ := r
      simp only [hcall] at hrun
      refine Or.inr ⟨o, h₁, hle, rfl, ?_⟩
      by_cases hzero : o = 0#64
      · rw [if_neg (not_not.mpr hzero)] at hrun
        exact Or.inl ⟨hzero, hrun⟩
      · rw [if_pos hzero, Option.some.injEq, Prod.mk.injEq, Prod.mk.injEq] at hrun
        exact Or.inr ⟨hzero, hrun.1.symm, hrun.2.1.symm, hrun.2.2.symm⟩
  · rw [if_neg hle] at hrun
    exact Or.inl hrun

/-- A call of Malloc is served by the caches, or by the pools after them. -/
theorem malloc_eq_some {h h' : HeapState} {fuel : ℕ} {kp : KHeapPool} {size obj : Word}
    {source : Option ℕ} (hrun : h.malloc fuel kp size = some (obj, source, h')) :
    ∃ o src h₁, h.mallocCaches fuel size (kp.caches.zip kp.cacheObjSizes) = some (o, src, h₁) ∧
      (o = 0#64 ∧ obj = (h₁.mallocPools kp size).1 ∧ source = none ∧
          h' = (h₁.mallocPools kp size).2 ∨
        o ≠ 0#64 ∧ obj = o ∧ source = src ∧ h' = h₁) := by
  rw [malloc] at hrun
  cases hcaches : h.mallocCaches fuel size (kp.caches.zip kp.cacheObjSizes) with
  | none => simp [hcaches] at hrun
  | some r =>
    obtain ⟨o, src, h₁⟩ := r
    simp only [hcaches] at hrun
    refine ⟨o, src, h₁, rfl, ?_⟩
    split at hrun
    · next hzero =>
      rw [Option.some.injEq, Prod.mk.injEq, Prod.mk.injEq] at hrun
      exact Or.inl ⟨hzero, hrun.1.symm, hrun.2.1.symm, hrun.2.2.symm⟩
    · next hne =>
      rw [Option.some.injEq, Prod.mk.injEq, Prod.mk.injEq] at hrun
      exact Or.inr ⟨hne, hrun.1.symm, hrun.2.1.symm, hrun.2.2.symm⟩

/-- KHeapPool::Free. -/
def free (h : HeapState) (obj : Word) : Option HeapState :=
  let page := getHeadPage h.pool.pgdb (virtToPage obj)
  match (h.pool.pgdb page).kc with
  | none => h.putPage page
  | some c => h.cacheFree c page obj

end HeapState

def kobjDefaultSize : List Word :=
  [16#64, 32#64, 64#64, 128#64, 192#64, 256#64, 512#64, 1024#64, 2048#64, 4096#64, 8192#64]

/-- KOBJECT_SIZE_NR caches, numbered as in GloblKMemCacheGroup. -/
def kobjectSizeNr : ℕ := 11

def globlPagePoolGroup : List ℕ := [globlPagePool]

def kheapPoolInit (h : HeapState) : HeapState × KHeapPool :=
  let h := (List.range kobjectSizeNr).foldl (fun h i =>
    h.setCache i ((KMemCache.init (kobjDefaultSize.getD i 0#64)).addPool globlPagePool).2) h
  (h, ⟨List.range kobjectSizeNr, kobjDefaultSize, globlPagePoolGroup⟩)

/-! ### The order of a page-backed request -/

theorem toNat_oneShl {order : ℕ} (h : order < 31) : (oneShl order).toNat = 2 ^ order := by
  revert order
  decide

theorem size_half {n : ℕ} (h : 0 < n) : Nat.size (n / 2) + 1 = Nat.size n := by
  have hbit := Nat.bit_testBit_zero_shiftRight_one n
  have hsize := Nat.size_bit (b := n.testBit 0) (n := n >>> 1) (by rw [hbit]; omega)
  rw [hbit, Nat.shiftRight_eq_div_pow, pow_one] at hsize
  exact hsize.symm

/-- The loop counts the bits of its argument. -/
theorem halvings_eq_size {n : ℕ} {size : Word} (h : size.toNat < 2 ^ n) :
    halvings n size = Nat.size size.toNat := by
  induction n generalizing size with
  | zero =>
    have hzero : size.toNat = 0 := Nat.lt_one_iff.mp h
    rw [hzero]
    rfl
  | succ n ih =>
    unfold halvings
    by_cases hpos : size > 0#64
    · have hhalf : (size >>> 1).toNat = size.toNat / 2 := by
        rw [BitVec.toNat_ushiftRight, Nat.shiftRight_eq_div_pow, pow_one]
      rw [if_pos hpos, ih (by rw [hhalf]; rw [pow_succ] at h; omega), hhalf]
      exact size_half hpos
    · have hzero : size.toNat = 0 := Nat.eq_zero_of_not_pos hpos
      rw [if_neg hpos, hzero]
      rfl

theorem lt_two_pow_halvings {n : ℕ} {size : Word} (h : size.toNat < 2 ^ n) :
    size.toNat < 2 ^ halvings n size := by
  rw [halvings_eq_size h]
  exact Nat.lt_size_self size.toNat

/-- A block of the order asked for holds the requested bytes. -/
theorem le_of_mallocPoolsOrder {size : Word} (h : mallocPoolsOrder size < maxPageOrder) :
    size.toNat ≤ 4096 * 2 ^ mallocPoolsOrder size := by
  have hmax : maxPageOrder = 11 := rfl
  have hshift : (size >>> (pageShift + 1)).toNat = size.toNat / 8192 := by
    rw [BitVec.toNat_ushiftRight, Nat.shiftRight_eq_div_pow]
    rfl
  have hcount := lt_two_pow_halvings (size >>> (pageShift + 1)).isLt
  rw [hshift] at hcount
  unfold mallocPoolsOrder at h ⊢
  simp only at h ⊢
  generalize halvings 64 (size >>> (pageShift + 1)) = order at hcount h ⊢
  have hlarge : size.toNat < 4096 * 2 ^ (order + 1) := by
    rw [pow_succ]
    omega
  split at h
  · next hlt =>
    rw [if_pos hlt]
    exact Nat.le_of_lt hlarge
  · next hge =>
    rw [if_neg hge]
    have hone : (oneShl order).toNat = 2 ^ order := toNat_oneShl (by omega)
    have hpow : 2 ^ order ≤ 2 ^ 11 := Nat.pow_le_pow_right (by omega) (by omega)
    have hprod : (oneShl order * pageSize).toNat = 4096 * 2 ^ order := by
      rw [BitVec.toNat_mul, hone, toNat_pageSize]
      omega
    have hle : ¬ (oneShl order * pageSize).toNat < size.toNat := hge
    omega

end ClosureOS
