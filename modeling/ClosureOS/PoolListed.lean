import ClosureOS.PoolPartition

/-!
What the lists of a pool hold in any run, whether the merges are whole or not. Listed blocks
are aligned, and splitting and merging take their pages from where the blocks are. Nothing
is said here about blocks that overlap.
-/
namespace ClosureOS

open DyadicBlocks PoolState

/-- Kinds of aligned blocks to which, with a block, its two halves belong. -/
structure Halving (B : Block → Prop) : Prop where
  aligned : ∀ b, B b → b.Aligned
  low : ∀ p k, B ⟨p, k + 1⟩ → B ⟨p, k⟩
  high : ∀ p k, B ⟨p, k + 1⟩ → B ⟨p + 2 ^ k, k⟩

/-- All listed blocks of the pool are of a kind. -/
def ListsOnly (pid : ℕ) (B : Block → Prop) (s : PoolState) : Prop := ∀ b ∈ s.freeBlocks pid, B b

section Listed

variable {pid : ℕ} {B : Block → Prop} {P : ℕ → Prop} {s s' : PoolState} {p q k j order : ℕ}

/-- Aligned blocks of pages in P. -/
theorem halving_within (P : ℕ → Prop) : Halving fun b => b.Aligned ∧ ∀ q ∈ b, P q where
  aligned _ h := h.1
  low _ _ h := ⟨two_pow_succ_dvd h.1, fun q hq => h.2 q (mem_parent.mpr (Or.inl hq))⟩
  high _ _ h := ⟨Nat.dvd_add (two_pow_succ_dvd h.1) (Nat.dvd_refl _),
    fun q hq => h.2 q (mem_parent.mpr (Or.inr hq))⟩

theorem Halving.low_of_le (hB : Halving B) (h : B ⟨p, j⟩) (hkj : k ≤ j) : B ⟨p, k⟩ := by
  induction j, hkj using Nat.le_induction with
  | base => exact h
  | succ j _ ih => exact ih (hB.low p j h)

theorem Halving.buddy (hB : Halving B) (h : B ⟨p, j⟩) (hkj : k < j) : B ⟨getPageBuddy p k, k⟩ := by
  rw [getPageBuddy_of_dvd (hB.aligned _ h) hkj]
  exact hB.high p k (hB.low_of_le h hkj)

theorem mem_freeBlocks_of_listDel {b : Block} (hb : b ∈ (s.listDel p).freeBlocks pid) :
    b ∈ s.freeBlocks pid := by
  obtain ⟨horder, hmem⟩ := mem_freeBlocks.mp hb
  exact mem_freeBlocks.mpr ⟨horder, List.mem_of_mem_erase hmem⟩

theorem ListsOnly.listDel (h : ListsOnly pid B s) (p : ℕ) : ListsOnly pid B (s.listDel p) :=
  fun b hb => h b (mem_freeBlocks_of_listDel hb)

/-- Putting a block of the kind on a list. -/
theorem ListsOnly.add {free : Bool} (h : ListsOnly pid B s) (hk : k < maxPageOrder)
    (hp : B ⟨p, k⟩) : ListsOnly pid B ((s.reinit p k free).listAddNext pid k p) := by
  intro b hb
  rcases List.mem_cons.mp ((freeBlocks_listAddNext (s.reinit p k free) pid p hk).mem_iff.mp hb) with
    rfl | hb
  · exact hp
  · exact h b hb

theorem ListsOnly.putHalves (hB : Halving B) (h : ListsOnly pid B s) (hp : B ⟨p, j⟩)
    (hj : j ≤ maxPageOrder) (hle : order ≤ j) : ListsOnly pid B (putHalves pid p order j s) :=
  putHalves_invariant (I := fun _ t => ListsOnly pid B t)
    (fun _ _ _ hkj ht => ht.add (hkj.trans_le hj) (hB.buddy hp hkj)) hle h

/-- AllocPages lists and returns blocks of the kind. -/
theorem ListsOnly.alloc (hB : Halving B) (h : ListsOnly pid B s) (order : ℕ) :
    ListsOnly pid B (s.allocPages pid order).2 ∧
      ∀ p, (s.allocPages pid order).1 = some p → order < maxPageOrder ∧ B ⟨p, order⟩ := by
  rcases s.allocPages_cases pid order with ⟨ho, j, p, hsearch, heq⟩ | ⟨_, heq⟩
  · obtain ⟨hle, hmem, _, _⟩ := allocSearch_eq_some hsearch
    have hp := h _ hmem
    rw [heq]
    refine ⟨(h.listDel p).putHalves hB hp (mem_freeBlocks.mp hmem).1.le hle, fun r hr => ?_⟩
    obtain rfl := Option.some.inj hr
    exact ⟨ho, hB.low_of_le hp hle⟩
  · rw [heq]
    exact ⟨h, fun p hp => absurd hp.symm (Option.some_ne_none p)⟩

/-! ### AddPages -/

namespace PoolState

/-- The state in which AddPages calls FreePages. -/
def withPool (s : PoolState) (pid p : ℕ) : PoolState :=
  s.setPage p { s.pgdb p with pool := some pid }

/-- Every round of the loop in AddPages does what the first one does. -/
theorem addPages_eq (s : PoolState) (pid p order : ℕ) :
    s.addPages pid p order = (s.withPool pid p).freePages pid (some p) order := by
  have hloop : ∀ n, (List.range (n + 1)).foldl
      (fun s _ => s.setPage p { s.pgdb p with pool := some pid }) s = s.withPool pid p := by
    intro n
    induction n with
    | zero => rfl
    | succ n ih =>
      rw [List.range_succ, List.foldl_append, ih, List.foldl_cons, List.foldl_nil]
      simp only [withPool, setPage, Function.update_self, Function.update_idem]
  obtain ⟨n, hn⟩ : ∃ n, 1 <<< order = n + 1 := by
    rw [Nat.shiftLeft_eq, Nat.one_mul]
    exact Nat.exists_eq_add_one.mpr (Nat.two_pow_pos order)
  rw [addPages, hn, hloop]

/-- A field other than pool is as before. -/
theorem withPool_field {α : Type} (f : Page → α)
    (hf : ∀ pg : Page, f { pg with pool := some pid } = f pg) (s : PoolState) (p q : ℕ) :
    f ((s.withPool pid p).pgdb q) = f (s.pgdb q) := by
  simp only [withPool, setPage, Function.update_apply]
  split
  · next heq => rw [hf, heq]
  · rfl

end PoolState

/-! ### Lists on which no page comes twice -/

/-- A page is on one list at most, and there once. -/
structure ListedOnce (pid : ℕ) (s : PoolState) : Prop where
  nodup : ∀ k < maxPageOrder, (s.freelist pid k).Nodup
  unique : ∀ i j q, i < maxPageOrder → j < maxPageOrder → q ∈ s.freelist pid i →
    q ∈ s.freelist pid j → i = j

/-- The page is on no list. -/
def Unlisted (pid : ℕ) (s : PoolState) (p : ℕ) : Prop := ∀ k < maxPageOrder, p ∉ s.freelist pid k

theorem ListedOnce.listDel (h : ListedOnce pid s) (p : ℕ) :
    ListedOnce pid (s.listDel p) ∧ Unlisted pid (s.listDel p) p where
  left := ⟨fun k hk => (h.nodup k hk).erase p, fun i j q hi hj hqi hqj =>
    h.unique i j q hi hj (List.mem_of_mem_erase hqi) (List.mem_of_mem_erase hqj)⟩
  right k hk := (h.nodup k hk).not_mem_erase

theorem Unlisted.listDel (h : Unlisted pid s p) (q : ℕ) : Unlisted pid (s.listDel q) p :=
  fun k hk hmem => h k hk (List.mem_of_mem_erase hmem)

theorem ListedOnce.add (h : ListedOnce pid s) (hp : Unlisted pid s p) (k : ℕ) :
    ListedOnce pid (s.listAddNext pid k p) := by
  have hmem : ∀ i q, q ∈ (s.listAddNext pid k p).freelist pid i →
      (q = p ∧ i = k) ∨ q ∈ s.freelist pid i := by
    intro i q hq
    rw [listAddNext_self, Function.update_apply] at hq
    split at hq
    · next hik =>
      subst hik
      rcases List.mem_cons.mp hq with rfl | hq
      · exact Or.inl ⟨rfl, rfl⟩
      · exact Or.inr hq
    · exact Or.inr hq
  constructor
  · intro i hi
    rw [listAddNext_self, Function.update_apply]
    split
    · next hik =>
      subst hik
      exact List.nodup_cons.mpr ⟨hp i hi, h.nodup i hi⟩
    · exact h.nodup i hi
  · intro i j q hi hj hqi hqj
    rcases hmem i q hqi with ⟨rfl, rfl⟩ | hqi'
    · rcases hmem j q hqj with ⟨_, rfl⟩ | hqj'
      · rfl
      · exact absurd hqj' (hp j hj)
    · rcases hmem j q hqj with ⟨rfl, _⟩ | hqj'
      · exact absurd hqi' (hp i hi)
      · exact h.unique i j q hi hj hqi' hqj'

end Listed

end ClosureOS
