import ClosureOS.PoolPartition

/-!
Which entries of the page database __free_pages touches. The merge loop reads the entry
of the buddy before it knows anything about it. An entry outside the list is neither
written nor read, and the list nodes in it keep their neighbours.
-/
namespace ClosureOS

open DyadicBlocks PoolState

/-- The entries before and after q on a list; they are written when q is unlinked. -/
def listNeighbours (l : List ℕ) (q : ℕ) : List ℕ :=
  if q ∈ l then (l.takeWhile (· ≠ q)).getLast?.toList ++ (l.dropWhile (· ≠ q)).tail.head?.toList
  else []

namespace PoolState

def delAccess (s : PoolState) (pid q : ℕ) : List ℕ :=
  q :: (List.range maxPageOrder).flatMap fun k => listNeighbours (s.freelist pid k) q

/-- The entries touched by the merge loop. -/
def combineAccess (pid : ℕ) : ℕ → ℕ → ℕ → PoolState → List ℕ
  | 0, _, _, _ => []
  | n + 1, p, order, s =>
    let buddy := getPageBuddy p order
    if s.CanCombine buddy then
      buddy :: s.delAccess pid buddy ++ (if buddy < p then [p] else []) ++
        combineAccess pid n (s.combineStep p buddy).1 (order + 1) (s.combineStep p buddy).2
    else [buddy]

/-- The entries touched by __free_pages: those of the merge loop, the block that is
initialised, and the first entry of the list the block is put on. -/
def freeAccess (s : PoolState) (pid p order : ℕ) : List ℕ :=
  if order ≥ maxPageOrder then []
  else
    let r := combinePages (maxPageOrder - 1 - order) p order s
    combineAccess pid (maxPageOrder - 1 - order) p order s ++ List.range' r.1 (2 ^ r.2.1) ++
      (r.2.2.freelist pid r.2.1).head?.toList

end PoolState

/-- Two states with the same lists and the same entries in l. -/
structure AgreeOn (l : List ℕ) (s t : PoolState) : Prop where
  entries : ∀ q ∈ l, s.pgdb q = t.pgdb q
  lists : s.freelist = t.freelist

section Neighbours

variable {l a b : List ℕ} {p q x : ℕ}

theorem mem_of_mem_listNeighbours (h : x ∈ listNeighbours l q) : x ∈ l := by
  unfold listNeighbours at h
  split at h
  · rcases List.mem_append.mp h with h | h
    · exact (List.takeWhile_sublist _).subset (List.mem_of_getLast? (Option.mem_toList.mp h))
    · exact (List.dropWhile_sublist _).subset
        (List.mem_of_mem_tail (List.mem_of_mem_head? (Option.mem_toList.mp h)))
  · exact absurd h List.not_mem_nil

theorem listNeighbours_of_not_mem (h : q ∉ l) : listNeighbours l q = [] := if_neg h

theorem listNeighbours_split (h : q ∉ a) :
    listNeighbours (a ++ q :: b) q = a.getLast?.toList ++ b.head?.toList := by
  have hne : ∀ x ∈ a, decide (x ≠ q) = true := by
    intro x hx
    rw [decide_eq_true_eq]
    rintro rfl
    exact h hx
  rw [listNeighbours, if_pos (by simp), List.takeWhile_append_of_pos hne,
    List.dropWhile_append_of_pos hne]
  simp

/-- Pushing p changes the links of the old first entry only. -/
theorem listNeighbours_cons (hp : q ≠ p) (hfirst : q ∉ l.head?.toList) :
    listNeighbours (p :: l) q = listNeighbours l q := by
  by_cases hq : q ∈ l
  · obtain ⟨a, b, rfl, ha⟩ := List.eq_append_cons_of_mem hq
    cases a with
    | nil => simp at hfirst
    | cons y a =>
      have hcons : q ∉ p :: y :: a := by
        rw [List.mem_cons]
        exact not_or.mpr ⟨hp, ha⟩
      rw [listNeighbours_split ha, ← List.cons_append, listNeighbours_split hcons,
        List.getLast?_cons_cons]
  · rw [listNeighbours_of_not_mem hq, listNeighbours_of_not_mem]
    rw [List.mem_cons]
    exact not_or.mpr ⟨hp, hq⟩

/-- Unlinking x changes the links of its neighbours only. -/
theorem listNeighbours_erase (hx : q ≠ x) (hq : q ∉ listNeighbours l x) :
    listNeighbours (l.erase x) q = listNeighbours l q := by
  by_cases hmem : x ∈ l
  · obtain ⟨a, b, rfl, ha⟩ := List.eq_append_cons_of_mem hmem
    rw [listNeighbours_split ha, List.mem_append, not_or] at hq
    rw [List.erase_append_right _ ha, List.erase_cons_head]
    by_cases hqa : q ∈ a
    · obtain ⟨c, d, rfl, hc⟩ := List.eq_append_cons_of_mem hqa
      rw [List.append_assoc, List.append_assoc, List.cons_append, List.cons_append,
        listNeighbours_split hc, listNeighbours_split hc]
      cases d with
      | nil => simp at hq
      | cons y d => rfl
    · by_cases hqb : q ∈ b
      · obtain ⟨c, d, rfl, hc⟩ := List.eq_append_cons_of_mem hqb
        have hleft : q ∉ a ++ c := by
          rw [List.mem_append]
          exact not_or.mpr ⟨hqa, hc⟩
        have hright : q ∉ a ++ x :: c := by
          rw [List.mem_append, List.mem_cons]
          exact not_or.mpr ⟨hqa, not_or.mpr ⟨hx, hc⟩⟩
        rw [← List.append_assoc, listNeighbours_split hleft, ← List.cons_append,
          ← List.append_assoc, listNeighbours_split hright]
        cases c with
        | nil => simp at hq
        | cons y c => simp
      · rw [listNeighbours_of_not_mem, listNeighbours_of_not_mem]
        · simp [hqa, hqb, hx]
        · simp [hqa, hqb]
  · rw [List.erase_of_not_mem hmem]

end Neighbours

section Frame

variable {pid n p k q order : ℕ} {s t : PoolState}

/-- The links of an entry in a list of the pool. -/
def SameLinks (pid : ℕ) (s t : PoolState) (q : ℕ) : Prop :=
  ∀ k < maxPageOrder, listNeighbours (t.freelist pid k) q = listNeighbours (s.freelist pid k) q

theorem sameLinks_listDel (hq : q ∉ s.delAccess pid p) : SameLinks pid s (s.listDel p) q := by
  intro k hk
  rw [delAccess, List.mem_cons, not_or] at hq
  refine listNeighbours_erase hq.1 fun hmem => hq.2 ?_
  exact List.mem_flatMap.mpr ⟨k, List.mem_range.mpr hk, hmem⟩

/-- The merge loop leaves the other entries and their links as they are. -/
theorem combinePages_frame (hq : q ∉ combineAccess pid n p k s) :
    (combinePages n p k s).2.2.pgdb q = s.pgdb q ∧
      SameLinks pid s (combinePages n p k s).2.2 q := by
  induction n generalizing p k s with
  | zero => exact ⟨rfl, fun _ _ => rfl⟩
  | succ n ih =>
    unfold combineAccess at hq
    unfold combinePages
    by_cases hc : s.CanCombine (getPageBuddy p k)
    · simp only [if_pos hc, List.mem_append, List.mem_cons, not_or] at hq
      obtain ⟨⟨⟨hbuddy, hdel⟩, hp⟩, hrest⟩ := hq
      obtain ⟨hentry, hlinks⟩ := ih hrest
      simp only [if_pos hc]
      refine ⟨hentry.trans ?_, fun i hi => (hlinks i hi).trans ?_⟩
      · unfold combineStep
        split
        · next hlt =>
          rw [if_pos hlt, List.mem_singleton] at hp
          exact Function.update_of_ne hp _ _
        · rfl
      · rw [combineStep_freelist]
        exact sameLinks_listDel hdel i hi
    · simp only [if_neg hc]
      exact ⟨trivial, fun _ _ => rfl⟩

/-- FreePages leaves the entries outside its list, and their links, as they are. -/
theorem freePages_frame (hq : q ∉ s.freeAccess pid p order) :
    (s.freePages pid (some p) order).pgdb q = s.pgdb q ∧
      SameLinks pid s (s.freePages pid (some p) order) q := by
  by_cases ho : order ≥ maxPageOrder
  · simp only [freePages, if_pos ho]
    exact ⟨trivial, fun _ _ => rfl⟩
  · rw [freeAccess, if_neg ho] at hq
    simp only [List.mem_append, not_or, List.mem_range'_1] at hq
    obtain ⟨⟨hcombine, hblock⟩, hfirst⟩ := hq
    obtain ⟨hentry, hlinks⟩ := combinePages_frame hcombine
    simp only [freePages, if_neg ho]
    generalize combinePages (maxPageOrder - 1 - order) p order s = r at hblock hfirst hentry hlinks
    have hnot : q ∉ (⟨r.1, r.2.1⟩ : Block) := hblock
    refine ⟨(reinit_pgdb_of_not_mem hnot).trans hentry, fun i hi => Eq.trans ?_ (hlinks i hi)⟩
    rw [listAddNext_self, Function.update_apply]
    split
    · next hik =>
      subst hik
      refine listNeighbours_cons ?_ hfirst
      rintro rfl
      exact hnot (Block.start_mem _)
    · rfl

/-! ### What the call depends on -/

theorem AgreeOn.canCombine {l : List ℕ} (h : AgreeOn l s t) (hq : q ∈ l) :
    t.CanCombine q ↔ s.CanCombine q := by
  unfold CanCombine
  rw [h.entries q hq]

theorem AgreeOn.delAccess {l : List ℕ} (h : AgreeOn l s t) (pid q : ℕ) :
    t.delAccess pid q = s.delAccess pid q := by
  rw [PoolState.delAccess, PoolState.delAccess, h.lists]

theorem AgreeOn.setPage {l : List ℕ} (h : AgreeOn l s t) (p : ℕ) (pg : Page) :
    AgreeOn l (s.setPage p pg) (t.setPage p pg) := by
  refine ⟨fun q hq => ?_, h.lists⟩
  simp only [PoolState.setPage, Function.update_apply, h.entries q hq]

theorem AgreeOn.listDel {l : List ℕ} (h : AgreeOn l s t) (p : ℕ) :
    AgreeOn l (s.listDel p) (t.listDel p) := by
  refine ⟨h.entries, ?_⟩
  rw [PoolState.listDel, PoolState.listDel, h.lists]

/-- A round of the loop depends on the current entry and takes it along. -/
theorem AgreeOn.combineStep {l : List ℕ} {buddy : ℕ} (h : AgreeOn l s t)
    (hp : buddy < p → p ∈ l) :
    (t.combineStep p buddy).1 = (s.combineStep p buddy).1 ∧
      AgreeOn l (s.combineStep p buddy).2 (t.combineStep p buddy).2 := by
  have hdel := h.listDel buddy
  unfold PoolState.combineStep
  by_cases hlt : buddy < p
  · have hentry := hdel.entries p (hp hlt)
    simp only [if_pos hlt, hentry]
    exact ⟨trivial, hdel.setPage p _⟩
  · simp only [if_neg hlt]
    exact ⟨trivial, hdel⟩

/-- The merge loop does the same on states that agree on its list, and on more entries. -/
theorem AgreeOn.combinePages {l : List ℕ} (h : AgreeOn l s t)
    (hl : ∀ q ∈ combineAccess pid n p k s, q ∈ l) :
    combineAccess pid n p k t = combineAccess pid n p k s ∧
      (combinePages n p k t).1 = (combinePages n p k s).1 ∧
      (combinePages n p k t).2.1 = (combinePages n p k s).2.1 ∧
      AgreeOn l (combinePages n p k s).2.2 (combinePages n p k t).2.2 := by
  induction n generalizing p k s t with
  | zero => exact ⟨rfl, rfl, rfl, h⟩
  | succ n ih =>
    have hbuddy : getPageBuddy p k ∈ l := by
      apply hl
      unfold combineAccess
      dsimp only
      split <;> simp
    have hiff := h.canCombine hbuddy
    unfold combineAccess at hl ⊢
    unfold PoolState.combinePages
    by_cases hc : s.CanCombine (getPageBuddy p k)
    · have hct := hiff.mpr hc
      simp only [if_pos hc, List.mem_append, List.mem_cons] at hl
      obtain ⟨hstep, hnext⟩ := h.combineStep fun hlt : getPageBuddy p k < p =>
        hl p (Or.inl (Or.inr (by rw [if_pos hlt]; exact List.mem_singleton_self p)))
      simp only [if_pos hc, if_pos hct, h.delAccess, hstep]
      obtain ⟨haccess, hstart, horder, hagree⟩ := ih hnext fun q hq => hl q (Or.inr hq)
      exact ⟨by rw [haccess], hstart, horder, hagree⟩
    · have hct : ¬ t.CanCombine (getPageBuddy p k) := fun hct => hc (hiff.mp hct)
      simp only [if_neg hc, if_neg hct]
      exact ⟨trivial, trivial, trivial, h⟩

/-- FreePages does the same on two states that agree on the list of the one. -/
theorem freePages_congr {l : List ℕ} (h : AgreeOn l s t)
    (hl : ∀ q ∈ s.freeAccess pid p order, q ∈ l) :
    t.freeAccess pid p order = s.freeAccess pid p order ∧
      AgreeOn l (s.freePages pid (some p) order) (t.freePages pid (some p) order) := by
  by_cases ho : order ≥ maxPageOrder
  · simp only [freeAccess, freePages, if_pos ho]
    exact ⟨trivial, h⟩
  · simp only [freeAccess, if_neg ho] at hl
    obtain ⟨haccess, hstart, horder, hagree⟩ := h.combinePages fun q hq =>
      hl q (List.mem_append_left _ (List.mem_append_left _ hq))
    constructor
    · simp only [freeAccess, if_neg ho, haccess, hstart, horder, hagree.lists]
    · simp only [freePages, if_neg ho, hstart, horder]
      refine ⟨fun q hq => ?_, ?_⟩
      · rw [listAddNext_pgdb, listAddNext_pgdb]
        generalize (PoolState.combinePages (maxPageOrder - 1 - order) p order s).1 = start
        generalize (PoolState.combinePages (maxPageOrder - 1 - order) p order s).2.1 = k
        by_cases hmem : q ∈ (⟨start, k⟩ : Block)
        · rw [reinit_pgdb_of_mem hmem, reinit_pgdb_of_mem hmem, hagree.entries q hq]
        · rw [reinit_pgdb_of_not_mem hmem, reinit_pgdb_of_not_mem hmem, hagree.entries q hq]
      · simp only [listAddNext, PoolState.reinit, hagree.lists]

/-- The entries listed for __free_pages are those that it writes and reads: the others keep
their contents and their links, and on a state with the same listed entries it does the same. -/
structure FreePagesFootprint (pid : ℕ) (s : PoolState) (p order : ℕ) : Prop where
  frame : ∀ q ∉ s.freeAccess pid p order,
    (s.freePages pid (some p) order).pgdb q = s.pgdb q ∧
      SameLinks pid s (s.freePages pid (some p) order) q
  congr : ∀ t, AgreeOn (s.freeAccess pid p order) s t →
    t.freeAccess pid p order = s.freeAccess pid p order ∧
      AgreeOn (s.freeAccess pid p order) (s.freePages pid (some p) order)
        (t.freePages pid (some p) order)

theorem freePagesFootprint (pid : ℕ) (s : PoolState) (p order : ℕ) :
    FreePagesFootprint pid s p order where
  frame _ hq := freePages_frame hq
  congr _ hag := freePages_congr hag fun _ hq => hq

end Frame

end ClosureOS
