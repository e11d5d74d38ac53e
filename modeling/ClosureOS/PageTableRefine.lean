import ClosureOS.PageTableMap
import Mathlib.Data.List.Induction
import Mathlib.Logic.Relation

/-!
The page table as a map from index paths to entries. The tables form a tree: T gives the
frame of the table at each path of at most three indices, and M the entries below them.
Every table has a frame of its own, an upper entry is empty or names the frame of the
next table, and a new frame is cleared before it is linked. A call of the mapping
function changes M at one path, or only adds empty tables.
-/
namespace ClosureOS

open ByteMemory

/-- Memory holds the tree of tables T with the lowest entries M. -/
structure TableRep (m : Memory) (root : Word) (frames : List Word) (T : List ℕ → Option Word)
    (M : List ℕ → Word) : Prop where
  top : T [] = some root
  valid : ∀ p t, T p = some t → p.length ≤ 3 ∧ ∀ i ∈ p, i < 512
  closed : ∀ p i, T p = none → T (p ++ [i]) = none
  frame : ∀ p t, T p = some t → PageAligned t ∧ (t = root ∨ t ∈ frames)
  inj : ∀ p q t, T p = some t → T q = some t → p = q
  upper : ∀ p t i, T p = some t → p.length < 3 → i < 512 →
    load64 m (entryAddr t i) = ((T (p ++ [i])).map (· ||| pdeDefault)).getD 0#64
  leaf : ∀ p t i, T p = some t → p.length = 3 → i < 512 →
    load64 m (entryAddr t i) = M (p ++ [i])
  absent : ∀ p i, p.length = 3 → T p = none → M (p ++ [i]) = 0#64

section Rep

variable {m m' : Memory} {root t u v f x : Word} {frames frames' : List Word}
  {T : List ℕ → Option Word} {M : List ℕ → Word} {p q : List ℕ} {i j : ℕ}

theorem load64_memset_frame (hu : PageAligned u) (hf : PageAligned f) (hne : u ≠ f) (hj : j < 512)
    (m : Memory) : load64 (memset m f 0#8 4096) (entryAddr u j) = load64 m (entryAddr u j) := by
  refine load64_congr fun y hy => memset_of_not_inRange (by decide) fun hyf => ?_
  exact frames_apart hu hf hne (hu.entry_inFrame hj hy) hyf

/-- Entries at different places of the tree do not overlap. -/
theorem TableRep.load64_store64 (hrep : TableRep m root frames T M) (m' : Memory)
    (hp : T p = some t) (hq : T q = some u) (hi : i < 512) (hj : j < 512)
    (hne : p ++ [i] ≠ q ++ [j]) (v : Word) :
    load64 (store64 m' (entryAddr t i) v) (entryAddr u j) = load64 m' (entryAddr u j) := by
  refine load64_store64_of_apart fun x hx => ?_
  refine entries_apart (hrep.frame q u hq).1 (hrep.frame p t hp).1 hj hi ?_ hx
  by_cases hut : u = t
  · subst hut
    have hpq := hrep.inj p q u hp hq
    refine Or.inr fun hji => hne ?_
    rw [hpq, hji]
  · exact Or.inl hut

/-- Frames of tables are the root or on record, so a new frame is none of them. -/
theorem TableRep.ne_fresh (hrep : TableRep m root frames T M) (hroot : f ≠ root)
    (hfresh : f ∉ frames) (hq : T q = some u) : u ≠ f := by
  rintro rfl
  exact (hrep.frame q u hq).2.elim hroot hfresh

theorem TableRep.frame_mono (hrep : TableRep m root frames T M)
    (hframes : ∀ g ∈ frames, g ∈ frames') (hq : T q = some u) :
    PageAligned u ∧ (u = root ∨ u ∈ frames') :=
  ⟨(hrep.frame q u hq).1, (hrep.frame q u hq).2.imp_right (hframes u)⟩

theorem TableRep.tableAt_eq (hrep : TableRep m root frames T M) (hlen : p.length ≤ 3)
    (hp : ∀ i ∈ p, i < 512) : tableAt m root p = T p := by
  induction p using List.reverseRecOn with
  | nil => exact hrep.top.symm
  | append_singleton p i ih =>
    rw [List.length_append, List.length_singleton] at hlen
    have hi : i < 512 := hp i (by simp)
    have hpre := ih (by omega) fun j hj => hp j (List.mem_append_left _ hj)
    rw [tableAt, List.foldlM_append]
    show (tableAt m root p).bind _ = _
    rw [hpre]
    cases hT : T p with
    | none => exact (hrep.closed p i hT).symm
    | some t =>
      have hentry := hrep.upper p t i hT (by omega) hi
      simp only [Option.bind_some, List.foldlM_cons, List.foldlM_nil, descend, hentry]
      cases hnext : T (p ++ [i]) with
      | none => rfl
      | some f =>
        obtain ⟨_, hpresent, hmask⟩ := tableEntry (hrep.frame _ f hnext).1
        simp [hpresent, hmask]

theorem TableRep.walk_eq (hrep : TableRep m root frames T M) (va : Word) :
    walk m root va = if present (M (pathOf va)) then some (M (pathOf va)) else none := by
  obtain ⟨hpgd, hpud, hpmd, hpte⟩ := entry_lt va
  have htable := hrep.tableAt_eq (p := [pgdEntry va, pudEntry va, pmdEntry va]) (by simp)
    (by simp [hpgd, hpud, hpmd])
  have hpath : pathOf va = [pgdEntry va, pudEntry va, pmdEntry va] ++ [pteEntry va] := rfl
  rw [walk, htable, hpath]
  cases hT : T [pgdEntry va, pudEntry va, pmdEntry va] with
  | none =>
    rw [hrep.absent _ _ rfl hT]
    rfl
  | some t => simp only [Option.bind_some, hrep.leaf _ t _ hT rfl hpte]

/-- Other memory, and frames handed out for other purposes, do not matter. -/
theorem TableRep.congr (hrep : TableRep m root frames T M) (hframes : ∀ f ∈ frames, f ∈ frames')
    (hmem : ∀ p t, T p = some t → ∀ x, InRange t 4096 x → m' x = m x) :
    TableRep m' root frames' T M := by
  have hload : ∀ p t i, T p = some t → i < 512 →
      load64 m' (entryAddr t i) = load64 m (entryAddr t i) := fun p t i hp hi =>
    load64_congr fun x hx => hmem p t hp x ((hrep.frame p t hp).1.entry_inFrame hi hx)
  refine ⟨hrep.top, hrep.valid, hrep.closed, ?_, hrep.inj, ?_, ?_, hrep.absent⟩
  · exact fun p t hp => hrep.frame_mono hframes hp
  · intro p t i hp hlen hi
    rw [hload p t i hp hi]
    exact hrep.upper p t i hp hlen hi
  · intro p t i hp hlen hi
    rw [hload p t i hp hi]
    exact hrep.leaf p t i hp hlen hi

/-- Entries at one place of the tree are one entry. -/
theorem entry_eq (hp : T p = some t) (hq : T q = some u) (h : p ++ [i] = q ++ [j]) :
    p = q ∧ i = j ∧ t = u := by
  obtain ⟨rfl, hij⟩ := List.append_inj' h rfl
  exact ⟨rfl, List.singleton_inj.mp hij, Option.some.inj (hp.symm.trans hq)⟩

theorem entry_ne_of_length (h : p.length ≠ q.length) : p ++ [i] ≠ q ++ [j] := by
  intro heq
  obtain ⟨rfl, _⟩ := List.append_inj' heq rfl
  exact h rfl

theorem entry_ne_of_none (hp : T p = some t) (hq : T q = none) : q ++ [j] ≠ p ++ [i] := by
  intro heq
  obtain ⟨rfl, _⟩ := List.append_inj' heq rfl
  rw [hp] at hq
  exact absurd hq (by simp)

/-- The tables of a tree that got a new one at r. -/
theorem linked_cases {r : List ℕ} (h : Function.update T r (some f) q = some u) :
    (q = r ∧ u = f) ∨ T q = some u := by
  rw [Function.update_apply] at h
  split at h
  · next heq => exact Or.inl ⟨heq, (Option.some.inj h).symm⟩
  · exact Or.inr h

/-- Writing an empty upper entry again. -/
theorem TableRep.clear (hrep : TableRep m root frames T M) (hp : T p = some t) (hlen : p.length < 3)
    (hi : i < 512) (hnone : T (p ++ [i]) = none) (hframes : ∀ f ∈ frames, f ∈ frames') :
    TableRep (store64 (store64 m (entryAddr t i) x) (entryAddr t i) 0#64) root frames' T M := by
  refine ⟨hrep.top, hrep.valid, hrep.closed, ?_, hrep.inj, ?_, ?_, hrep.absent⟩
  · exact fun p t hp => hrep.frame_mono hframes hp
  · intro q u j hq hqlen hj
    by_cases hne : p ++ [i] = q ++ [j]
    · obtain ⟨rfl, rfl, rfl⟩ := entry_eq hp hq hne
      rw [load64_store64_same, hnone]
      rfl
    · rw [hrep.load64_store64 _ hp hq hi hj hne, hrep.load64_store64 _ hp hq hi hj hne]
      exact hrep.upper q u j hq hqlen hj
  · intro q u j hq hqlen hj
    have hne : p ++ [i] ≠ q ++ [j] := entry_ne_of_length (by omega)
    rw [hrep.load64_store64 _ hp hq hi hj hne, hrep.load64_store64 _ hp hq hi hj hne]
    exact hrep.leaf q u j hq hqlen hj

/-- Linking a cleared frame below an empty upper entry. -/
theorem TableRep.link (hrep : TableRep m root frames T M) (hp : T p = some t) (hlen : p.length < 3)
    (hi : i < 512) (hnone : T (p ++ [i]) = none) (hf : PageAligned f) (hroot : f ≠ root)
    (hfresh : f ∉ frames) (hframes : ∀ g ∈ frames, g ∈ frames') (hmem : f ∈ frames')
    (hzero : ∀ x, InRange f 4096 x → m' x = 0#8)
    (hkeep : ∀ q u j, T q = some u → j < 512 → p ++ [i] ≠ q ++ [j] →
      load64 m' (entryAddr u j) = load64 m (entryAddr u j)) :
    TableRep (store64 m' (entryAddr t i) (f ||| pdeDefault)) root frames'
      (Function.update T (p ++ [i]) (some f)) M := by
  have hnew : ∀ q u, T q = some u → u ≠ f := fun q u => hrep.ne_fresh hroot hfresh
  -- the entries of the new table are empty
  have hempty : ∀ j, j < 512 →
      load64 (store64 m' (entryAddr t i) (f ||| pdeDefault)) (entryAddr f j) = 0#64 := by
    intro j hj
    rw [load64_store64_of_apart fun x hx =>
      entries_apart hf (hrep.frame p t hp).1 hj hi (Or.inl (Ne.symm (hnew p t hp))) hx]
    exact load64_zero fun x hx => hzero x (hf.entry_inFrame hj hx)
  refine ⟨?_, ?_, ?_, ?_, ?_, ?_, ?_, ?_⟩
  · rw [Function.update_of_ne (by simp)]
    exact hrep.top
  · intro q u hq
    rcases linked_cases hq with ⟨rfl, rfl⟩ | hq
    · obtain ⟨hplen, hpval⟩ := hrep.valid p t hp
      refine ⟨by simp; omega, fun k hk => ?_⟩
      rcases List.mem_append.mp hk with hk | hk
      · exact hpval k hk
      · rwa [List.mem_singleton.mp hk]
    · exact hrep.valid q u hq
  · intro q j hq
    rw [Function.update_apply] at hq ⊢
    split at hq
    · exact absurd hq (by simp)
    · rw [if_neg (entry_ne_of_none hp hq)]
      exact hrep.closed q j hq
  · intro q u hq
    rcases linked_cases hq with ⟨rfl, rfl⟩ | hq
    · exact ⟨hf, Or.inr hmem⟩
    · exact hrep.frame_mono hframes hq
  · intro q r u hq hr
    rcases linked_cases hq with ⟨rfl, rfl⟩ | hq <;> rcases linked_cases hr with ⟨rfl, hu⟩ | hr
    · rfl
    · exact absurd rfl (hnew r u hr)
    · exact absurd hu (hnew q u hq)
    · exact hrep.inj q r u hq hr
  · intro q u j hq hqlen hj
    rcases linked_cases hq with ⟨rfl, rfl⟩ | hq
    · have hne : p ++ [i] ++ [j] ≠ p ++ [i] := fun h => by simpa using congrArg List.length h
      rw [hempty j hj, Function.update_of_ne hne, hrep.closed _ j hnone]
      rfl
    · by_cases hne : p ++ [i] = q ++ [j]
      · obtain ⟨rfl, rfl, rfl⟩ := entry_eq hp hq hne
        rw [load64_store64_same, Function.update_self]
        rfl
      · rw [hrep.load64_store64 _ hp hq hi hj hne, hkeep q u j hq hj hne,
          Function.update_of_ne (Ne.symm hne)]
        exact hrep.upper q u j hq hqlen hj
  · intro q u j hq hqlen hj
    rcases linked_cases hq with ⟨rfl, rfl⟩ | hq
    · rw [hempty j hj, hrep.absent _ j hqlen hnone]
    · have hne : p ++ [i] ≠ q ++ [j] := entry_ne_of_length (by omega)
      rw [hrep.load64_store64 _ hp hq hi hj hne, hkeep q u j hq hj hne]
      exact hrep.leaf q u j hq hqlen hj
  · intro q j hqlen hq
    rw [Function.update_apply] at hq
    split at hq
    · exact absurd hq (by simp)
    · exact hrep.absent q j hqlen hq

theorem TableRep.setLeaf (hrep : TableRep m root frames T M) (hp : T p = some t)
    (hlen : p.length = 3)
    (hi : i < 512) (v : Word) :
    TableRep (store64 m (entryAddr t i) v) root frames T (Function.update M (p ++ [i]) v) := by
  refine ⟨hrep.top, hrep.valid, hrep.closed, hrep.frame, hrep.inj, ?_, ?_, ?_⟩
  · intro q u j hq hqlen hj
    have hne : p ++ [i] ≠ q ++ [j] := entry_ne_of_length (by omega)
    rw [hrep.load64_store64 _ hp hq hi hj hne]
    exact hrep.upper q u j hq hqlen hj
  · intro q u j hq hqlen hj
    by_cases hne : p ++ [i] = q ++ [j]
    · obtain ⟨rfl, rfl, rfl⟩ := entry_eq hp hq hne
      rw [load64_store64_same, Function.update_self]
    · rw [hrep.load64_store64 _ hp hq hi hj hne, Function.update_of_ne (Ne.symm hne)]
      exact hrep.leaf q u j hq hqlen hj
  · intro q j hqlen hq
    rw [Function.update_of_ne (entry_ne_of_none hp hq)]
    exact hrep.absent q j hqlen hq

end Rep

/-! ### The allocator -/

section Alloc

variable {σ : Type} {alloc : σ → Option (Word × σ)} {used : σ → List Word}
  {root t va pa attr : Word}
  {s s' : σ} {m m' : Memory} {T : List ℕ → Option Word} {M : List ℕ → Word} {p : List ℕ} {i n : ℕ}

/-- The allocator always returns. It answers -ENOMEM or a page-aligned frame that is not
the root and that it has not answered before; used keeps its answers. -/
structure FreshAlloc (alloc : σ → Option (Word × σ)) (used : σ → List Word) (root : Word) :
    Prop where
  returns : ∀ s, ∃ x s', alloc s = some (x, s')
  answer : ∀ s x s', alloc s = some (x, s') → (∀ f ∈ used s, f ∈ used s') ∧
    (x = errPtr enomem ∨ PageAligned x ∧ x ≠ root ∧ x ∉ used s ∧ x ∈ used s')

/-- In the states with P the allocator answers -ENOMEM or a new page-aligned frame that
is not the root. When total holds it also returns in each of them. -/
def FreshIn (total : Prop) (P : σ → Prop) (alloc : σ → Option (Word × σ)) (used : σ → List Word)
    (root : Word) : Prop :=
  ∀ s, P s → (¬ total ∧ alloc s = none) ∨
    ∃ x s', alloc s = some (x, s') ∧ P s' ∧ (∀ f ∈ used s, f ∈ used s') ∧
      (x = errPtr enomem ∨ PageAligned x ∧ x ≠ root ∧ x ∉ used s ∧ x ∈ used s')

theorem FreshAlloc.freshIn (h : FreshAlloc alloc used root) :
    FreshIn True (fun _ => True) alloc used root := by
  intro s _
  obtain ⟨x, s', halloc⟩ := h.returns s
  exact Or.inr ⟨x, s', halloc, trivial, h.answer s x s' halloc⟩

section Call

variable {total : Prop} {P : σ → Prop}

/-- What the code at one upper level does. -/
theorem TableRep.ensureTable (hfresh : FreshIn total P alloc used root) (hs : P s)
    (hrep : TableRep m root (used s) T M) (hp : T p = some t) (hlen : p.length < 3)
    (hi : i < 512) :
    (¬ total ∧ ensureTable alloc (entryAddr t i) s m = none) ∨
    ∃ ok s' m', ensureTable alloc (entryAddr t i) s m = some (ok, s', m') ∧ P s' ∧
      (∀ f ∈ used s, f ∈ used s') ∧
      (ok = false → TableRep m' root (used s') T M) ∧
      (ok = true → ∃ T' f, TableRep m' root (used s') T' M ∧ T' (p ++ [i]) = some f ∧
        load64 m' (entryAddr t i) &&& pageMask = f) := by
  have hentry := hrep.upper p t i hp hlen hi
  unfold ClosureOS.ensureTable
  cases hnext : T (p ++ [i]) with
  | some f =>
    -- the entry is there already
    obtain ⟨hne, _, hmask⟩ := tableEntry (hrep.frame _ f hnext).1
    have hload : load64 m (entryAddr t i) = f ||| pdeDefault := by rw [hentry, hnext]; rfl
    rw [hload, if_neg hne]
    exact Or.inr ⟨true, s, m, rfl, hs, fun _ hf => hf, by simp,
      fun _ => ⟨T, f, hrep, hnext, by rw [hload, hmask]⟩⟩
  | none =>
    have hload : load64 m (entryAddr t i) = 0#64 := by rw [hentry, hnext]; rfl
    rw [if_pos hload]
    rcases hfresh s hs with ⟨htotal, hnone⟩ | ⟨x, s', halloc, hs', hmono, hanswer⟩
    · exact Or.inl ⟨htotal, by rw [hnone]⟩
    apply Or.inr
    simp only [halloc, load64_store64_same]
    rcases hanswer with rfl | ⟨halign, hxroot, hxfresh, hxused⟩
    · -- no memory: the entry is cleared again
      rw [if_pos isErrPtr_enomem]
      exact ⟨false, s', _, rfl, hs', hmono, fun _ => hrep.clear hp hlen hi hnext hmono, by simp⟩
    · rw [if_neg (not_isErrPtr halign)]
      have hold : ∀ q u j, T q = some u → j < 512 → ∀ m' : Memory,
          load64 (memset m' x 0#8 4096) (entryAddr u j) = load64 m' (entryAddr u j) :=
        fun q u j hq hj m' =>
          load64_memset_frame (hrep.frame q u hq).1 halign (hrep.ne_fresh hxroot hxfresh hq) hj m'
      have hback :
          load64 (memset (store64 m (entryAddr t i) x) x 0#8 4096) (entryAddr t i) = x := by
        rw [hold p t i hp hi, load64_store64_same]
      rw [hback]
      refine ⟨true, s', _, rfl, hs', hmono, by simp, fun _ => ?_⟩
      refine ⟨Function.update T (p ++ [i]) (some x), x, ?_, Function.update_self .., ?_⟩
      · refine hrep.link hp hlen hi hnext halign hxroot hxfresh hmono hxused
          (fun y hy => memset_of_inRange (by decide) hy) fun q u j hq hj hne => ?_
        rw [hold q u j hq hj, hrep.load64_store64 m hp hq hi hj hne]
      · rw [load64_store64_same]
        exact (tableEntry halign).2.2

/-- What a call of the mapping function does: it enters the page into M, or it fails and
leaves M as it is. -/
theorem TableRep.map (hfresh : FreshIn total P alloc used root) (hs : P s)
    (hrep : TableRep m root (used s) T M) (va pa attr : Word) :
    (¬ total ∧ bootMmPgtableMap alloc root va pa attr s m = none) ∨
    ∃ ret s' m', bootMmPgtableMap alloc root va pa attr s m = some (ret, s', m') ∧ P s' ∧
      ((ret = 0 ∧ ∃ T', TableRep m' root (used s') T'
          (Function.update M (pathOf va) (pa ||| attr))) ∨
        (ret = -enomem ∧ ∃ T', TableRep m' root (used s') T' M)) := by
  obtain ⟨hpgd, hpud, hpmd, hpte⟩ := entry_lt va
  unfold bootMmPgtableMap
  rcases hrep.ensureTable hfresh hs hrep.top (by simp) hpgd with
    ⟨htotal, hnone⟩ | ⟨ok₁, s₁, m₁, heq₁, hs₁, _, hfail₁, hok₁⟩
  · exact Or.inl ⟨htotal, by simp only [hnone]⟩
  simp only [heq₁]
  cases ok₁ with
  | false =>
    exact Or.inr ⟨_, s₁, m₁, rfl, hs₁, Or.inr ⟨rfl, T, hfail₁ rfl⟩⟩
  | true =>
    obtain ⟨T₁, t₁, hrep₁, hp₁, hnext₁⟩ := hok₁ rfl
    rw [List.nil_append] at hp₁
    simp only [hnext₁]
    rcases hrep₁.ensureTable hfresh hs₁ hp₁ (by simp) hpud with
      ⟨htotal, hnone⟩ | ⟨ok₂, s₂, m₂, heq₂, hs₂, _, hfail₂, hok₂⟩
    · exact Or.inl ⟨htotal, by simp only [hnone]⟩
    simp only [heq₂]
    cases ok₂ with
    | false =>
      exact Or.inr ⟨_, s₂, m₂, rfl, hs₂, Or.inr ⟨rfl, T₁, hfail₂ rfl⟩⟩
    | true =>
      obtain ⟨T₂, t₂, hrep₂, hp₂, hnext₂⟩ := hok₂ rfl
      simp only [hnext₂]
      rcases hrep₂.ensureTable hfresh hs₂ hp₂ (by simp) hpmd with
        ⟨htotal, hnone⟩ | ⟨ok₃, s₃, m₃, heq₃, hs₃, _, hfail₃, hok₃⟩
      · exact Or.inl ⟨htotal, by simp only [hnone]⟩
      simp only [heq₃]
      cases ok₃ with
      | false =>
        exact Or.inr ⟨_, s₃, m₃, rfl, hs₃, Or.inr ⟨rfl, T₂, hfail₃ rfl⟩⟩
      | true =>
        obtain ⟨T₃, t₃, hrep₃, hp₃, hnext₃⟩ := hok₃ rfl
        simp only [hnext₃]
        exact Or.inr ⟨0, s₃, _, rfl, hs₃, Or.inl ⟨rfl, T₃, hrep₃.setLeaf hp₃ (by simp) hpte _⟩⟩

end Call

/-- With an allocator that always returns so does a call of the mapping function. -/
theorem TableRep.map_returns (hfresh : FreshAlloc alloc used root)
    (hrep : TableRep m root (used s) T M) (va pa attr : Word) :
    ∃ ret s' m', bootMmPgtableMap alloc root va pa attr s m = some (ret, s', m') ∧
      ((ret = 0 ∧ ∃ T', TableRep m' root (used s') T'
          (Function.update M (pathOf va) (pa ||| attr))) ∨
        (ret = -enomem ∧ ∃ T', TableRep m' root (used s') T' M)) := by
  rcases hrep.map hfresh.freshIn trivial va pa attr with ⟨hnot, _⟩ | ⟨ret, s', m', heq, _, hcases⟩
  · exact absurd trivial hnot
  · exact ⟨ret, s', m', heq, hcases⟩

/-! ### Runs -/

/-- One step of a run: a call of the mapping function, or other code that takes frames
from the allocator and writes outside the tables. -/
inductive MapStep (alloc : σ → Option (Word × σ)) (used : σ → List Word) (root : Word) :
    σ × Memory → σ × Memory → Prop
  | map {s s' : σ} {m m' : Memory} {va pa attr : Word} {ret : ℤ}
      (hcall : bootMmPgtableMap alloc root va pa attr s m = some (ret, s', m')) :
      MapStep alloc used root (s, m) (s', m')
  | other {s s' : σ} {m m' : Memory} (hused : ∀ f ∈ used s, f ∈ used s')
      (hmem : ∀ p t, p.length ≤ 3 → (∀ i ∈ p, i < 512) → tableAt m root p = some t →
        ∀ x, InRange t 4096 x → m' x = m x) :
      MapStep alloc used root (s, m) (s', m')

theorem MapStep.tableRep {st st' : σ × Memory} (hfresh : FreshAlloc alloc used root)
    (hrep : ∃ T M, TableRep st.2 root (used st.1) T M) (hstep : MapStep alloc used root st st') :
    ∃ T M, TableRep st'.2 root (used st'.1) T M := by
  obtain ⟨T, M, hrep⟩ := hrep
  cases hstep with
  | @map s s' m m' va pa attr ret hcall =>
    obtain ⟨ret', s'', m'', heq, hcases⟩ := hrep.map_returns hfresh va pa attr
    obtain ⟨rfl, heq⟩ := Prod.mk.inj (Option.some.inj (heq.symm.trans hcall))
    obtain ⟨rfl, rfl⟩ := Prod.mk.inj heq
    rcases hcases with ⟨_, T', hrep'⟩ | ⟨_, T', hrep'⟩
    · exact ⟨T', _, hrep'⟩
    · exact ⟨T', _, hrep'⟩
  | other hused hmem =>
    refine ⟨T, M, hrep.congr hused fun p t hp => ?_⟩
    obtain ⟨hlen, hval⟩ := hrep.valid p t hp
    exact hmem p t hlen hval (by rw [hrep.tableAt_eq hlen hval, hp])

theorem MapStep.run_tableRep {st st' : σ × Memory} (hfresh : FreshAlloc alloc used root)
    (hrep : ∃ T M, TableRep st.2 root (used st.1) T M)
    (hrun : Relation.ReflTransGen (MapStep alloc used root) st st') :
    ∃ T M, TableRep st'.2 root (used st'.1) T M := by
  induction hrun with
  | refl => exact hrep
  | tail _ hstep ih => exact hstep.tableRep hfresh ih

/-- A cleared root is the tree with one table and no entries. -/
theorem TableRep.zeroed (hroot : PageAligned root) (hzero : ∀ x, InRange root 4096 x → m x = 0#8)
    (frames : List Word) :
    TableRep m root frames (fun p => if p = [] then some root else none) fun _ => 0#64 := by
  have hload : ∀ i, i < 512 → load64 m (entryAddr root i) = 0#64 := fun i hi =>
    load64_zero fun x hx => hzero x (hroot.entry_inFrame hi hx)
  refine ⟨if_pos rfl, ?_, ?_, ?_, ?_, ?_, ?_, fun _ _ _ _ => rfl⟩
  · intro p t hp
    split at hp
    · next heq => simp [heq]
    · exact absurd hp (by simp)
  · intro p i _
    simp
  · intro p t hp
    split at hp
    · exact ⟨Option.some.inj hp ▸ hroot, Or.inl (Option.some.inj hp).symm⟩
    · exact absurd hp (by simp)
  · intro p q t hp hq
    split at hp <;> split at hq
    · next h₁ h₂ => rw [h₁, h₂]
    all_goals simp at hp hq
  · intro p t i hp _ hi
    split at hp
    · obtain rfl := Option.some.inj hp
      simp [hload i hi]
    · exact absurd hp (by simp)
  · intro p t i hp hlen _
    split at hp
    · next heq => simp [heq] at hlen
    · exact absurd hp (by simp)

/-- The mapping function refines a map update. In every state of a run from a cleared
root each call returns. If it returns 0, addresses on the page of va walk to the new
entry and all others walk as before; if it returns -ENOMEM, every address does; and
when the next three answers of the allocator are frames it returns 0. No two paths
share a table. -/
theorem pgtableMap_refines (hfresh : FreshAlloc alloc used root) (hroot : PageAligned root)
    {st st' : σ × Memory} (hzero : ∀ x, InRange root 4096 x → st.2 x = 0#8)
    (hrun : Relation.ReflTransGen (MapStep alloc used root) st st') :
    (∀ va pa attr, present attr →
      ∃ ret s' m', bootMmPgtableMap alloc root va pa attr st'.1 st'.2 = some (ret, s', m') ∧
        (ret = 0 ∧ (∀ va', walk m' root va' =
            if SamePage va va' then some (pa ||| attr) else walk st'.2 root va') ∨
          ret = -enomem ∧ ∀ va', walk m' root va' = walk st'.2 root va') ∧
        (Supplies alloc 3 st'.1 → ret = 0)) ∧
    ∀ p q t, p.length ≤ 3 → q.length ≤ 3 → (∀ i ∈ p, i < 512) → (∀ i ∈ q, i < 512) →
      tableAt st'.2 root p = some t → tableAt st'.2 root q = some t → p = q := by
  obtain ⟨T, M, hrep⟩ := MapStep.run_tableRep hfresh
    ⟨_, _, TableRep.zeroed hroot hzero (used st.1)⟩ hrun
  refine ⟨fun va pa attr hattr => ?_, ?_⟩
  · obtain ⟨ret, s', m', heq, hcases⟩ := hrep.map_returns hfresh va pa attr
    have hsup : Supplies alloc 3 st'.1 → ret = 0 := by
      intro h
      obtain ⟨s'', m'', hzero, _⟩ := bootMmPgtableMap_supplied h root va pa attr st'.2
      exact (Prod.mk.inj (Option.some.inj (heq.symm.trans hzero))).1
    refine ⟨ret, s', m', heq, ?_, hsup⟩
    rcases hcases with ⟨hret, T', hrep'⟩ | ⟨hret, T', hrep'⟩
    · refine Or.inl ⟨hret, fun va' => ?_⟩
      rw [hrep'.walk_eq, hrep.walk_eq]
      have hpresent : present (pa ||| attr) := by
        simp only [present, BitVec.getLsbD_or]
        unfold present at hattr
        rw [hattr, Bool.or_true]
      by_cases hsame : SamePage va va'
      · have hupd : Function.update M (pathOf va) (pa ||| attr) (pathOf va') = pa ||| attr := by
          rw [samePage_iff.mp hsame, Function.update_self]
        rw [hupd, if_pos hsame, if_pos hpresent]
      · have hupd : Function.update M (pathOf va) (pa ||| attr) (pathOf va') = M (pathOf va') :=
          Function.update_of_ne (fun h => hsame (samePage_iff.mpr h.symm)) _ _
        rw [hupd, if_neg hsame]
    · exact Or.inr ⟨hret, fun va' => by rw [hrep'.walk_eq, hrep.walk_eq]⟩
  · intro p q t hplen hqlen hp hq htp htq
    rw [hrep.tableAt_eq hplen hp] at htp
    rw [hrep.tableAt_eq hqlen hq] at htq
    exact hrep.inj p q t htp htq

end Alloc

/-! ### An instance -/

/-- An allocator with the four frames from physical 0 on. -/
def fourFrames (n : ℕ) : Option (Word × ℕ) :=
  if n < 4 then some (BitVec.ofNat 64 (4096 * n), n + 1) else some (errPtr enomem, n)

theorem fourFrames_fresh :
    FreshAlloc fourFrames (fun n => (List.range (min n 4)).map fun k => BitVec.ofNat 64 (4096 * k))
      0x10000#64 := by
  have htoNat : ∀ k < 4, (BitVec.ofNat 64 (4096 * k)).toNat = 4096 * k := by
    intro k hk
    rw [BitVec.toNat_ofNat]
    omega
  refine ⟨fun n => ?_, fun n x n' halloc => ?_⟩
  · by_cases hn : n < 4
    · exact ⟨_, _, if_pos hn⟩
    · exact ⟨_, _, if_neg hn⟩
  unfold fourFrames at halloc
  split at halloc
  · next hn =>
    obtain ⟨rfl, rfl⟩ := Prod.mk.inj (Option.some.inj halloc)
    refine ⟨fun f hf => ?_, Or.inr ⟨⟨n, htoNat n hn⟩, fun heq => ?_, fun hmem => ?_, ?_⟩⟩
    · obtain ⟨k, hk, rfl⟩ := List.mem_map.mp hf
      rw [List.mem_range] at hk
      exact List.mem_map_of_mem (List.mem_range.mpr (by omega))
    · have hnat := congrArg BitVec.toNat heq
      rw [htoNat n hn] at hnat
      change 4096 * n = 65536 at hnat
      omega
    · obtain ⟨k, hk, heq⟩ := List.mem_map.mp hmem
      rw [List.mem_range] at hk
      have hnat := congrArg BitVec.toNat heq
      rw [htoNat k (by omega), htoNat n hn] at hnat
      omega
    · exact List.mem_map_of_mem (List.mem_range.mpr (by omega))
  · obtain ⟨rfl, rfl⟩ := Prod.mk.inj (Option.some.inj halloc)
    exact ⟨fun _ hf => hf, Or.inl rfl⟩

/-- The first page of the kernel text in an empty table, with frames for the three
missing tables: the second frame of the allocator is physical 4096, the first is 0. -/
theorem pgtableMap_refines_fourFrames : ∃ ret s' m',
    bootMmPgtableMap fourFrames 0x10000#64 0xFFFFFFFF80000000#64 0x100000#64 1#64 0 (fun _ => 0#8) =
      some (ret, s', m') ∧ ret = 0 ∧
    ∀ va', walk m' 0x10000#64 va' = if SamePage 0xFFFFFFFF80000000#64 va' then some 0x100001#64
      else walk (fun _ => 0#8) 0x10000#64 va' := by
  have hroot : PageAligned 0x10000#64 := ⟨16, by decide⟩
  obtain ⟨ret, s', m', hcall, hcases, hsup⟩ :=
    (pgtableMap_refines fourFrames_fresh hroot (fun _ _ => rfl)
      (.refl (a := ((0, fun _ => 0#8) : ℕ × Memory)))).1
      0xFFFFFFFF80000000#64 0x100000#64 1#64 (by decide)
  have hret : ret = 0 :=
    hsup ⟨_, _, rfl, by decide, _, _, rfl, by decide, _, _, rfl, by decide, trivial⟩
  refine ⟨ret, s', m', hcall, hret, ?_⟩
  rcases hcases with ⟨_, hwalk⟩ | ⟨herr, _⟩
  · exact hwalk
  · rw [hret] at herr
    exact absurd herr (by decide)

end ClosureOS
