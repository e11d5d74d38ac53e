import Mathlib.Algebra.Group.Nat.Defs
import Mathlib.Data.List.Infix
import Mathlib.Logic.Function.Iterate
import Mathlib.Tactic.Common

/-!
Sequential programs that report a status and stop at the first negative one, the way C
code does with "if (ret < 0) return ret". A step maps a state to a status and a new
state, or does not return. Loops either run over a list or have a guard on a loop
variable; a guarded loop that ends is a loop over the list of values it visits.
-/
namespace ClosureOS.StatusLoops

variable {τ α β : Type}

abbrev Step (τ : Type) := τ → Option (ℤ × τ)

def andThen (c d : Step τ) : Step τ := fun t =>
  match c t with
  | none => none
  | some (ret, t) => if ret < 0 then some (ret, t) else d t

def forEach (body : α → Step τ) : List α → Step τ
  | [] => fun t => some (0, t)
  | x :: xs => andThen (body x) (forEach body xs)

/-- A loop with a guard on its variable, for a given number of rounds. It has no result
when the guard still holds after them. -/
def whileRounds (guard : α → Bool) (next : α → α) (body : α → Step τ) : ℕ → α → Step τ
  | 0, _ => fun _ => none
  | n + 1, x =>
    if guard x then andThen (body x) (whileRounds guard next body n (next x))
    else fun t => some (0, t)

/-- More rounds than a loop over machine words can take without repeating itself. -/
def wordRounds : ℕ := 2 ^ 64

theorem andThen_eq_some {c d : Step τ} {t t' : τ} {ret : ℤ} :
    andThen c d t = some (ret, t') ↔
      c t = some (ret, t') ∧ ret < 0 ∨
      ∃ r u, c t = some (r, u) ∧ 0 ≤ r ∧ d u = some (ret, t') := by
  unfold andThen
  cases hc : c t with
  | none => simp
  | some out =>
    obtain ⟨r, u⟩ := out
    by_cases hr : r < 0
    · simp only [hr, if_true, Option.some.injEq, Prod.mk.injEq]
      constructor
      · rintro ⟨rfl, rfl⟩
        exact Or.inl ⟨⟨rfl, rfl⟩, hr⟩
      · rintro (⟨⟨rfl, rfl⟩, _⟩ | ⟨r', u', ⟨rfl, rfl⟩, hr', _⟩)
        · exact ⟨rfl, rfl⟩
        · omega
    · simp only [hr, if_false, Option.some.injEq, Prod.mk.injEq]
      constructor
      · exact fun h => Or.inr ⟨r, u, ⟨rfl, rfl⟩, by omega, h⟩
      · rintro (⟨⟨rfl, rfl⟩, hneg⟩ | ⟨r', u', ⟨rfl, rfl⟩, _, h⟩)
        · exact absurd hneg hr
        · exact h

/-- A program that succeeds succeeded in its first step. -/
theorem andThen_of_nonneg {c d : Step τ} {t t' : τ} {ret : ℤ} (hret : 0 ≤ ret)
    (h : andThen c d t = some (ret, t')) :
    ∃ r u, c t = some (r, u) ∧ 0 ≤ r ∧ d u = some (ret, t') := by
  rcases andThen_eq_some.mp h with ⟨_, hneg⟩ | hrest
  · exact absurd hneg (by omega)
  · exact hrest

theorem andThen_assoc (b c d : Step τ) : andThen (andThen b c) d = andThen b (andThen c d) := by
  funext t
  simp only [andThen]
  cases b t with
  | none => rfl
  | some out =>
    by_cases hr : out.1 < 0
    · simp only [if_pos hr]
    · simp only [if_neg hr]

theorem forEach_append (body : α → Step τ) (xs ys : List α) :
    forEach body (xs ++ ys) = andThen (forEach body xs) (forEach body ys) := by
  induction xs with
  | nil => rfl
  | cons x xs ih => rw [List.cons_append, forEach, ih, forEach, andThen_assoc]

theorem forEach_map (body : β → Step τ) (f : α → β) (xs : List α) :
    forEach body (xs.map f) = forEach (fun x => body (f x)) xs := by
  induction xs with
  | nil => rfl
  | cons x xs ih => rw [List.map_cons, forEach, ih, forEach]

theorem forEach_congr {body body' : α → Step τ} {xs : List α} (h : ∀ x ∈ xs, body x = body' x) :
    forEach body xs = forEach body' xs := by
  induction xs with
  | nil => rfl
  | cons x xs ih =>
    rw [forEach, forEach, h x List.mem_cons_self, ih fun y hy => h y (List.mem_cons_of_mem x hy)]

/-- The values for which the body of a guarded loop runs. -/
def visited (guard : α → Bool) (next : α → α) : ℕ → α → List α
  | 0, _ => []
  | n + 1, x => if guard x then x :: visited guard next n (next x) else []

theorem visited_eq_map {guard : α → Bool} {next : α → α} {n k : ℕ} {x : α} (hk : k < n)
    (hguard : ∀ i < k, guard (next^[i] x) = true) (hstop : guard (next^[k] x) = false) :
    visited guard next n x = (List.range k).map fun i => next^[i] x := by
  induction k generalizing n x with
  | zero =>
    obtain ⟨n, rfl⟩ := Nat.exists_eq_succ_of_ne_zero (by omega : n ≠ 0)
    have hstop : guard x = false := hstop
    simp [visited, hstop]
  | succ k ih =>
    obtain ⟨n, rfl⟩ := Nat.exists_eq_succ_of_ne_zero (by omega : n ≠ 0)
    have hfirst : guard x = true := hguard 0 (by omega)
    have hrest := ih (n := n) (x := next x) (by omega)
      (fun i hi => hguard (i + 1) (by omega)) hstop
    rw [visited, if_pos hfirst, hrest, List.range_succ_eq_map, List.map_cons, List.map_map]
    rfl

/-- A loop variable that its update leaves alone and the guard admits stays for good. -/
theorem visited_of_fixed {guard : α → Bool} {next : α → α} {n : ℕ} {x : α} (hguard : guard x = true)
    (hnext : next x = x) : visited guard next n x = List.replicate n x := by
  induction n with
  | zero => rfl
  | succ n ih => rw [visited, if_pos hguard, hnext, ih, List.replicate_succ]

/-- Such a loop never ends, as long as its body succeeds. -/
theorem whileRounds_of_fixed {guard : α → Bool} {next : α → α} {body : α → Step τ} {n : ℕ} {x : α}
    (hguard : guard x = true) (hnext : next x = x) (hbody : ∀ t, ∃ u, body x t = some (0, u))
    (t : τ) : whileRounds guard next body n x t = none := by
  induction n generalizing t with
  | zero => rfl
  | succ n ih =>
    obtain ⟨u, hu⟩ := hbody t
    rw [whileRounds, if_pos hguard, hnext, andThen, hu]
    exact ih u

theorem guard_of_mem_visited {guard : α → Bool} {next : α → α} {n : ℕ} {x y : α}
    (hy : y ∈ visited guard next n x) : guard y = true := by
  induction n generalizing x with
  | zero => exact absurd hy List.not_mem_nil
  | succ n ih =>
    unfold visited at hy
    split at hy
    · next hguard =>
      rcases List.mem_cons.mp hy with rfl | hy
      · exact hguard
      · exact ih hy
    · exact absurd hy List.not_mem_nil

/-- What holds of the loop variable at the start and is kept by its update. -/
theorem forall_visited {guard : α → Bool} {next : α → α} {n : ℕ} {x : α} {I : α → Prop} (hx : I x)
    (hnext : ∀ y, I y → I (next y)) : ∀ y ∈ visited guard next n x, I y := by
  induction n generalizing x with
  | zero => exact fun y hy => absurd hy List.not_mem_nil
  | succ n ih =>
    intro y hy
    unfold visited at hy
    split at hy
    · rcases List.mem_cons.mp hy with rfl | hy
      · exact hx
      · exact ih (hnext x hx) y hy
    · exact absurd hy List.not_mem_nil

/-- A guarded loop that ends runs over the values it visits. -/
theorem whileRounds_eq_forEach_visited {guard : α → Bool} {next : α → α} {body : α → Step τ} {n : ℕ}
    {x : α} (hend : ∃ k < n, guard (next^[k] x) = false) :
    whileRounds guard next body n x = forEach body (visited guard next n x) := by
  obtain ⟨k, hk, hfalse⟩ := hend
  induction n generalizing k x with
  | zero => omega
  | succ n ih =>
    rw [whileRounds, visited]
    split
    · next hguard =>
      cases k with
      | zero => exact absurd hguard (by simpa using hfalse)
      | succ k => rw [forEach, ih k (by omega) hfalse]
    · rfl

/-- A guarded loop whose guard holds k times runs over the first k values. -/
theorem whileRounds_eq_forEach {guard : α → Bool} {next : α → α} {body : α → Step τ} {n k : ℕ}
    {x : α} (hk : k < n) (hguard : ∀ i < k, guard (next^[i] x) = true)
    (hstop : guard (next^[k] x) = false) :
    whileRounds guard next body n x = forEach body ((List.range k).map fun i => next^[i] x) := by
  rw [whileRounds_eq_forEach_visited ⟨k, hk, hstop⟩, visited_eq_map hk hguard hstop]

/-- A loop whose body always succeeds folds the body's effect. -/
theorem forEach_eq_foldl {body : α → Step τ} {f : τ → α → τ} {xs : List α}
    (hbody : ∀ x ∈ xs, ∀ t, body x t = some (0, f t x)) (t : τ) :
    forEach body xs t = some (0, xs.foldl f t) := by
  induction xs generalizing t with
  | nil => rfl
  | cons x xs ih =>
    rw [forEach, andThen, hbody x List.mem_cons_self]
    exact ih (fun y hy => hbody y (List.mem_cons_of_mem x hy)) (f t x)

/-! ### Invariants -/

/-- The step keeps P. When total holds, it also returns on every state with P. -/
def Keeps (total : Prop) (P : τ → Prop) (c : Step τ) : Prop :=
  ∀ t, P t → (¬ total ∧ c t = none) ∨ ∃ r t', c t = some (r, t') ∧ P t'

section Keeps

variable {total : Prop} {P : τ → Prop} {c d : Step τ}

theorem Keeps.of_eq_some (h : Keeps total P c) {t t' : τ} {r : ℤ} (ht : P t)
    (heq : c t = some (r, t')) : P t' := by
  rcases h t ht with ⟨_, hnone⟩ | ⟨r', u, hsome, hu⟩
  · exact absurd (heq.symm.trans hnone) (by simp)
  · obtain ⟨_, rfl⟩ := Prod.mk.inj (Option.some.inj (heq.symm.trans hsome))
    exact hu

theorem Keeps.status (ret : ℤ) : Keeps total P fun t => some (ret, t) :=
  fun t ht => Or.inr ⟨ret, t, rfl, ht⟩

theorem Keeps.andThen (hc : Keeps total P c) (hd : Keeps total P d) :
    Keeps total P (andThen c d) := by
  intro t ht
  rw [StatusLoops.andThen]
  rcases hc t ht with ⟨htotal, hnone⟩ | ⟨r, u, hsome, hu⟩
  · exact Or.inl ⟨htotal, by rw [hnone]⟩
  · rw [hsome]
    by_cases hr : r < 0
    · exact Or.inr ⟨r, u, if_pos hr, hu⟩
    · simp only [if_neg hr]
      exact hd u hu

/-- What the first step establishes, the rest of the program keeps. -/
theorem Keeps.after (hd : Keeps True P d) {t u : τ} {r : ℤ} (hc : c t = some (r, u)) (hu : P u) :
    ∃ r' t', StatusLoops.andThen c d t = some (r', t') ∧ P t' := by
  rw [StatusLoops.andThen, hc]
  by_cases hr : r < 0
  · exact ⟨r, u, if_pos hr, hu⟩
  · simp only [if_neg hr]
    exact (hd u hu).resolve_left fun h => h.1 trivial

theorem Keeps.forEach {body : α → Step τ} {xs : List α}
    (hbody : ∀ x ∈ xs, Keeps total P (body x)) : Keeps total P (forEach body xs) := by
  induction xs with
  | nil => exact Keeps.status 0
  | cons x xs ih =>
    exact (hbody x List.mem_cons_self).andThen
      (ih fun y hy => hbody y (List.mem_cons_of_mem x hy))

/-- A guarded loop keeps what its body keeps; it returns when its guard fails in time. -/
theorem Keeps.whileRounds {guard : α → Bool} {next : α → α} {body : α → Step τ} {n : ℕ} {x : α}
    (hend : ∃ k < n, guard (next^[k] x) = false) (hbody : ∀ x, Keeps total P (body x)) :
    Keeps total P (whileRounds guard next body n x) := by
  obtain ⟨k, hk, hfalse⟩ := hend
  induction n generalizing k x with
  | zero => omega
  | succ n ih =>
    rw [StatusLoops.whileRounds]
    split
    · next hguard =>
      apply (hbody x).andThen
      cases k with
      | zero => exact absurd hguard (by simpa using hfalse)
      | succ k => exact ih k (by omega) hfalse
    · exact Keeps.status 0

/-- The same for a loop that need not end, with what holds of its variable throughout. -/
theorem Keeps.whileRounds_of_inv {guard : α → Bool} {next : α → α} {body : α → Step τ}
    {I : α → Prop} (hnext : ∀ y, I y → I (next y)) (hbody : ∀ y, I y → Keeps False P (body y))
    (n : ℕ) {x : α} (hx : I x) : Keeps False P (StatusLoops.whileRounds guard next body n x) := by
  induction n generalizing x with
  | zero => exact fun _ _ => Or.inl ⟨id, rfl⟩
  | succ n ih =>
    rw [StatusLoops.whileRounds]
    split
    · exact (hbody x hx).andThen (ih (hnext x hx))
    · exact Keeps.status 0

/-- What the first round establishes, the other rounds keep. -/
theorem Keeps.whileRounds_after {guard : α → Bool} {next : α → α} {body : α → Step τ} {n : ℕ}
    {x : α} (hbody : ∀ y, Keeps True P (body y)) (hguard : guard x = true)
    (hend : ∃ k < n, guard (next^[k] x) = false) {t u : τ} {r : ℤ} (hfirst : body x t = some (r, u))
    (hu : P u) : ∃ r' t', StatusLoops.whileRounds guard next body n x t = some (r', t') ∧ P t' := by
  obtain ⟨k, hk, hfalse⟩ := hend
  cases k with
  | zero => exact absurd hguard (by simpa using hfalse)
  | succ k =>
    obtain ⟨n, rfl⟩ := Nat.exists_eq_succ_of_ne_zero (by omega : n ≠ 0)
    rw [StatusLoops.whileRounds, if_pos hguard]
    exact (Keeps.whileRounds ⟨k, by omega, hfalse⟩ hbody).after hfirst hu

end Keeps

/-! ### Postconditions of success -/

/-- When the step starts with P and succeeds, Q holds afterwards. -/
def Ensures (P : τ → Prop) (c : Step τ) (Q : τ → Prop) : Prop :=
  ∀ t r t', P t → c t = some (r, t') → 0 ≤ r → Q t'

section Ensures

variable {P Q R : τ → Prop} {c d : Step τ} {body : α → Step τ} {xs : List α}

theorem Ensures.status (ret : ℤ) : Ensures P (fun t => some (ret, t)) P := by
  intro t r t' ht heq _
  obtain ⟨_, rfl⟩ := Prod.mk.inj (Option.some.inj heq)
  exact ht

theorem Ensures.andThen (hc : Ensures P c Q) (hd : Ensures Q d R) : Ensures P (andThen c d) R := by
  intro t r t' ht heq hr
  obtain ⟨r', u, hcu, hr', hdu⟩ := andThen_of_nonneg hr heq
  exact hd u r t' (hc t r' u ht hcu hr') hdu hr

theorem Ensures.forEach (hbody : ∀ x ∈ xs, Ensures P (body x) P) :
    Ensures P (forEach body xs) P := by
  induction xs with
  | nil => exact Ensures.status 0
  | cons x xs ih =>
    exact (hbody x List.mem_cons_self).andThen (ih fun y hy => hbody y (List.mem_cons_of_mem x hy))

/-- One round establishes Q, and the rounds after it keep Q. -/
theorem Ensures.forEach_of_mem {x : α} (hx : x ∈ xs) (hbefore : ∀ y ∈ xs, Ensures P (body y) P)
    (hat : Ensures P (body x) Q) (hafter : ∀ y ∈ xs, Ensures Q (body y) Q) :
    Ensures P (StatusLoops.forEach body xs) Q := by
  obtain ⟨before, after, rfl⟩ := List.append_of_mem hx
  rw [forEach_append]
  refine (Ensures.forEach fun y hy => hbefore y (List.mem_append_left _ hy)).andThen
    (hat.andThen ?_)
  exact Ensures.forEach fun y hy => hafter y (List.mem_append_right _ (List.mem_cons_of_mem x hy))

end Ensures

/-! ### Logs -/

/-- The step extends a log by a prefix of l, and by all of l when it succeeds. -/
def Appends (log : τ → List β) (c : Step τ) (l : List β) : Prop :=
  ∀ t r t', c t = some (r, t') → ∃ l', l' <+: l ∧ log t' = log t ++ l' ∧ (0 ≤ r → l' = l)

section Appends

variable {log : τ → List β} {c d : Step τ} {l k : List β}

theorem Appends.status (ret : ℤ) : Appends log (fun t => some (ret, t)) [] := by
  intro t r t' heq
  obtain ⟨_, rfl⟩ := Prod.mk.inj (Option.some.inj heq)
  exact ⟨[], List.prefix_rfl, (List.append_nil _).symm, fun _ => rfl⟩

/-- A step that never touches the log. -/
theorem Appends.of_keeps (hc : ∀ l, Keeps False (fun t => log t = l) c) : Appends log c [] :=
  fun t _ _ heq => ⟨[], List.prefix_rfl,
    ((hc (log t)).of_eq_some rfl heq).trans (List.append_nil _).symm, fun _ => rfl⟩

theorem Appends.andThen (hc : Appends log c l) (hd : Appends log d k) :
    Appends log (andThen c d) (l ++ k) := by
  intro t r t' heq
  rcases andThen_eq_some.mp heq with ⟨hct, hneg⟩ | ⟨r', u, hcu, hr', hdu⟩
  · obtain ⟨l', hpre, hlog, _⟩ := hc t r t' hct
    exact ⟨l', hpre.trans (List.prefix_append l k), hlog, fun h => absurd hneg (by omega)⟩
  · obtain ⟨l', _, hlog, hfull⟩ := hc t r' u hcu
    obtain ⟨k', hpre, hlog', hfull'⟩ := hd u r t' hdu
    refine ⟨l ++ k', (List.prefix_append_right_inj l).mpr hpre, ?_, fun h => by rw [hfull' h]⟩
    rw [hlog', hlog, hfull hr', List.append_assoc]

theorem Appends.forEach {body : α → Step τ} {g : α → List β} {xs : List α}
    (hbody : ∀ x ∈ xs, Appends log (body x) (g x)) :
    Appends log (forEach body xs) (xs.flatMap g) := by
  induction xs with
  | nil => exact Appends.status 0
  | cons x xs ih =>
    rw [List.flatMap_cons]
    exact (hbody x List.mem_cons_self).andThen
      (ih fun y hy => hbody y (List.mem_cons_of_mem x hy))

end Appends

/-! ### Errors -/

/-- The only negative status of the step is e. -/
def FailsWith (e : ℤ) (c : Step τ) : Prop := ∀ t r t', c t = some (r, t') → 0 ≤ r ∨ r = e

section FailsWith

variable {e : ℤ} {c d : Step τ}

theorem FailsWith.andThen (hc : FailsWith e c) (hd : FailsWith e d) :
    FailsWith e (andThen c d) := by
  intro t r t' heq
  rcases andThen_eq_some.mp heq with ⟨hct, _⟩ | ⟨_, u, _, _, hdu⟩
  · exact hc t r t' hct
  · exact hd u r t' hdu

theorem FailsWith.whileRounds {guard : α → Bool} {next : α → α} {body : α → Step τ}
    (hbody : ∀ x, FailsWith e (body x)) (n : ℕ) (x : α) :
    FailsWith e (whileRounds guard next body n x) := by
  induction n generalizing x with
  | zero => exact fun t r t' heq => absurd heq (by simp [StatusLoops.whileRounds])
  | succ n ih =>
    rw [StatusLoops.whileRounds]
    split
    · exact (hbody x).andThen (ih (next x))
    · intro t r t' heq
      obtain ⟨rfl, _⟩ := Prod.mk.inj (Option.some.inj heq)
      exact Or.inl (Int.le_refl 0)

theorem FailsWith.forEach {body : α → Step τ} {xs : List α}
    (hbody : ∀ x ∈ xs, FailsWith e (body x)) : FailsWith e (forEach body xs) := by
  induction xs with
  | nil =>
    intro t r t' heq
    obtain ⟨rfl, _⟩ := Prod.mk.inj (Option.some.inj heq)
    exact Or.inl (Int.le_refl 0)
  | cons x xs ih =>
    exact (hbody x List.mem_cons_self).andThen
      (ih fun y hy => hbody y (List.mem_cons_of_mem x hy))

end FailsWith

end ClosureOS.StatusLoops
