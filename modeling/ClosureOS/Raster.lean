import Mathlib.Data.List.Range
import Mathlib.Logic.Function.Basic
import Mathlib.Tactic.Ring

/-!
A picture kept row by row in a flat array, and the counted loops that write it. The
array keeps a log of the indices it was written at. Three loops are described pixel by
pixel: painting a rectangle, moving a band of rows up in place, and both of them with
the indices computed in any way that agrees with the row-by-row layout.
-/
namespace ClosureOS.Raster

/-- The body runs for 0, 1, …, n - 1. -/
def countedLoop {σ : Type*} (n : ℕ) (body : ℕ → σ → σ) (s : σ) : σ :=
  (List.range n).foldl (fun s i => body i s) s

section Loops

variable {σ : Type*} {n : ℕ} {body : ℕ → σ → σ} {s : σ}

@[simp] theorem countedLoop_zero : countedLoop 0 body s = s := rfl

theorem countedLoop_succ : countedLoop (n + 1) body s = body n (countedLoop n body s) := by
  simp [countedLoop, List.range_succ]

/-- The invariant rule of counted loops. -/
theorem countedLoop_invariant (P : ℕ → σ → Prop) (h0 : P 0 s)
    (hstep : ∀ i < n, ∀ t, P i t → P (i + 1) (body i t)) : P n (countedLoop n body s) := by
  induction n with
  | zero => exact h0
  | succ n ih =>
    rw [countedLoop_succ]
    exact hstep n (Nat.lt_succ_self n) _ (ih fun i hi => hstep i (Nat.lt_succ_of_lt hi))

end Loops

/-! ### Bands of equal height -/

section Bands

variable {k n r s y : ℕ}

theorem band_lt (hr : r < n) (hy : y < k) : r * k + y < n * k :=
  calc r * k + y < r * k + k := Nat.add_lt_add_left hy _
    _ = (r + 1) * k := (Nat.succ_mul r k).symm
    _ ≤ n * k := Nat.mul_le_mul_right k hr

/-- A line of band r lies between the first lines of bands s and s + 1 only if r is s. -/
theorem band_iff (hy : y < k) : (s * k ≤ r * k + y ∧ r * k + y < s * k + k) ↔ r = s := by
  constructor
  · rintro ⟨hlow, hhigh⟩
    rcases Nat.lt_trichotomy r s with hlt | heq | hlt
    · have := band_lt hlt hy
      omega
    · exact heq
    · have hle := Nat.mul_le_mul_right k hlt
      rw [Nat.succ_eq_add_one, Nat.succ_mul] at hle
      omega
  · rintro rfl
    omega

end Bands

/-! ### The array -/

/-- The array, and the indices written so far, newest first. -/
structure Buffer (α : Type*) where
  cells : ℕ → α
  stores : List ℕ

namespace Buffer

variable {α : Type*} {w h x x' y y' : ℕ} {b b' : Buffer α} {g : ℕ → ℕ → α}

def store (b : Buffer α) (i : ℕ) (v : α) : Buffer α where
  cells := Function.update b.cells i v
  stores := i :: b.stores

theorem cells_store_of_ne {i j : ℕ} (h : j ≠ i) (v : α) : (b.store i v).cells j = b.cells j :=
  Function.update_of_ne h _ _

/-- A cell that no round of a loop writes. -/
theorem cells_countedLoop {n j : ℕ} {body : ℕ → Buffer α → Buffer α}
    (h : ∀ i < n, ∀ c, (body i c).cells j = c.cells j) :
    (countedLoop n body b).cells j = b.cells j :=
  countedLoop_invariant (fun _ c => c.cells j = b.cells j) rfl fun i hi c hc => (h i hi c).trans hc

/-- What holds of the indices that every round writes holds of those that the loop writes. -/
theorem stores_countedLoop {n : ℕ} {body : ℕ → Buffer α → Buffer α} {P : ℕ → Prop}
    (h : ∀ i < n, ∀ c, ∀ j ∈ (body i c).stores, j ∈ c.stores ∨ P j) :
    ∀ j ∈ (countedLoop n body b).stores, j ∈ b.stores ∨ P j :=
  countedLoop_invariant (fun _ c => ∀ j ∈ c.stores, j ∈ b.stores ∨ P j) (fun _ hj => Or.inl hj)
    fun i hi c hc j hj => (h i hi c j hj).elim (hc j) Or.inr

/-- The two arrays are the same at the indices with P. -/
def AgreeAt (P : ℕ → Prop) (b b' : Buffer α) : Prop := ∀ i, P i → b.cells i = b'.cells i

theorem AgreeAt.store {P : ℕ → Prop} (hb : AgreeAt P b b') {v v' : α} (hv : v = v') (i : ℕ) :
    AgreeAt P (b.store i v) (b'.store i v') := by
  intro j hj
  simp only [Buffer.store, Function.update_apply, hb j hj, hv]

/-- Loops whose rounds keep two arrays the same there. -/
theorem agreeAt_countedLoop {n : ℕ} {body : ℕ → Buffer α → Buffer α} {P : ℕ → Prop}
    (h : ∀ i < n, ∀ c c', AgreeAt P c c' → AgreeAt P (body i c) (body i c')) (hb : AgreeAt P b b') :
    AgreeAt P (countedLoop n body b) (countedLoop n body b') := by
  induction n with
  | zero => exact hb
  | succ n ih =>
    rw [countedLoop_succ, countedLoop_succ]
    exact h n (Nat.lt_succ_self n) _ _ (ih fun i hi => h i (Nat.lt_succ_of_lt hi))

/-- The pixel in row y and column x of a picture of width w. -/
def pixel (b : Buffer α) (w y x : ℕ) : α := b.cells (x + y * w)

theorem index_inj (hx : x < w) (hx' : x' < w) : x + y * w = x' + y' * w ↔ x = x' ∧ y = y' := by
  constructor
  · intro h
    have hcol : x = x' := by
      have hmod := congrArg (· % w) h
      simpa only [Nat.add_mul_mod_self_right, Nat.mod_eq_of_lt hx, Nat.mod_eq_of_lt hx'] using hmod
    subst hcol
    exact ⟨rfl, Nat.eq_of_mul_eq_mul_right (Nat.zero_lt_of_lt hx) (Nat.add_left_cancel h)⟩
  · rintro ⟨rfl, rfl⟩
    rfl

theorem index_lt (hx : x < w) (hy : y < h) : x + y * w < w * h :=
  calc x + y * w < w + y * w := Nat.add_lt_add_right hx _
    _ = w * (y + 1) := by ring
    _ ≤ w * h := Nat.mul_le_mul_left w hy

theorem pixel_store (hx : x < w) (hx' : x' < w) (v : α) :
    (b.store (x + y * w) v).pixel w y' x' = if y' = y ∧ x' = x then v else b.pixel w y' x' := by
  change Function.update b.cells (x + y * w) v (x' + y' * w) = _
  rw [Function.update_apply]
  simp only [index_inj hx' hx, and_comm (a := y' = y)]
  rfl

/-- The array b' is b with the pixels given by g, written inside a w × h picture. -/
structure Paints (w h : ℕ) (b b' : Buffer α) (g : ℕ → ℕ → α) : Prop where
  pixel : ∀ y x, x < w → b'.pixel w y x = g y x
  stores : ∀ i ∈ b'.stores, i ∈ b.stores ∨ i < w * h

theorem Paints.refl (w h : ℕ) (b : Buffer α) : Paints w h b b (b.pixel w) :=
  ⟨fun _ _ _ => rfl, fun _ hi => Or.inl hi⟩

theorem Paints.congr {g' : ℕ → ℕ → α} (hp : Paints w h b b' g)
    (heq : ∀ y x, x < w → g y x = g' y x) : Paints w h b b' g' :=
  ⟨fun y x hx => (hp.pixel y x hx).trans (heq y x hx), hp.stores⟩

theorem Paints.trans {b'' : Buffer α} {g' : ℕ → ℕ → α} (hp : Paints w h b b' g)
    (hp' : Paints w h b' b'' g') : Paints w h b b'' g' where
  pixel := hp'.pixel
  stores i hi := (hp'.stores i hi).elim (hp.stores i) Or.inr

/-- One more pixel. -/
theorem Paints.store (hp : Paints w h b b' g) (hx : x < w) (hy : y < h) (v : α) :
    Paints w h b (b'.store (x + y * w) v)
      (fun y' x' => if y' = y ∧ x' = x then v else g y' x') where
  pixel y' x' hx' := by rw [pixel_store hx hx', hp.pixel y' x' hx']
  stores i hi := by
    rcases List.mem_cons.mp hi with rfl | hi
    · exact Or.inr (index_lt hx hy)
    · exact hp.stores i hi

/-! ### Painting a rectangle -/

/-- Row y of the rectangle whose top left corner is at row y₀ and column x₀. -/
theorem paints_row {x₀ y₀ m : ℕ} {idx : ℕ → ℕ} (val : ℕ → α) (hx : x₀ + m ≤ w) (hy : y₀ < h)
    (hidx : ∀ x < m, idx x = x₀ + x + y₀ * w) (b : Buffer α) :
    Paints w h b (countedLoop m (fun x b => b.store (idx x) (val x)) b)
      (fun y' x' =>
        if y' = y₀ ∧ x₀ ≤ x' ∧ x' < x₀ + m then val (x' - x₀) else b.pixel w y' x') := by
  refine countedLoop_invariant (fun n t => Paints w h b t fun y' x' =>
    if y' = y₀ ∧ x₀ ≤ x' ∧ x' < x₀ + n then val (x' - x₀) else b.pixel w y' x') ?_ ?_
  · refine (Paints.refl w h b).congr fun y' x' _ => ?_
    rw [if_neg (by omega)]
  · intro n hn t ht
    rw [hidx n hn]
    refine (ht.store (x := x₀ + n) (by omega) hy (val n)).congr fun y' x' _ => ?_
    by_cases hnew : y' = y₀ ∧ x' = x₀ + n
    · rw [if_pos hnew, if_pos (by omega), hnew.2, Nat.add_sub_cancel_left]
    · rw [if_neg hnew]
      have hiff : (y' = y₀ ∧ x₀ ≤ x' ∧ x' < x₀ + (n + 1)) ↔
          (y' = y₀ ∧ x₀ ≤ x' ∧ x' < x₀ + n) := by omega
      simp only [hiff]

/-- The loop over the rows of a rectangle of m columns and n rows. -/
theorem paints_rect {x₀ y₀ m n : ℕ} {row : ℕ → Buffer α → Buffer α} (val : ℕ → ℕ → α)
    (hrow : ∀ y < n, ∀ b, Paints w h b (row y b) fun y' x' =>
      if y' = y₀ + y ∧ x₀ ≤ x' ∧ x' < x₀ + m then val y (x' - x₀) else b.pixel w y' x')
    (b : Buffer α) :
    Paints w h b (countedLoop n row b) (fun y' x' =>
      if (y₀ ≤ y' ∧ y' < y₀ + n) ∧ x₀ ≤ x' ∧ x' < x₀ + m then val (y' - y₀) (x' - x₀)
      else b.pixel w y' x') := by
  refine countedLoop_invariant (fun k t => Paints w h b t fun y' x' =>
    if (y₀ ≤ y' ∧ y' < y₀ + k) ∧ x₀ ≤ x' ∧ x' < x₀ + m then val (y' - y₀) (x' - x₀)
    else b.pixel w y' x') ?_ ?_
  · refine (Paints.refl w h b).congr fun y' x' _ => ?_
    rw [if_neg (by omega)]
  · intro k hk t ht
    refine (ht.trans (hrow k hk t)).congr fun y' x' hx' => ?_
    by_cases hnew : y' = y₀ + k ∧ x₀ ≤ x' ∧ x' < x₀ + m
    · rw [if_pos hnew, if_pos (by omega), hnew.1, Nat.add_sub_cancel_left]
    · rw [if_neg hnew, ht.pixel y' x' hx']
      have hiff : ((y₀ ≤ y' ∧ y' < y₀ + (k + 1)) ∧ x₀ ≤ x' ∧ x' < x₀ + m) ↔
          ((y₀ ≤ y' ∧ y' < y₀ + k) ∧ x₀ ≤ x' ∧ x' < x₀ + m) := by omega
      simp only [hiff]

/-! ### Moving rows up -/

/-- One row is copied from the row d further down. -/
theorem paints_copyRow {d : ℕ} {idx src : ℕ → ℕ} (hd : 0 < d) (hy : y < h)
    (hidx : ∀ x < w, idx x = x + y * w) (hsrc : ∀ x < w, src x = x + (y + d) * w) (b : Buffer α) :
    Paints w h b (countedLoop w (fun x b => b.store (idx x) (b.cells (src x))) b)
      (fun y' x' => if y' = y then b.pixel w (y + d) x' else b.pixel w y' x') := by
  have hloop : Paints w h b (countedLoop w (fun x b => b.store (idx x) (b.cells (src x))) b)
      (fun y' x' => if y' = y ∧ x' < w then b.pixel w (y + d) x' else b.pixel w y' x') := by
    refine countedLoop_invariant (fun n t => Paints w h b t fun y' x' =>
      if y' = y ∧ x' < n then b.pixel w (y + d) x' else b.pixel w y' x') ?_ ?_
    · refine (Paints.refl w h b).congr fun y' x' _ => ?_
      rw [if_neg (by omega)]
    · intro n hn t ht
      -- the row copied from is not written by this loop
      have hval : t.cells (src n) = b.pixel w (y + d) n := by
        have hpixel := ht.pixel (y + d) n hn
        rw [if_neg (by omega)] at hpixel
        rw [hsrc n hn]
        exact hpixel
      rw [hidx n hn, hval]
      refine (ht.store hn hy _).congr fun y' x' _ => ?_
      by_cases hnew : y' = y ∧ x' = n
      · rw [if_pos hnew, if_pos (by omega), hnew.2]
      · rw [if_neg hnew]
        have hiff : (y' = y ∧ x' < n + 1) ↔ (y' = y ∧ x' < n) := by omega
        simp only [hiff]
  refine hloop.congr fun y' x' hx' => ?_
  simp only [hx', and_true]

/-- Rows 0 to n - 1 are each copied from the row d further down, top row first, so
that each row is read before it is written. -/
theorem paints_copyRows {d n : ℕ} {row : ℕ → Buffer α → Buffer α}
    (hrow : ∀ y < n, ∀ b, Paints w h b (row y b) fun y' x' =>
      if y' = y then b.pixel w (y + d) x' else b.pixel w y' x') (hd : 0 < d) (b : Buffer α) :
    Paints w h b (countedLoop n row b)
      (fun y' x' => if y' < n then b.pixel w (y' + d) x' else b.pixel w y' x') := by
  refine countedLoop_invariant (fun k t => Paints w h b t fun y' x' =>
    if y' < k then b.pixel w (y' + d) x' else b.pixel w y' x') ?_ ?_
  · refine (Paints.refl w h b).congr fun y' x' _ => ?_
    rw [if_neg (Nat.not_lt_zero y')]
  · intro k hk t ht
    refine (ht.trans (hrow k hk t)).congr fun y' x' hx' => ?_
    by_cases hnew : y' = k
    · rw [if_pos hnew, hnew, if_pos (Nat.lt_succ_self k), ht.pixel (k + d) x' hx',
        if_neg (by omega)]
    · have hiff : y' < k + 1 ↔ y' < k := by omega
      rw [if_neg hnew, ht.pixel y' x' hx']
      simp only [hiff]

end Buffer

end ClosureOS.Raster
