import Mathlib.Data.Nat.Notation

/-!
The loop that starts at a point and steps to the next one until a test succeeds,
with a body run at every point it leaves behind. The points it passes form a path, and
the loop ends exactly when there is one.
-/
namespace ClosureOS.PointerWalk

variable {α σ : Type*}

/-- while (!stop(p)) { s = body(s, p); p = next(p); } for a number of rounds. -/
def walk (stop : α → Bool) (next : α → α) (body : σ → α → σ) : ℕ → σ → α → Option (σ × α)
  | 0, _, _ => none
  | fuel + 1, s, p => if stop p then some (s, p) else walk stop next body fuel (body s p) (next p)

/-- From p on, the loop passes the points of a list and stops at e. -/
inductive Path (stop : α → Bool) (next : α → α) : α → List α → α → Prop
  | stop {p : α} (h : stop p = true) : Path stop next p [] p
  | pass {p e : α} {l : List α} (h : stop p = false) (rest : Path stop next (next p) l e) :
    Path stop next p (p :: l) e

section Paths

variable {stop : α → Bool} {next : α → α} {p e : α} {l : List α} {fuel : ℕ}

/-- Along a path the loop runs its body at the points passed, in order. -/
theorem Path.walk_eq (h : Path stop next p l e) (body : σ → α → σ) (s : σ)
    (hfuel : l.length < fuel) : walk stop next body fuel s p = some (l.foldl body s, e) := by
  induction h generalizing s fuel with
  | stop h =>
    obtain ⟨n, rfl⟩ := Nat.exists_eq_add_one_of_ne_zero (Nat.ne_of_gt hfuel)
    rw [walk, if_pos h]
    rfl
  | pass h _ ih =>
    obtain ⟨n, rfl⟩ := Nat.exists_eq_add_one_of_ne_zero (Nat.ne_of_gt (Nat.zero_lt_of_lt hfuel))
    rw [walk, if_neg (by rw [h]; exact Bool.false_ne_true), ih _ (Nat.lt_of_succ_lt_succ hfuel)]
    rfl

theorem path_nil_iff : Path stop next p [] e ↔ stop p = true ∧ e = p := by
  constructor
  · intro h
    cases h with
    | stop h => exact ⟨h, rfl⟩
  · rintro ⟨h, rfl⟩
    exact .stop h

theorem path_cons_iff {q : α} :
    Path stop next p (q :: l) e ↔ q = p ∧ stop p = false ∧ Path stop next (next p) l e := by
  constructor
  · intro h
    cases h with
    | pass h rest => exact ⟨rfl, h, rest⟩
  · rintro ⟨rfl, h, rest⟩
    exact .pass h rest

theorem Path.stop_end (h : Path stop next p l e) : stop e = true := by
  induction h with
  | stop h => exact h
  | pass _ _ ih => exact ih

/-- A loop that ends has followed a path. -/
theorem path_of_walk {body : σ → α → σ} {s s' : σ}
    (h : walk stop next body fuel s p = some (s', e)) : ∃ l, Path stop next p l e := by
  induction fuel generalizing s p with
  | zero => exact absurd h (Option.some_ne_none _).symm
  | succ fuel ih =>
    rw [walk] at h
    split at h
    · next hstop =>
      obtain ⟨_, rfl⟩ := Prod.mk.inj (Option.some.inj h)
      exact ⟨[], .stop hstop⟩
    · next hstop =>
      obtain ⟨l, hl⟩ := ih h
      exact ⟨p :: l, .pass (eq_false_of_ne_true hstop) hl⟩

theorem Path.end_unique {l' : List α} {e' : α} (h : Path stop next p l e)
    (h' : Path stop next p l' e') : e = e' := by
  induction h generalizing l' with
  | stop h =>
    cases h' with
    | stop _ => rfl
    | pass hpass _ => exact absurd (h.symm.trans hpass) (by decide)
  | pass h _ ih =>
    cases h' with
    | stop hstop => exact absurd (h.symm.trans hstop) (by decide)
    | pass _ rest => exact ih rest

/-- A path ends, so it does not pass a point that is its own successor. -/
theorem Path.next_ne (h : Path stop next p l e) (hstop : stop p = false) : next p ≠ p := by
  induction h with
  | stop h =>
    rw [h] at hstop
    exact absurd hstop.symm Bool.false_ne_true
  | pass h _ ih =>
    intro hnext
    rw [hnext] at ih
    exact ih h hnext

/-- A point that is its own successor is never left. -/
theorem walk_of_fixed {body : σ → α → σ} (hstop : stop p = false) (hnext : next p = p) (s : σ) :
    walk stop next body fuel s p = none := by
  induction fuel generalizing s with
  | zero => rfl
  | succ fuel ih =>
    rw [walk, if_neg (by rw [hstop]; exact Bool.false_ne_true), hnext]
    exact ih _

end Paths

end ClosureOS.PointerWalk
