import Mathlib.Data.Nat.Notation
import Mathlib.Logic.Function.Basic
import Mathlib.Logic.Function.Iterate

/-!
A terminal as a grid of cells with a cursor on one of them. Characters overwrite the
cell under the cursor and move it right; at the right edge they wrap, and at the bottom
the rows move up by one. A cell that was never written, or was scrolled in, is blank. The
cursor is inside the grid by its type.
-/
namespace ClosureOS

/-- The grid and the cursor; none is a blank cell. -/
structure Terminal (α : Type*) (rows cols : ℕ) where
  cell : Fin rows → Fin cols → Option α
  row : Fin rows
  col : Fin cols

namespace Terminal

variable {α : Type*} {rows cols : ℕ}

/-- All cells blank, the cursor in the first one. -/
def blank (hrows : 0 < rows) (hcols : 0 < cols) : Terminal α rows cols :=
  ⟨fun _ _ => none, ⟨0, hrows⟩, ⟨0, hcols⟩⟩

def firstCol (t : Terminal α rows cols) : Fin cols := ⟨0, t.col.pos⟩

/-- All rows move up, and a blank row comes in at the bottom. -/
def scroll (t : Terminal α rows cols) : Terminal α rows cols where
  cell r c := if h : r.val + 1 < rows then t.cell ⟨r.val + 1, h⟩ c else none
  row := t.row
  col := t.col

def carriageReturn (t : Terminal α rows cols) : Terminal α rows cols := { t with col := t.firstCol }

def newLine (t : Terminal α rows cols) : Terminal α rows cols :=
  if h : t.row.val + 1 < rows then { t.carriageReturn with row := ⟨t.row.val + 1, h⟩ }
  else t.scroll.carriageReturn

/-- The character under the cursor, with the cursor left where it is. -/
def write (a : α) (t : Terminal α rows cols) : Terminal α rows cols where
  cell r c := if r = t.row ∧ c = t.col then some a else t.cell r c
  row := t.row
  col := t.col

def put (a : α) (t : Terminal α rows cols) : Terminal α rows cols :=
  if h : t.col.val + 1 < cols then { t.write a with col := ⟨t.col.val + 1, h⟩ }
  else (t.write a).newLine

def backspace (t : Terminal α rows cols) : Terminal α rows cols :=
  { t with col := ⟨t.col.val - 1, Nat.lt_of_le_of_lt (Nat.sub_le _ _) t.col.isLt⟩ }

/-- At most size spaces, and never as many as would wrap. -/
def tab (size : ℕ) (space : α) (t : Terminal α rows cols) : Terminal α rows cols :=
  (put space)^[min size (cols - t.col.val - 1)] t

theorem scroll_cell_of_lt {t : Terminal α rows cols} {r : Fin rows} (h : r.val + 1 < rows)
    (c : Fin cols) : t.scroll.cell r c = t.cell ⟨r.val + 1, h⟩ c := dif_pos h

theorem scroll_cell_last {t : Terminal α rows cols} {r : Fin rows} (h : ¬ r.val + 1 < rows)
    (c : Fin cols) : t.scroll.cell r c = none := dif_neg h

end Terminal

end ClosureOS
