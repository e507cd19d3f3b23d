import Mathlib.Data.List.Basic

/-! An array walked by an index, as the list before the index and the list from it on. Reading,
    inserting, overwriting and deleting at the index act on the boundary of the two lists, and a loop
    over the array is an induction on the second. -/

namespace LinuxNote.Cursor
open List

variable {α : Type*}

@[simp] theorem getElem?_cursor (pre rest : List α) (x : α) :
    (pre ++ x :: rest)[pre.length]? = some x := by simp

theorem getElem?_cursor_head (pre rest : List α) : (pre ++ rest)[pre.length]? = rest.head? := by
  rw [getElem?_append_right (Nat.le_refl _), Nat.sub_self, head?_eq_getElem?]

@[simp] theorem getElem?_cursor_succ (pre rest : List α) (x y : α) :
    (pre ++ x :: y :: rest)[pre.length + 1]? = some y := by
  rw [getElem?_append_right (by omega)]; simp

@[simp] theorem getElem?_cursor_end (pre : List α) : pre[pre.length]? = none := by simp

@[simp] theorem insertIdx_cursor (pre rest : List α) (x : α) :
    (pre ++ rest).insertIdx pre.length x = pre ++ x :: rest := by
  induction pre with
  | nil => simp
  | cons y pre ih => simpa using ih

@[simp] theorem set_cursor (pre rest : List α) (x y : α) :
    (pre ++ x :: rest).set pre.length y = pre ++ y :: rest := by simp

@[simp] theorem eraseIdx_cursor (pre rest : List α) (x : α) :
    (pre ++ x :: rest).eraseIdx pre.length = pre ++ rest := by
  rw [eraseIdx_append_of_length_le (Nat.le_refl _)]; simp

@[simp] theorem eraseIdx_cursor_succ (pre rest : List α) (x y : α) :
    (pre ++ x :: y :: rest).eraseIdx (pre.length + 1) = pre ++ x :: rest := by
  rw [eraseIdx_append_of_length_le (by omega)]; simp

@[simp] theorem modify_cursor (f : α → α) (pre rest : List α) (x : α) :
    (pre ++ x :: rest).modify pre.length f = pre ++ f x :: rest := by
  induction pre with
  | nil => simp
  | cons y pre ih => simpa using ih

end LinuxNote.Cursor
