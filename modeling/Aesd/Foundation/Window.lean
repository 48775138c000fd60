import Mathlib.Data.List.DropRight
import Mathlib.Tactic.Common

/-! # The bounded FIFO window

Pushing onto a queue of capacity n keeps the n newest elements. The queue after
any history is therefore the n-suffix of that history, and this suffix is what a
ring of n slots has to represent.
-/
namespace Aesd.Window
variable {α β : Type*}

/-- Append at the new end; the oldest element falls out of a full queue. -/
def push (n : ℕ) (q : List α) (x : α) : List α := (q ++ [x]).rtake n

@[simp] theorem length_rtake (xs : List α) (n : ℕ) : (xs.rtake n).length = min n xs.length := by
  simp only [List.rtake,List.length_drop]
  omega

theorem rtake_of_length_le {xs : List α} {n : ℕ} (h : xs.length ≤ n) : xs.rtake n = xs := by
  simp [List.rtake,Nat.sub_eq_zero_of_le h]

theorem rtake_append_of_le {xs ys : List α} {n : ℕ} (h : n ≤ ys.length) :
    (xs ++ ys).rtake n = ys.rtake n := by
  simp only [List.rtake,List.length_append]
  rw [show xs.length + ys.length - n = xs.length + (ys.length - n) by omega,List.drop_append]
  simp

theorem rtake_suffix (xs : List α) (n : ℕ) : xs.rtake n <:+ xs := List.drop_suffix _ _

theorem map_rtake (f : α → β) (xs : List α) (n : ℕ) : (xs.rtake n).map f = (xs.map f).rtake n := by
  simp [List.rtake]

theorem rtake_eq_iff {xs ys : List α} {n : ℕ} :
    xs.rtake n = ys.rtake n ↔ ∀ i < n, xs.reverse[i]? = ys.reverse[i]? := by
  rw [List.rtake_eq_reverse_take_reverse,List.rtake_eq_reverse_take_reverse,List.reverse_inj]
  constructor
  · intro h i hi
    have hget := congrArg (fun zs : List α => zs[i]?) h
    simpa [List.getElem?_take,hi] using hget
  · intro h
    refine List.ext_getElem? (fun i => ?_)
    rw [List.getElem?_take,List.getElem?_take]
    split
    · exact h i ‹_›
    · rfl

theorem rtake_suffix_rtake (xs : List α) {m n : ℕ} (h : m ≤ n) : xs.rtake m <:+ xs.rtake n := by
  simp only [List.rtake]
  exact List.drop_suffix_drop_left _ (by omega)

theorem mem_push {q : List α} {n : ℕ} {x y : α} (h : y ∈ push n q x) : y ∈ q ∨ y = x := by
  simpa using (rtake_suffix (q ++ [x]) n).subset h

theorem push_of_lt {q : List α} {n : ℕ} (h : q.length < n) (x : α) : push n q x = q ++ [x] :=
  rtake_of_length_le (by simp; omega)

theorem push_full {a : α} {q : List α} {n : ℕ} (h : q.length + 1 = n) (x : α) :
    push n (a :: q) x = q ++ [x] := by
  rw [push,List.cons_append,← List.singleton_append,rtake_append_of_le (by simp; omega),
    rtake_of_length_le (by simp; omega)]

theorem push_rtake (xs : List α) (n : ℕ) (x : α) : push n (xs.rtake n) x = (xs ++ [x]).rtake n := by
  cases n with
  | zero => simp [push]
  | succ n =>
    rw [push,List.rtake_concat_succ,List.rtake_concat_succ]
    congr 1
    simp only [List.rtake,List.length_drop,List.drop_drop]
    congr 1
    omega

/-- A whole history pushed onto the empty queue leaves its window. -/
theorem foldl_push (n : ℕ) (xs ys : List α) :
    ys.foldl (push n) (xs.rtake n) = (xs ++ ys).rtake n := by
  induction ys generalizing xs with
  | nil => simp
  | cons y ys ih => rw [List.foldl_cons,push_rtake,ih,List.append_assoc,List.singleton_append]

end Aesd.Window
