import Aesd.Foundation.Lines
import Aesd.Foundation.Window

/-! # A bounded store of records that arrive in pieces

The abstract purpose of a line device: pieces of a stream arrive one after the
other, a piece may complete a record, and the newest n completed records are
kept. Whatever the pieces are, the store only depends on their concatenation.
-/
namespace Aesd.LineStore
open Lines Window
variable {α : Type*} [DecidableEq α]

/-- Completed records and the unfinished one. -/
abbrev Store (α : Type*) := List (List α) × List α

def accept (sep : α) (n : ℕ) (st : Store α) (piece : List α) : Store α :=
  if sep ∈ piece then (push n st.1 (st.2 ++ piece),[]) else (st.1,st.2 ++ piece)

def ofStream (sep : α) (n : ℕ) (s : List α) : Store α := ((lines sep s).rtake n,rest sep s)

@[simp] theorem ofStream_nil (sep : α) (n : ℕ) : ofStream sep n [] = ([],[]) := by simp [ofStream]

theorem accept_ofStream (sep : α) (n : ℕ) (s buf : List α) :
    accept sep n (ofStream sep n s) (takeLine sep buf) = ofStream sep n (s ++ takeLine sep buf) := by
  have hr := rest_notMem sep s
  rcases first_sep sep buf with h | ⟨u,t,hu,rfl⟩
  · have hn : sep ∉ rest sep s ++ buf := by simp [hr,h]
    rw [takeLine_of_notMem h,accept,if_neg h,ofStream,ofStream,lines_append,rest_append,
      lines_of_notMem hn,rest_of_notMem hn,List.append_nil]
  · have hn : sep ∉ rest sep s ++ u := by simp [hr,hu]
    rw [takeLine_append_sep hu,accept,if_pos (by simp),ofStream,ofStream,lines_append,rest_append,
      ← List.append_assoc,lines_append_sep hn,rest_append_sep hn,push_rtake,lines_nil,rest_nil]

/-- The pieces of a run may be chopped at will. -/
theorem foldl_accept (sep : α) (n : ℕ) (s : List α) (bufs : List (List α)) :
    (bufs.map (takeLine sep)).foldl (accept sep n) (ofStream sep n s) =
      ofStream sep n (s ++ (bufs.map (takeLine sep)).flatten) := by
  induction bufs generalizing s with
  | nil => simp
  | cons buf bufs ih =>
    rw [List.map_cons,List.foldl_cons,accept_ofStream,ih,List.flatten_cons,List.append_assoc]

end Aesd.LineStore
