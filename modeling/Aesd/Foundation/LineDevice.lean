import Aesd.Foundation.LineStore
import Aesd.Foundation.Positions

/-! # A device of lines, seen through open files

A bounded store of records together with one position for each open file. Reading hands
out the rest of the record around the position, writing goes to the store and starts the
file over, and a record can be addressed by its number and an offset. How many records
have ever been completed tells at which place of a ring the oldest one stands.
-/
namespace Aesd.LineDevice
open Lines LineStore Window Positions
variable {α F : Type*}

structure Device (α F : Type*) where
  store : Store α
  added : ℕ
  pos : F → ℕ

def empty : Device α F := ⟨([],[]),0,fun _ => 0⟩

/-- What a read through a file hands out. -/
def next (d : Device α F) (file : F) : List α := readAt d.store.1 (d.pos file)

def size (d : Device α F) : ℕ := d.store.1.flatten.length

/-- There is a byte at this offset of the record of this number, counted from the oldest. -/
def Addressable (d : Device α F) (number offset : ℕ) : Prop :=
  number < d.store.1.length ∧ offset < (d.store.1.getD number []).length

instance (d : Device α F) (number offset : ℕ) : Decidable (Addressable d number offset) :=
  inferInstanceAs (Decidable (_ ∧ _))

def before (d : Device α F) (number : ℕ) : ℕ := ((d.store.1.map List.length).take number).sum

/-- The place of the oldest record in a ring of n places. -/
def oldest (n : ℕ) (d : Device α F) : ℕ := if d.added < n then 0 else d.added % n

/-- The store holds the newest n records, as many as there are. -/
def Filled (n : ℕ) (d : Device α F) : Prop := d.store.1.length = min n d.added

theorem filled_empty (n : ℕ) : Filled n (empty : Device α F) := by simp [Filled,empty]

variable [DecidableEq α] [DecidableEq F]

def write (sep : α) (n : ℕ) (d : Device α F) (file : F) (piece : List α) : Device α F where
  store := accept sep n d.store piece
  added := if sep ∈ piece then d.added + 1 else d.added
  pos := Function.update d.pos file 0

def moveTo (d : Device α F) (file : F) (p : ℕ) : Device α F :=
  { d with pos := Function.update d.pos file p }

theorem Filled.write {sep : α} {n : ℕ} {d : Device α F} (h : Filled n d) (file : F) (piece : List α) :
    Filled n (write sep n d file piece) := by
  unfold Filled at h ⊢
  simp only [LineDevice.write,accept]
  split
  · rw [push,length_rtake,List.length_append,List.length_singleton,h]
    omega
  · exact h

end Aesd.LineDevice
