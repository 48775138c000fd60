import Mathlib.Data.List.Induction

/-! # The lifetime of a block

What a program does with a block, as a trace of its usages. A trace is in order if the
block is allocated once, used only while it is live, and freed once at most.
-/
namespace Aesd.Lifetime

inductive Usage where
  | allocate
  | use
  | free
  deriving DecidableEq

inductive Status where
  | unallocated
  | live
  | freed
  deriving DecidableEq

/-- A usage that is in order. -/
def next : Status → Usage → Option Status
  | .unallocated, .allocate => some .live
  | .live, .use => some .live
  | .live, .free => some .freed
  | _, _ => none

/-- What a trace makes of a block, none if it is not in order. -/
def status (us : List Usage) : Option Status := us.foldlM next .unallocated

end Aesd.Lifetime
