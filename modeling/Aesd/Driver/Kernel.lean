import Aesd.Foundation.Heap
import Aesd.Driver.CircularBuffer

/-! # Kernel memory as the driver uses it

kmalloc, krealloc and kfree over block identities. The allocator may refuse any
request, a granted krealloc may grow in place or move, and fresh memory holds
arbitrary bytes. An access the hardware or the allocator would not survive is a
fault, and a fault has no successor state.
-/
namespace Aesd.Kernel
open Blocks CircularBuffer

/-- No 64-bit kernel maps this much: virtual addresses have at most 57 bits. -/
abbrev kernelSpace : ℕ := 2^62

abbrev KHeap := Heap UInt8 kernelSpace

inductive Fault where
  | nullPtr
  | outOfBounds
  | useAfterFree
  | badFree
  deriving DecidableEq

instance decidableEqError {α : Type*} (x : Except Fault α) (f : Fault) : Decidable (x = .error f) :=
  match x with
  | .ok _ => isFalse (by simp)
  | .error g => decidable_of_iff (g = f) (by simp)

def fresh (junk : ℕ → UInt8) (n : ℕ) : List UInt8 := (List.range n).map junk

def kmalloc (h : KHeap) (n : ℕ) (grant : Bool) (junk : ℕ → UInt8) : Ptr × KHeap :=
  if n = 0 then (.zeroSize,h)
  else if grant then
    match h.alloc (fresh junk n) with
    | some (i,h') => (.block i,h')
    | none => (.null,h)
  else (.null,h)

/-- Releasing NULL or a zero-length allocation does nothing. -/
def kfree (h : KHeap) : Ptr → Except Fault KHeap
  | .block i =>
    match h.free i with
    | some h' => .ok h'
    | none => .error .badFree
  | _ => .ok h

/-- A refused krealloc returns NULL and keeps the old block. -/
def krealloc (h : KHeap) (p : Ptr) (n : ℕ) (grant inPlace : Bool) (junk : ℕ → UInt8) :
    Except Fault (Ptr × KHeap) :=
  if n = 0 then (kfree h p).map (fun h' => (.zeroSize,h'))
  else match p with
    | .block i =>
      match h.bytes i with
      | none => .error .useAfterFree
      | some old =>
        let new := old.take n ++ fresh junk (n - old.length)
        if !grant then .ok (.null,h)
        else if inPlace then
          match h.put i new with
          | some h' => .ok (.block i,h')
          | none => .ok (.null,h)
        else
          match h.alloc new with
          | some (j,h') => (kfree h' (.block i)).map (fun h'' => (.block j,h''))
          | none => .ok (.null,h)
    | _ => .ok (kmalloc h n grant junk)

/-- Bytes of the block behind a pointer; nothing is readable behind the others. -/
def blockBytes (h : KHeap) : Ptr → Except Fault (List UInt8)
  | .block i =>
    match h.bytes i with
    | some bs => .ok bs
    | none => .error .useAfterFree
  | .null => .error .nullPtr
  | .zeroSize => .error .outOfBounds

/-- copy_from_user: whether bytes were left uncopied. A failed copy leaves the
destination to be thrown away. -/
def copyFromUser (ok : Bool) (h : KHeap) (dst : Ptr) (src : List UInt8) (n : ℕ) :
    Except Fault (Bool × KHeap) :=
  if n = 0 then .ok (false,h)
  else match dst with
    | .block i =>
      match h.bytes i with
      | none => .error .useAfterFree
      | some old =>
        if old.length < n then .error .outOfBounds
        else if ok && n ≤ src.length then
          match h.put i (src.take n ++ old.drop n) with
          | some h' => .ok (false,h')
          | none => .error .outOfBounds
        else .ok (true,h)
    | .null => .error .nullPtr
    | .zeroSize => .error .outOfBounds

@[simp] theorem length_fresh (junk : ℕ → UInt8) (n : ℕ) : (fresh junk n).length = n := by simp [fresh]

abbrev Block := ℕ × List UInt8

def ptrOf (b : Option Block) : Ptr := b.elim .null (fun b => .block b.1)
def bytesOf (b : Option Block) : List UInt8 := b.elim [] Prod.snd

theorem kmalloc_owns {h : KHeap} {bs : List Block} (ho : h.Owns bs) {n : ℕ} (hn : n ≠ 0)
    (grant : Bool) (junk : ℕ → UInt8) :
    kmalloc h n grant junk = (.null,h) ∨
    ∃ i h', kmalloc h n grant junk = (.block i,h') ∧ h'.Owns ((i,fresh junk n) :: bs) := by
  unfold kmalloc
  rw [if_neg hn]
  cases grant with
  | false => exact Or.inl rfl
  | true =>
    cases ha : h.alloc (fresh junk n) with
    | none => exact Or.inl rfl
    | some r => exact Or.inr ⟨r.1,r.2,rfl,ho.alloc ha⟩

theorem kfree_owns {h : KHeap} {bs : List Block} {b : Block} (ho : h.Owns (b :: bs)) :
    ∃ h', kfree h (.block b.1) = .ok h' ∧ h'.Owns bs := by
  obtain ⟨h',he,ho'⟩ := ho.free
  exact ⟨h',by simp [kfree,he],ho'⟩

theorem kfree_next {h h' : KHeap} {p : Ptr} (he : kfree h p = .ok h') : h'.next = h.next := by
  cases p with
  | block i =>
    simp only [kfree,Heap.free] at he
    split at he
    case h_1 heq =>
      split at heq
      · cases heq
        cases he
        rfl
      · cases heq
    case h_2 => cases he
  | null =>
    cases he
    rfl
  | zeroSize =>
    cases he
    rfl

/-- Growing NULL or an owned block: NULL and no change, or a block in its place that
starts with the old content. -/
theorem krealloc_owns {h : KHeap} {tmp : Option Block} {bs : List Block}
    (ho : h.Owns (tmp.toList ++ bs)) {n : ℕ} (hn : n ≠ 0) (hlen : (bytesOf tmp).length ≤ n)
    (grant inPlace : Bool) (junk : ℕ → UInt8) :
    krealloc h (ptrOf tmp) n grant inPlace junk = .ok (.null,h) ∨
    ∃ j h', krealloc h (ptrOf tmp) n grant inPlace junk = .ok (.block j,h') ∧
      h'.Owns ((j,bytesOf tmp ++ fresh junk (n - (bytesOf tmp).length)) :: bs) := by
  cases tmp with
  | none =>
    rcases kmalloc_owns ho hn grant junk with hk | ⟨i,h',hk,ho'⟩
    · exact Or.inl (by simp [krealloc,ptrOf,hn,hk])
    · exact Or.inr ⟨i,h',by simp [krealloc,ptrOf,hn,hk],by simpa [bytesOf] using ho'⟩
  | some b =>
    simp only [bytesOf,Option.elim_some] at hlen ⊢
    simp only [Option.toList_some,List.singleton_append] at ho
    have hb := ho.owned b (List.mem_cons_self ..)
    simp only [krealloc,ptrOf,if_neg hn,Option.elim_some,hb,List.take_of_length_le hlen]
    cases grant with
    | false => exact Or.inl rfl
    | true =>
      cases inPlace with
      | true =>
        cases hput : h.put b.1 (b.2 ++ fresh junk (n - b.2.length)) with
        | none => exact Or.inl rfl
        | some h' => exact Or.inr ⟨b.1,h',rfl,ho.put hput⟩
      | false =>
        cases ha : h.alloc (b.2 ++ fresh junk (n - b.2.length)) with
        | none => exact Or.inl rfl
        | some r =>
          -- the moved block is allocated first, then the old one released
          obtain ⟨h',hfree,ho'⟩ := kfree_owns ((ho.alloc ha).perm (List.Perm.swap ..))
          exact Or.inr ⟨r.1,h',by simp [hfree,Except.map],ho'⟩

theorem copyFromUser_done {h : KHeap} {bs : List Block} {i : ℕ} {old src : List UInt8}
    (ho : h.Owns ((i,old) :: bs)) (hl : old.length = src.length) (hne : src.length ≠ 0) :
    ∃ h', copyFromUser true h (.block i) src src.length = .ok (false,h') ∧
      h'.Owns ((i,src) :: bs) := by
  have hb := ho.owned (i,old) (List.mem_cons_self ..)
  obtain ⟨h',hput,ho'⟩ := ho.put_same_length hl.symm
  refine ⟨h',?_,ho'⟩
  have hcopy : src.take src.length ++ old.drop src.length = src := by simp [← hl]
  simp only [copyFromUser,if_neg hne,hb,hl,lt_irrefl,if_false,Bool.true_and,le_refl,decide_true,
    if_true,hcopy,hput]

theorem copyFromUser_left {h : KHeap} {bs : List Block} {i n : ℕ} {old : List UInt8} (src : List UInt8)
    (ho : h.Owns ((i,old) :: bs)) (hl : old.length = n) (hne : n ≠ 0) :
    copyFromUser false h (.block i) src n = .ok (true,h) := by
  have hb := ho.owned (i,old) (List.mem_cons_self ..)
  simp [copyFromUser,hne,hb,hl]

theorem blockBytes_owns {h : KHeap} {bs : List Block} {b : Block} (ho : h.Owns bs) (hb : b ∈ bs) :
    blockBytes h (.block b.1) = .ok b.2 := by
  simp [blockBytes,ho.owned b hb]

end Aesd.Kernel
