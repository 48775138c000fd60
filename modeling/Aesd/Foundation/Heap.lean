import Mathlib

/-! # A heap of blocks with identities

A block is named once, by the counter at its allocation, and never again. The
record of releases is part of the heap: a well-formed heap has released exactly
those blocks once that were allocated and are no longer live, so a second
release or a release of something never allocated has no successor heap. All
live blocks together fit into the address space.
-/
namespace Aesd.Blocks
variable {β : Type*}

/-- Bytes occupied by the blocks numbered below n. -/
def total (n : ℕ) (bytes : ℕ → Option (List β)) : ℕ :=
  ((List.range n).map (fun i => ((bytes i).getD []).length)).sum

structure Heap (β : Type*) (capacity : ℕ) where
  next : ℕ
  bytes : ℕ → Option (List β)
  freed : List ℕ
  fresh : ∀ i, next ≤ i → bytes i = none
  once : ∀ i, freed.count i = if i < next ∧ bytes i = none then 1 else 0
  fits : total next bytes ≤ capacity

theorem total_succ (n : ℕ) (bytes : ℕ → Option (List β)) :
    total (n+1) bytes = total n bytes + ((bytes n).getD []).length := by
  simp [total,List.range_succ]

theorem total_congr {n : ℕ} {b c : ℕ → Option (List β)} (h : ∀ i < n, b i = c i) :
    total n b = total n c := by
  unfold total
  congr 1
  apply List.map_congr_left
  intro i hi
  rw [h i (List.mem_range.mp hi)]

theorem total_update {n i : ℕ} (hi : i < n) (b : ℕ → Option (List β)) (x : Option (List β)) :
    total n (Function.update b i x) + ((b i).getD []).length = total n b + (x.getD []).length := by
  induction n with
  | zero => omega
  | succ n ih =>
    rw [total_succ,total_succ]
    by_cases hn : i = n
    · subst hn
      have hc : total i (Function.update b i x) = total i b :=
        total_congr (fun j hj => Function.update_of_ne (by omega) _ _)
      rw [hc,Function.update_self]
      omega
    · have h := ih (by omega)
      rw [Function.update_of_ne (by omega : n ≠ i)]
      omega

theorem total_eq_sum (n : ℕ) (b : ℕ → Option (List β)) :
    total n b = ∑ i ∈ Finset.range n, ((b i).getD []).length := by
  induction n with
  | zero => rfl
  | succ n ih => rw [total_succ,ih,Finset.sum_range_succ]

namespace Heap
variable {capacity : ℕ}

def empty (β : Type*) (capacity : ℕ) : Heap β capacity where
  next := 0
  bytes _ := none
  freed := []
  fresh _ _ := rfl
  once _ := by simp
  fits := by simp [total]

/-- A fresh block with the given content, if it still fits beside the live ones. -/
def alloc (h : Heap β capacity) (bs : List β) : Option (ℕ × Heap β capacity) :=
  if hfit : total h.next h.bytes + bs.length ≤ capacity then
    some (h.next,
      { next := h.next+1
        bytes := Function.update h.bytes h.next (some bs)
        freed := h.freed
        fresh := by
          intro i hi
          rw [Function.update_of_ne (by omega)]
          exact h.fresh i (by omega)
        once := by
          intro i
          rw [h.once]
          by_cases hi : i = h.next
          · simp [hi]
          · rw [Function.update_of_ne hi]
            have : i < h.next+1 ↔ i < h.next := by omega
            simp only [this]
        fits := by
          rw [total_succ,Function.update_self]
          rwa [total_congr (fun i hi => Function.update_of_ne (Nat.ne_of_lt hi) _ _)] })
  else none

/-- Releasing a live block; there is no other way to release. -/
def free (h : Heap β capacity) (i : ℕ) : Option (Heap β capacity) :=
  if hlive : (h.bytes i).isSome then
    some
      { next := h.next
        bytes := Function.update h.bytes i none
        freed := i :: h.freed
        fresh := by
          intro j hj
          by_cases hij : j = i
          · simp [hij]
          · rw [Function.update_of_ne hij]
            exact h.fresh j hj
        once := by
          intro j
          have hi : i < h.next := by
            by_contra hn
            simp [h.fresh i (by omega)] at hlive
          by_cases hij : j = i
          · subst hij
            have hne : h.bytes j ≠ none := Option.isSome_iff_ne_none.mp hlive
            simp [h.once,hi,hne]
          · rw [Function.update_of_ne hij,List.count_cons_of_ne (Ne.symm hij),h.once]
        fits := by
          have hi : i < h.next := by
            by_contra hn
            simp [h.fresh i (by omega)] at hlive
          have ht := total_update hi h.bytes none
          have hf := h.fits
          simp only [Option.getD_none,List.length_nil,Nat.add_zero] at ht
          omega }
  else none

/-- New content for a live block, of any length that still fits. -/
def put (h : Heap β capacity) (i : ℕ) (bs : List β) : Option (Heap β capacity) :=
  if hlive : (h.bytes i).isSome ∧ total h.next (Function.update h.bytes i (some bs)) ≤ capacity then
    some
      { next := h.next
        bytes := Function.update h.bytes i (some bs)
        freed := h.freed
        fresh := by
          intro j hj
          by_cases hij : j = i
          · subst hij
            simp [h.fresh j hj] at hlive
          · rw [Function.update_of_ne hij]
            exact h.fresh j hj
        once := by
          intro j
          rw [h.once]
          by_cases hij : j = i
          · subst hij
            simp [Option.isSome_iff_ne_none.mp hlive.1]
          · rw [Function.update_of_ne hij]
        fits := hlive.2 }
  else none

theorem lt_next {h : Heap β capacity} {i : ℕ} {bs : List β} (hb : h.bytes i = some bs) : i < h.next := by
  by_contra hn
  simp [h.fresh i (by omega)] at hb

/-- The listed blocks, and no others, are allocated, with the listed contents. -/
structure Owns (h : Heap β capacity) (bs : List (ℕ × List β)) : Prop where
  owned : ∀ b ∈ bs, h.bytes b.1 = some b.2
  others : ∀ i, i ∉ bs.map Prod.fst → h.bytes i = none
  nodup : (bs.map Prod.fst).Nodup

theorem owns_empty : (empty β capacity).Owns [] := ⟨by simp,fun _ _ => rfl,by simp⟩

theorem Owns.perm {h : Heap β capacity} {bs cs : List (ℕ × List β)} (ho : h.Owns bs)
    (hp : bs.Perm cs) : h.Owns cs where
  owned b hb := ho.owned b (hp.mem_iff.mpr hb)
  others i hi := ho.others i (fun hm => hi ((hp.map Prod.fst).mem_iff.mp hm))
  nodup := (hp.map Prod.fst).nodup_iff.mp ho.nodup

theorem Owns.isSome_iff {h : Heap β capacity} {bs : List (ℕ × List β)} (ho : h.Owns bs) (i : ℕ) :
    (h.bytes i).isSome ↔ i ∈ bs.map Prod.fst := by
  constructor
  · intro hs
    by_contra hn
    simp [ho.others i hn] at hs
  · intro hm
    obtain ⟨b,hb,rfl⟩ := List.mem_map.mp hm
    simp [ho.owned b hb]

theorem Owns.bytes_eq {h h' : Heap β capacity} {bs : List (ℕ × List β)} (ho : h.Owns bs)
    (ho' : h'.Owns bs) : h.bytes = h'.bytes := by
  funext i
  by_cases hi : i ∈ bs.map Prod.fst
  · obtain ⟨b,hb,rfl⟩ := List.mem_map.mp hi
    rw [ho.owned b hb,ho'.owned b hb]
  · rw [ho.others i hi,ho'.others i hi]

theorem Owns.alloc {h h' : Heap β capacity} {bs : List (ℕ × List β)} (ho : h.Owns bs) {x : List β}
    {i : ℕ} (he : h.alloc x = some (i,h')) : h'.Owns ((i,x) :: bs) := by
  unfold Heap.alloc at he
  split at he
  · cases he
    have hfresh : h.next ∉ bs.map Prod.fst := by
      rw [← ho.isSome_iff,h.fresh _ le_rfl]
      simp
    refine ⟨?_,?_,List.nodup_cons.mpr ⟨hfresh,ho.nodup⟩⟩
    · intro b hb
      rcases List.mem_cons.mp hb with rfl | hb
      · exact Function.update_self ..
      · have hne : b.1 ≠ h.next := fun hh => hfresh (hh ▸ List.mem_map_of_mem hb)
        exact (Function.update_of_ne hne ..).trans (ho.owned b hb)
    · intro i hi
      simp only [List.map_cons,List.mem_cons,not_or] at hi
      exact (Function.update_of_ne hi.1 ..).trans (ho.others i hi.2)
  · cases he

theorem Owns.free {h : Heap β capacity} {bs : List (ℕ × List β)} {i : ℕ} {x : List β}
    (ho : h.Owns ((i,x) :: bs)) : ∃ h', h.free i = some h' ∧ h'.Owns bs := by
  have hb := ho.owned (i,x) (List.mem_cons_self ..)
  obtain ⟨hi,hn⟩ : i ∉ bs.map Prod.fst ∧ (bs.map Prod.fst).Nodup := List.nodup_cons.mp ho.nodup
  unfold Heap.free
  rw [dif_pos (by simp [hb])]
  refine ⟨_,rfl,?_,?_,hn⟩
  · intro b hm
    have hne : b.1 ≠ i := fun hh => hi (hh ▸ List.mem_map_of_mem hm)
    exact (Function.update_of_ne hne ..).trans (ho.owned b (List.mem_cons_of_mem _ hm))
  · intro j hj
    by_cases hji : j = i
    · subst hji
      exact Function.update_self ..
    · refine (Function.update_of_ne hji ..).trans (ho.others j ?_)
      simpa [hji] using hj

theorem Owns.put {h h' : Heap β capacity} {bs : List (ℕ × List β)} {i : ℕ} {x y : List β}
    (ho : h.Owns ((i,x) :: bs)) (he : h.put i y = some h') : h'.Owns ((i,y) :: bs) := by
  obtain ⟨hi,hn⟩ : i ∉ bs.map Prod.fst ∧ (bs.map Prod.fst).Nodup := List.nodup_cons.mp ho.nodup
  unfold Heap.put at he
  split at he
  · cases he
    refine ⟨?_,?_,List.nodup_cons.mpr ⟨hi,hn⟩⟩
    · intro b hb
      rcases List.mem_cons.mp hb with rfl | hm
      · exact Function.update_self ..
      · have hne : b.1 ≠ i := fun hh => hi (hh ▸ List.mem_map_of_mem hm)
        exact (Function.update_of_ne hne ..).trans (ho.owned b (List.mem_cons_of_mem _ hm))
    · intro j hj
      have hji : j ≠ i := fun hh => hj (by simp [hh])
      exact (Function.update_of_ne hji ..).trans (ho.others j hj)
  · cases he

theorem Owns.put_same_length {h : Heap β capacity} {bs : List (ℕ × List β)} {i : ℕ} {x y : List β}
    (ho : h.Owns ((i,x) :: bs)) (hl : y.length = x.length) :
    ∃ h', h.put i y = some h' ∧ h'.Owns ((i,y) :: bs) := by
  have hb := ho.owned (i,x) (List.mem_cons_self ..)
  have ht := total_update (lt_next hb) h.bytes (some y)
  have hf := h.fits
  rw [hb] at ht
  simp only [Option.getD_some] at ht
  cases he : h.put i y with
  | some h' => exact ⟨h',rfl,ho.put he⟩
  | none =>
    unfold Heap.put at he
    rw [dif_pos ⟨by simp [hb],by omega⟩] at he
    cases he

/-- Owned blocks lie side by side in the address space. -/
theorem Owns.sum_le {h : Heap β capacity} {bs : List (ℕ × List β)} (ho : h.Owns bs) :
    (bs.map (fun b => b.2.length)).sum ≤ capacity := by
  have hids : bs.map (fun b => b.2.length) =
      (bs.map Prod.fst).map (fun i => ((h.bytes i).getD []).length) := by
    rw [List.map_map]
    apply List.map_congr_left
    intro b hb
    simp [ho.owned b hb]
  rw [hids]
  generalize hg : bs.map Prod.fst = ids
  have hn : ids.Nodup := hg ▸ ho.nodup
  have hsum : (ids.map (fun i => ((h.bytes i).getD []).length)).sum =
      ∑ i ∈ ids.toFinset, ((h.bytes i).getD []).length := (List.sum_toFinset _ hn).symm
  have hzero : ∀ i ∈ ids.toFinset, i ∉ Finset.range h.next →
      ((h.bytes i).getD []).length = 0 := by
    intro i _ hi
    simp [h.fresh i (by simpa using hi)]
  have hle : ∑ i ∈ ids.toFinset, ((h.bytes i).getD []).length ≤ total h.next h.bytes := by
    rw [total_eq_sum,← Finset.sum_filter_add_sum_filter_not ids.toFinset (· ∈ Finset.range h.next)]
    have h0 : ∑ i ∈ ids.toFinset with i ∉ Finset.range h.next, ((h.bytes i).getD []).length = 0 := by
      apply Finset.sum_eq_zero
      intro i hi
      exact hzero i (Finset.mem_filter.mp hi).1 (Finset.mem_filter.mp hi).2
    rw [h0,Nat.add_zero]
    apply Finset.sum_le_sum_of_subset
    intro i hi
    exact (Finset.mem_filter.mp hi).2
  have hf := h.fits
  omega

end Heap
end Aesd.Blocks
