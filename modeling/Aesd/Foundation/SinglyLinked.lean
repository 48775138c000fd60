import Mathlib.Data.List.Nodup
import Mathlib.Data.List.Perm.Subperm

/-! # Singly linked lists in memory

links a is none where no node is live, and the next pointer of the node elsewhere.
-/
namespace Aesd.SinglyLinked
variable {α : Type} {links links' : α → Option (Option α)} {p : Option α} {a b c elm : α}
  {xs ys pre post : List α}

/-- The nodes from a pointer on, up to the null pointer. -/
inductive Chain (links : α → Option (Option α)) : Option α → List α → Prop
  | nil : Chain links none []
  | cons {a : α} {p : Option α} {xs : List α} (ha : links a = some p) (h : Chain links p xs) :
      Chain links (some a) (a :: xs)

theorem Chain.unique (h : Chain links p xs) (h' : Chain links p ys) : xs = ys := by
  induction h generalizing ys with
  | nil =>
    cases h'
    rfl
  | cons ha _ ih =>
    cases h' with
    | cons ha' h' =>
      obtain rfl := Option.some.inj (ha.symm.trans ha')
      rw [ih h']

theorem Chain.split (h : Chain links p (pre ++ a :: post)) :
    ∃ q, links a = some q ∧ Chain links q post := by
  induction pre generalizing p with
  | nil =>
    cases h with
    | cons ha h => exact ⟨_,ha,h⟩
  | cons b pre ih =>
    cases h with
    | cons _ h => exact ih h

theorem Chain.nodup (h : Chain links p xs) : xs.Nodup := by
  induction h with
  | nil => exact List.nodup_nil
  | @cons a p xs ha h ih =>
    refine List.nodup_cons.mpr ⟨?_,ih⟩
    intro hmem
    obtain ⟨pre,post,rfl⟩ := List.append_of_mem hmem
    obtain ⟨q,hq,hpost⟩ := h.split
    obtain rfl := Option.some.inj (ha.symm.trans hq)
    have hlen := congrArg List.length (h.unique hpost)
    simp only [List.length_append,List.length_cons] at hlen
    omega

theorem Chain.congr (h : Chain links p xs) (hl : ∀ a ∈ xs, links' a = links a) : Chain links' p xs := by
  induction h with
  | nil => exact .nil
  | cons ha _ ih =>
    refine .cons ?_ (ih (fun a hmem => hl a (List.mem_cons_of_mem _ hmem)))
    rw [hl _ List.mem_cons_self,ha]

theorem Chain.next (h : Chain links p xs) (ha : a ∈ xs) (hn : links a = some (some b)) :
    b ∈ xs ∧ b ≠ a := by
  have hnodup := h.nodup
  obtain ⟨pre,post,rfl⟩ := List.append_of_mem ha
  obtain ⟨q,hq,hpost⟩ := h.split
  obtain rfl := Option.some.inj (hn.symm.trans hq)
  cases hpost with
  | cons _ _ =>
    refine ⟨by simp,?_⟩
    rintro rfl
    simp [List.nodup_append] at hnodup

theorem Chain.head_ne (h : Chain links p (pre ++ c :: elm :: post)) : p ≠ some elm := by
  rintro rfl
  have hnodup := h.nodup
  cases pre with
  | nil =>
    cases h with
    | cons _ _ => simp at hnodup
  | cons d pre =>
    cases h with
    | cons _ _ => simp at hnodup

/-- What is left when the predecessor points past the removed node. -/
theorem Chain.unlink (h : Chain links p (pre ++ c :: elm :: post)) (hc : links' c = links elm)
    (hother : ∀ a, a ≠ c → links' a = links a) : Chain links' p (pre ++ c :: post) := by
  have hnodup := h.nodup
  induction pre generalizing p with
  | nil =>
    cases h with
    | cons _ h =>
      cases h with
      | cons helm h =>
        refine .cons (hc.trans helm) (h.congr ?_)
        intro a ha
        refine hother a ?_
        rintro rfl
        simp [ha] at hnodup
  | cons b pre ih =>
    cases h with
    | cons hb h =>
      have hbc : b ≠ c := by
        rintro rfl
        simp at hnodup
      refine .cons ?_ (ih h (List.nodup_cons.mp hnodup).2)
      rw [hother b hbc,hb]

/-- Why a walk along the list does not find a predecessor. -/
inductive Stray where
  | null
  | dead
  | endless

variable [DecidableEq α]

/-- The node whose next pointer is elm, from a pointer on, in a bounded number of steps. -/
def findPrev (links : α → Option (Option α)) (elm : α) : ℕ → Option α → Except Stray α
  | 0, _ => .error .endless
  | _+1, none => .error .null
  | n+1, some c => match links c with
    | none => .error .dead
    | some q => if q = some elm then .ok c else findPrev links elm n q

theorem Chain.findPrev {fuel : ℕ} (h : Chain links p (pre ++ c :: elm :: post))
    (hfuel : pre.length < fuel) : findPrev links elm fuel p = .ok c := by
  induction pre generalizing p fuel with
  | nil =>
    obtain ⟨n,rfl⟩ : ∃ n, fuel = n + 1 := ⟨fuel - 1,by omega⟩
    cases h with
    | cons hc h =>
      cases h with
      | cons _ _ => simp [SinglyLinked.findPrev,hc]
  | cons b pre ih =>
    simp only [List.length_cons] at hfuel
    obtain ⟨n,rfl⟩ : ∃ n, fuel = n + 1 := ⟨fuel - 1,by omega⟩
    cases h with
    | cons hb h =>
      simp only [SinglyLinked.findPrev,hb,if_neg h.head_ne]
      exact ih h (by omega)

end Aesd.SinglyLinked
