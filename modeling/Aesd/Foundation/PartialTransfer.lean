import Mathlib.Data.List.Infix
import Mathlib.Algebra.Order.BigOperators.Group.List
import Mathlib.Tactic.Common

/-! # Pieces of which only a front is taken

A sequence of pieces is offered, and of each piece some first elements are taken; the
remainder of a piece is not offered again. What is taken then has gaps, unless every
piece is taken as a whole. It can still look like a front of what is offered, exactly
if each element taken equals the one that stands before it by the gaps so far.
-/
namespace Aesd.PartialTransfer
variable {α : Type*}

def offered (ts : List (List α × ℕ)) : List α := ts.flatMap Prod.fst

def taken (ts : List (List α × ℕ)) : List α := ts.flatMap (fun t => t.1.take t.2)

@[simp] theorem offered_nil : offered ([] : List (List α × ℕ)) = [] := rfl
@[simp] theorem taken_nil : taken ([] : List (List α × ℕ)) = [] := rfl
@[simp] theorem offered_append (ts us : List (List α × ℕ)) :
    offered (ts ++ us) = offered ts ++ offered us := by simp [offered]
@[simp] theorem taken_append (ts us : List (List α × ℕ)) :
    taken (ts ++ us) = taken ts ++ taken us := by simp [taken]
@[simp] theorem offered_cons (t : List α × ℕ) (ts : List (List α × ℕ)) :
    offered (t :: ts) = t.1 ++ offered ts := rfl
@[simp] theorem taken_cons (t : List α × ℕ) (ts : List (List α × ℕ)) :
    taken (t :: ts) = t.1.take t.2 ++ taken ts := rfl

theorem length_taken_le (ts : List (List α × ℕ)) : (taken ts).length ≤ (offered ts).length := by
  induction ts with
  | nil => exact le_refl 0
  | cons t ts ih =>
    rw [taken_cons,offered_cons,List.length_append,List.length_append]
    exact Nat.add_le_add (List.length_take_le' _ _) ih

theorem taken_eq_offered_iff {ts : List (List α × ℕ)} :
    taken ts = offered ts ↔ ∀ t ∈ ts, t.1.length ≤ t.2 := by
  induction ts with
  | nil => simp
  | cons t ts ih =>
    rw [taken_cons,offered_cons,List.forall_mem_cons,← ih]
    constructor
    · intro h
      have hlen := congrArg List.length h
      have hle := length_taken_le ts
      simp only [List.length_append,List.length_take] at hlen
      have hwhole : t.1.length ≤ t.2 := by omega
      rw [List.take_of_length_le hwhole] at h
      exact ⟨hwhole,List.append_cancel_left h⟩
    · rintro ⟨hwhole,hrest⟩
      rw [List.take_of_length_le hwhole,hrest]

/-- Every element taken equals the one of all that stands before it by the gaps so far. -/
def Shifted (all : List α) (ts : List (List α × ℕ)) : Prop :=
  ∀ pre t, pre ++ [t] <+: ts → ∀ o, o < t.2 →
    all[(offered pre).length + o]? = all[(taken pre).length + o]?

theorem shifted_snoc {all : List α} {ts : List (List α × ℕ)} {t : List α × ℕ} :
    Shifted all (ts ++ [t]) ↔ Shifted all ts ∧
      ∀ o, o < t.2 → all[(offered ts).length + o]? = all[(taken ts).length + o]? := by
  constructor
  · intro h
    exact ⟨fun pre t' hpre => h pre t' (hpre.trans (List.prefix_append _ _)),h ts t List.prefix_rfl⟩
  · rintro ⟨hts,ht⟩ pre t' hpre
    rcases List.prefix_concat_iff.mp hpre with heq | hpre
    · obtain ⟨rfl,hlast⟩ := List.append_inj' heq rfl
      obtain rfl := List.singleton_inj.mp hlast
      exact ht
    · exact hts pre t' hpre

/-- There is no gap in front of anything if only the last piece is not taken as a whole. -/
theorem shifted_of_whole (all : List α) {ts : List (List α × ℕ)}
    (h : ∀ t ∈ ts.dropLast, t.1.length ≤ t.2) : Shifted all ts := by
  rintro pre t ⟨post,rfl⟩ o -
  have hpre : pre <+: (pre ++ [t] ++ post).dropLast := by
    rw [List.append_assoc,List.dropLast_append_of_ne_nil (by simp)]
    apply List.prefix_append
  rw [taken_eq_offered_iff.mpr (fun u hu => h u (hpre.subset hu))]

theorem append_isPrefix_iff {all xs ys : List α} :
    xs ++ ys <+: all ↔ xs <+: all ∧ ∀ o, o < ys.length → ys[o]? = all[xs.length + o]? := by
  constructor
  · rintro ⟨more,rfl⟩
    refine ⟨⟨ys ++ more,by simp⟩,fun o ho => ?_⟩
    rw [List.append_assoc,List.getElem?_append_right (by omega),Nat.add_sub_cancel_left,
      List.getElem?_append_left ho]
  · rintro ⟨⟨more,rfl⟩,h⟩
    refine (List.prefix_append_right_inj xs).mpr (List.prefix_iff_getElem?.mpr fun o ho => ?_)
    have hget := h o ho
    rw [List.getElem?_append_right (by omega),Nat.add_sub_cancel_left] at hget
    rw [← hget,List.getElem?_eq_getElem ho]

theorem taken_isPrefix_iff {all : List α} {ts : List (List α × ℕ)} (hfit : ∀ t ∈ ts, t.2 ≤ t.1.length)
    (hall : offered ts <+: all) : taken ts <+: all ↔ Shifted all ts := by
  induction ts using List.reverseRecOn with
  | nil =>
    constructor
    · rintro - pre t hpre
      simp at hpre
    · exact fun _ => List.nil_prefix
  | append_singleton ts t ih =>
    have hlen : t.2 ≤ t.1.length := hfit t (by simp)
    simp only [offered_append,taken_append,offered_cons,offered_nil,taken_cons,taken_nil,
      List.append_nil] at hall ⊢
    obtain ⟨hbefore,hpiece⟩ := append_isPrefix_iff.mp hall
    rw [append_isPrefix_iff,shifted_snoc,
      ih (fun t' ht' => hfit t' (List.mem_append_left _ ht')) hbefore,List.length_take,min_eq_left hlen]
    refine and_congr_right fun _ => forall₂_congr fun o ho => ?_
    rw [List.getElem?_take_of_lt ho,hpiece o (by omega)]

end Aesd.PartialTransfer
