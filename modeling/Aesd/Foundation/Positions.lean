import Mathlib

/-! # Positions in a concatenation of pieces

A position in the concatenation is a piece together with an offset into it. A
reader that hands out the remainder of one piece at a time drains the
concatenation from any position on, with at most one read for each piece.
-/
namespace Aesd.Positions
variable {α : Type*}

/-- The piece that contains position p, and the offset of p inside of it. -/
def locate : List ℕ → ℕ → Option (ℕ × ℕ)
  | [], _ => none
  | n :: ns, p => if p < n then some (0,p) else (locate ns (p - n)).map (fun q => (q.1+1,q.2))

theorem locate_eq_none_iff (ns : List ℕ) (p : ℕ) : locate ns p = none ↔ ns.sum ≤ p := by
  induction ns generalizing p with
  | nil => simp [locate]
  | cons n ns ih =>
    simp only [locate,List.sum_cons]
    split
    case isTrue h =>
      simp only [reduceCtorEq,false_iff]
      omega
    case isFalse h =>
      rw [Option.map_eq_none_iff,ih]
      omega

theorem locate_spec {ns : List ℕ} {p k o : ℕ} (h : locate ns p = some (k,o)) :
    k < ns.length ∧ o < ns.getD k 0 ∧ p = (ns.take k).sum + o := by
  induction ns generalizing p k with
  | nil => simp [locate] at h
  | cons n ns ih =>
    simp only [locate] at h
    split at h
    case isTrue hp =>
      cases h
      simpa using hp
    case isFalse hp =>
      obtain ⟨⟨j,o'⟩,hj,heq⟩ := Option.map_eq_some_iff.mp h
      cases heq
      obtain ⟨hlt,ho,hsum⟩ := ih hj
      refine ⟨by simpa using hlt,by simpa using ho,?_⟩
      simp only [List.take_succ_cons,List.sum_cons]
      omega

theorem locate_of_lt {ns : List ℕ} {k o : ℕ} (hk : k < ns.length) (ho : o < ns.getD k 0) :
    locate ns ((ns.take k).sum + o) = some (k,o) := by
  induction ns generalizing k with
  | nil => simp at hk
  | cons n ns ih =>
    cases k with
    | zero =>
      have ho' : o < n := by simpa using ho
      simp [locate,ho']
    | succ k =>
      have hrec := ih (by simpa using hk) (by simpa using ho)
      rw [List.take_succ_cons,List.sum_cons,locate,if_neg (by omega),
        show n + (ns.take k).sum + o - n = (ns.take k).sum + o by omega,hrec]
      rfl

theorem locate_eq_some_iff {ns : List ℕ} {p k o : ℕ} :
    locate ns p = some (k,o) ↔ k < ns.length ∧ o < ns.getD k 0 ∧ p = (ns.take k).sum + o := by
  constructor
  · exact locate_spec
  · rintro ⟨hk,ho,rfl⟩
    exact locate_of_lt hk ho

theorem sum_take_succ {ns : List ℕ} {k : ℕ} (hk : k < ns.length) :
    (ns.take (k+1)).sum = (ns.take k).sum + ns.getD k 0 := by
  rw [List.take_succ_eq_append_getElem hk,List.sum_append,List.sum_singleton,List.getD_eq_getElem?_getD,
    List.getElem?_eq_getElem hk,Option.getD_some]

/-- What one read at p hands out: the rest of the piece that contains p. -/
def readAt (xs : List (List α)) (p : ℕ) : List α :=
  match locate (xs.map List.length) p with
  | none => []
  | some (k,o) => (xs.getD k []).drop o

theorem readAt_eq_nil_iff (xs : List (List α)) (p : ℕ) :
    readAt xs p = [] ↔ xs.flatten.length ≤ p := by
  rw [List.length_flatten,← locate_eq_none_iff,readAt]
  cases h : locate (xs.map List.length) p with
  | none => simp
  | some q =>
    obtain ⟨hlt,ho,-⟩ := locate_spec (k := q.1) (o := q.2) h
    rw [List.length_map] at hlt
    simp only [List.getD_eq_getElem?_getD,List.getElem?_map,List.getElem?_eq_getElem hlt,
      Option.map_some,Option.getD_some] at ho
    simp only [List.getD_eq_getElem?_getD,List.getElem?_eq_getElem hlt,Option.getD_some,reduceCtorEq,
      iff_false,List.drop_eq_nil_iff]
    omega

/-- A read hands out what stands next in the concatenation, up to the end of a piece. -/
theorem readAt_append_drop {xs : List (List α)} {p k o : ℕ}
    (h : locate (xs.map List.length) p = some (k,o)) :
    readAt xs p ++ (xs.drop (k+1)).flatten = xs.flatten.drop p ∧
      p + (readAt xs p).length = ((xs.map List.length).take (k+1)).sum := by
  obtain ⟨hlt,ho,hp⟩ := locate_spec h
  rw [List.length_map] at hlt
  have hget : (xs.map List.length).getD k 0 = xs[k].length := by
    simp [List.getD_eq_getElem?_getD,hlt]
  have hread : readAt xs p = xs[k].drop o := by
    simp [readAt,h,List.getD_eq_getElem?_getD,hlt]
  rw [hget] at ho
  have htake : (xs.take k).flatten.length = ((xs.map List.length).take k).sum := by
    rw [List.length_flatten,List.map_take]
  constructor
  · conv_rhs => rw [← List.take_append_drop k xs,List.flatten_append,List.drop_eq_getElem_cons hlt]
    rw [hread,hp,← htake,List.flatten_cons,List.drop_length_add_append,
      List.drop_append_of_le_length (by omega)]
  · rw [List.take_succ_eq_append_getElem (by simpa using hlt),List.sum_append,List.sum_singleton,
      List.getElem_map,hread,List.length_drop,hp]
    omega

theorem sum_take_le (ns : List ℕ) {a b : ℕ} (h : a ≤ b) : (ns.take a).sum ≤ (ns.take b).sum := by
  obtain ⟨c,rfl⟩ := Nat.exists_eq_add_of_le h
  rw [List.take_add,List.sum_append]
  apply Nat.le_add_right

theorem existsUnique_piece {ns : List ℕ} {p : ℕ} (hp : p < ns.sum) :
    ∃! k, k < ns.length ∧ (ns.take k).sum ≤ p ∧ p < (ns.take (k+1)).sum := by
  cases hloc : locate ns p with
  | none =>
    rw [locate_eq_none_iff] at hloc
    omega
  | some q =>
    obtain ⟨hk,ho,hsum⟩ := locate_spec (k := q.1) (o := q.2) hloc
    have hnext := sum_take_succ hk
    refine ⟨q.1,⟨hk,by omega,by omega⟩,?_⟩
    rintro j ⟨-,hle,hlt⟩
    -- the sums grow, so no other piece reaches over the position
    rcases Nat.lt_trichotomy j q.1 with hj | hj | hj
    · have hmono := sum_take_le ns (show j+1 ≤ q.1 by omega)
      omega
    · exact hj
    · have hmono := sum_take_le ns (show q.1+1 ≤ j by omega)
      omega

theorem le_of_locate {ns : List ℕ} {p k k' o' : ℕ} (hp : (ns.take k).sum ≤ p)
    (h : locate ns p = some (k',o')) : k ≤ k' := by
  obtain ⟨hlt,ho,hp'⟩ := locate_spec h
  by_contra hk
  have hle := sum_take_le ns (show k'+1 ≤ k by omega)
  rw [List.take_succ_eq_append_getElem hlt,List.sum_append,List.sum_singleton] at hle
  simp only [List.getD_eq_getElem?_getD,List.getElem?_eq_getElem hlt,Option.getD_some] at ho
  omega

theorem take_add_readAt (xs : List (List α)) (p : ℕ) :
    xs.flatten.take (p + (readAt xs p).length) = xs.flatten.take p ++ readAt xs p := by
  rw [List.take_add]
  congr 1
  cases hloc : locate (xs.map List.length) p with
  | none => simp [readAt,hloc]
  | some q =>
    rw [← (readAt_append_drop (k := q.1) (o := q.2) hloc).1]
    exact List.take_left

theorem readAt_append_drop_add (xs : List (List α)) (p : ℕ) :
    readAt xs p ++ xs.flatten.drop (p + (readAt xs p).length) = xs.flatten.drop p := by
  have htake := take_add_readAt xs p
  have hall := List.take_append_drop (p + (readAt xs p).length) xs.flatten
  rw [htake,List.append_assoc] at hall
  exact List.append_cancel_left (hall.trans (List.take_append_drop p xs.flatten).symm)

theorem sum_take_succ_le {xs : List (List α)} {p n : ℕ} (hp : ((xs.map List.length).take n).sum ≤ p)
    (h : readAt xs p ≠ []) : ((xs.map List.length).take (n+1)).sum ≤ p + (readAt xs p).length := by
  cases hloc : locate (xs.map List.length) p with
  | none => exact absurd (by simp [readAt,hloc]) h
  | some q =>
    have hn := le_of_locate hp (show locate _ _ = some (q.1,q.2) from hloc)
    rw [(readAt_append_drop (k := q.1) (o := q.2) hloc).2]
    exact sum_take_le _ (by omega)

theorem readAt_of_length_le {xs : List (List α)} {p n : ℕ} (hn : xs.length ≤ n)
    (hp : ((xs.map List.length).take n).sum ≤ p) : readAt xs p = [] := by
  rw [readAt_eq_nil_iff,List.length_flatten]
  rwa [List.take_of_length_le (by simpa using hn)] at hp

theorem length_readAt_le {xs : List (List α)} {b : ℕ} (h : ∀ x ∈ xs, x.length ≤ b) (p : ℕ) :
    (readAt xs p).length ≤ b := by
  unfold readAt
  split
  · exact Nat.zero_le b
  · rename_i k o hloc
    obtain ⟨hlt,-,-⟩ := locate_spec hloc
    rw [List.length_map] at hlt
    rw [List.getD_eq_getElem?_getD,List.getElem?_eq_getElem hlt,Option.getD_some,List.length_drop]
    exact (Nat.sub_le _ _).trans (h _ (List.getElem_mem hlt))

/-- Reads from p on until one hands out nothing, none when n reads were not enough. -/
def drain (xs : List (List α)) : ℕ → ℕ → Option (List (List α))
  | 0, _ => none
  | n+1, p =>
    let piece := readAt xs p
    if piece.length = 0 then some []
    else (drain xs n (p + piece.length)).map (fun ps => piece :: ps)

/-- From behind k pieces on, one read for each later piece and a last empty one. -/
theorem drain_spec (xs : List (List α)) (m k p : ℕ) (hk : ((xs.map List.length).take k).sum ≤ p)
    (hm : xs.length ≤ k + m) :
    ∃ pieces, drain xs (m+1) p = some pieces ∧ pieces.length ≤ m ∧ (∀ x ∈ pieces, x ≠ []) ∧
      pieces.flatten = xs.flatten.drop p := by
  induction m generalizing k p with
  | zero =>
    have hnil := readAt_of_length_le (by simpa using hm) hk
    refine ⟨[],by simp [drain,hnil],le_rfl,by simp,?_⟩
    rw [List.drop_eq_nil_of_le ((readAt_eq_nil_iff xs p).mp hnil)]
    rfl
  | succ m ih =>
    by_cases hnil : readAt xs p = []
    · refine ⟨[],by simp [drain,hnil],Nat.zero_le _,by simp,?_⟩
      rw [List.drop_eq_nil_of_le ((readAt_eq_nil_iff xs p).mp hnil)]
      rfl
    · obtain ⟨pieces,hd,hlen,hne,hflat⟩ :=
        ih (k+1) (p + (readAt xs p).length) (sum_take_succ_le hk hnil) (by omega)
      refine ⟨readAt xs p :: pieces,?_,by simpa using hlen,?_,?_⟩
      · rw [drain]
        simp only [List.length_eq_zero_iff,hnil,if_false,hd,Option.map_some]
      · intro x hx
        rcases List.mem_cons.mp hx with rfl | hx
        · exact hnil
        · exact hne x hx
      · rw [List.flatten_cons,hflat,readAt_append_drop_add]

end Aesd.Positions
