import Aesd.Foundation.Interleaving

/-! # A lock among threads

A part of the shared state says which thread owns a lock. Threads keep to the lock if a
move only takes it when it is free and only gives back what the mover owns. The owner
can then be reasoned about alone, as far as it looks at what only owners change.
-/
namespace Aesd.CriticalSection
open Interleaving
variable {ι S E V : Type} {L A : ι → Type} [DecidableEq ι]

/-- A move takes a free lock, gives back its own, or leaves it alone. -/
def KeepsTo (move : ∀ i, S → L i → A i → Except E (L i × S)) (owner : S → Option ι) : Prop :=
  ∀ i sh x a x' sh', move i sh x a = .ok (x',sh') →
    owner sh' = owner sh ∨ (owner sh = none ∧ owner sh' = some i) ∨ (owner sh = some i ∧ owner sh' = none)

variable {move : ∀ i, S → L i → A i → Except E (L i × S)} {owner : S → Option ι} {s s' : Config S L}
  {ls : List (Σ i, A i)} {l : Σ i, A i} {i : ι}

theorem owner_of_other (hk : KeepsTo move owner) (hi : i ≠ l.1) (h : step move s l = .ok s') :
    owner s'.shared = some i ↔ owner s.shared = some i := by
  obtain ⟨j,a⟩ := l
  obtain ⟨x,sh,hmove,rfl⟩ := step_ok_iff.mp h
  rcases hk j _ _ _ _ _ hmove with ho | ⟨ho,ho'⟩ | ⟨ho,ho'⟩
  · simp only [ho]
  · simp [ho,ho',hi.symm]
  · simp [ho,ho',hi.symm]

/-- A lock that its owner has lost on the way was given back by a move of that owner. -/
theorem released_by_owner (hk : KeepsTo move owner) (hrun : run move s ls = .ok s')
    (hown : owner s.shared = some i) (hlost : owner s'.shared ≠ some i) :
    ∃ t a t', Takes move s ls t ⟨i,a⟩ ∧ step move t ⟨i,a⟩ = .ok t' ∧ owner t.shared = some i ∧
      owner t'.shared = none := by
  induction ls using List.reverseRecOn generalizing s' with
  | nil =>
    obtain rfl := run_nil.mp hrun
    exact absurd hown hlost
  | append_singleton ls l ih =>
    obtain ⟨t,hpart,hstep⟩ := run_snoc.mp hrun
    by_cases ht : owner t.shared = some i
    · have hi : i = l.1 := by
        by_contra hi
        exact hlost ((owner_of_other hk hi hstep).mpr ht)
      obtain ⟨j,a⟩ := l
      obtain rfl : i = j := hi
      refine ⟨t,a,s',⟨ls,s',List.prefix_rfl,hpart,hstep⟩,hstep,ht,?_⟩
      obtain ⟨x,sh,hmove,rfl⟩ := step_ok_iff.mp hstep
      rcases hk i _ _ _ _ _ hmove with ho | ⟨-,ho⟩ | ⟨-,ho⟩
      · exact absurd (ho.trans ht) hlost
      · exact absurd ho hlost
      · exact ho
    · obtain ⟨u,a,u',htakes,hrest⟩ := ih hpart ht
      exact ⟨u,a,u',htakes.extend (List.prefix_append _ _),hrest⟩

/-- The rule of the owner. In states with an invariant the moves of the others leave the
view of the owner as it is; then a property of that view and of the owner's local state
is kept by a run in which every move of the owner keeps it together with the lock. -/
theorem owner_rule {I : Config S L → Prop} {G : Config S L → (Σ i, A i) → Prop} {view : S → V}
    {P : V → L i → Prop} (hk : KeepsTo move owner)
    (hI : ∀ t l t', I t → step move t l = .ok t' → I t')
    (others : ∀ t l t', I t → owner t.shared = some i → i ≠ l.1 → step move t l = .ok t' →
      view t'.shared = view t.shared)
    (own : ∀ t a t', I t → owner t.shared = some i → P (view t.shared) (t.locals i) → G t ⟨i,a⟩ →
      step move t ⟨i,a⟩ = .ok t' → owner t'.shared = some i ∧ P (view t'.shared) (t'.locals i))
    (hG : ∀ t l, Takes move s ls t l → G t l) (hs : I s) (hown : owner s.shared = some i)
    (hP : P (view s.shared) (s.locals i)) (hrun : run move s ls = .ok s') :
    I s' ∧ owner s'.shared = some i ∧ P (view s'.shared) (s'.locals i) := by
  refine (Visits.of_run hrun).invariant (I := fun t => I t ∧ owner t.shared = some i ∧
    P (view t.shared) (t.locals i)) ⟨hs,hown,hP⟩ ?_ hG
  rintro t ⟨j,a⟩ t' ⟨ht,hot,hPt⟩ hGt hstep
  refine ⟨hI t _ t' ht hstep,?_⟩
  by_cases hj : i = j
  · subst hj
    exact own t a t' ht hot hPt hGt hstep
  · have hview := others t ⟨j,a⟩ t' ht hot hj hstep
    have howner := (owner_of_other hk (l := ⟨j,a⟩) hj hstep).mpr hot
    obtain ⟨x,sh,-,rfl⟩ := step_ok_iff.mp hstep
    refine ⟨howner,?_⟩
    rw [hview]
    simpa [Function.update_of_ne hj] using hPt

/-- A thread that makes some moves while all others wait. -/
def solo (move : ∀ i, S → L i → A i → Except E (L i × S)) (i : ι) (sh : S) (x : L i) :
    List (A i) → Except E (L i × S)
  | [] => .ok (x,sh)
  | a :: as => (move i sh x a).bind (fun r => solo move i r.2 r.1 as)

theorem run_of_solo {as : List (A i)} {x : L i} {sh : S}
    (h : solo move i s.shared (s.locals i) as = .ok (x,sh)) :
    run move s (as.map (fun a => ⟨i,a⟩)) = .ok ⟨sh,Function.update s.locals i x⟩ := by
  induction as generalizing s with
  | nil =>
    cases h
    simp [run_nil]
  | cons a as ih =>
    cases hm : move i s.shared (s.locals i) a with
    | error e => simp [solo,hm,Except.bind] at h
    | ok r =>
      refine run_cons.mpr ⟨⟨r.2,Function.update s.locals i r.1⟩,step_ok_iff.mpr ⟨r.1,r.2,hm,rfl⟩,?_⟩
      have hrest := @ih ⟨r.2,Function.update s.locals i r.1⟩ (by simpa [solo,hm,Except.bind] using h)
      simpa using hrest

/-- The thread can come to a state with a property by moves of its own that are allowed. -/
def Reaches (move : ∀ i, S → L i → A i → Except E (L i × S)) (i : ι) (allowed : A i → Prop)
    (goal : L i → S → Prop) (sh : S) (x : L i) : Prop :=
  ∃ as x' sh', (∀ a ∈ as, allowed a) ∧ solo move i sh x as = .ok (x',sh') ∧ goal x' sh'

section
variable {allowed : A i → Prop} {goal : L i → S → Prop} {sh sh' : S} {x x' : L i} {a : A i}

omit [DecidableEq ι] in
theorem Reaches.now (h : goal x sh) : Reaches move i allowed goal sh x := ⟨[],x,sh,by simp,rfl,h⟩

omit [DecidableEq ι] in
theorem Reaches.step (ha : allowed a) (hmove : move i sh x a = .ok (x',sh'))
    (h : Reaches move i allowed goal sh' x') : Reaches move i allowed goal sh x := by
  obtain ⟨as,y,t,hallowed,has,ht⟩ := h
  exact ⟨a :: as,y,t,by simpa using ⟨ha,hallowed⟩,by simpa [solo,hmove,Except.bind] using has,ht⟩

omit [DecidableEq ι] in
theorem Reaches.mono {allowed' : A i → Prop} {goal' : L i → S → Prop} (h : Reaches move i allowed goal sh x)
    (hallowed : ∀ a, allowed a → allowed' a) (hgoal : ∀ x sh, goal x sh → goal' x sh) :
    Reaches move i allowed' goal' sh x := by
  obtain ⟨as,y,t,has,hsolo,ht⟩ := h
  exact ⟨as,y,t,fun a ha => hallowed a (has a ha),hsolo,hgoal y t ht⟩

def Freeable (move : ∀ i, S → L i → A i → Except E (L i × S)) (owner : S → Option ι) (i : ι) (sh : S)
    (x : L i) : Prop := Reaches move i (fun _ => True) (fun _ sh => owner sh = none) sh x

omit [DecidableEq ι] in
theorem Freeable.of_free (h : owner sh = none) : Freeable move owner i sh x := Reaches.now h

omit [DecidableEq ι] in
theorem Freeable.step (hmove : move i sh x a = .ok (x',sh')) (h : Freeable move owner i sh' x') :
    Freeable move owner i sh x := Reaches.step trivial hmove h

end

end Aesd.CriticalSection
