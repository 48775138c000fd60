import Mathlib.Logic.Function.Basic
import Mathlib.Data.List.Infix

/-! # Threads over shared state

A family of threads, each with its own kind of local state and moves, taking steps
in any order. A run is a list of labels; the states it visits and the steps it takes
are those up to the first label that is refused.
-/
namespace Aesd.Interleaving
variable {ι S E : Type} {L A : ι → Type}

theorem bind_eq_ok {α β : Type} {x : Except E α} {f : α → Except E β} {b : β} :
    x.bind f = .ok b ↔ ∃ a, x = .ok a ∧ f a = .ok b := by
  cases x <;> simp [Except.bind]

/-- The shared state and the local state of every thread. -/
structure Config (S : Type) (L : ι → Type) where
  shared : S
  locals : ∀ i, L i

variable [DecidableEq ι]

/-- One thread moves; the local states of the others stay. -/
def step (move : ∀ i, S → L i → A i → Except E (L i × S)) (s : Config S L) (l : Σ i, A i) :
    Except E (Config S L) :=
  (move l.1 s.shared (s.locals l.1) l.2).map (fun r => ⟨r.2,Function.update s.locals l.1 r.1⟩)

def run (move : ∀ i, S → L i → A i → Except E (L i × S)) (s : Config S L) (ls : List (Σ i, A i)) :
    Except E (Config S L) := ls.foldlM (step move) s

/-- The run of ls from s comes through t. -/
def Visits (move : ∀ i, S → L i → A i → Except E (L i × S)) (s : Config S L)
    (ls : List (Σ i, A i)) (t : Config S L) : Prop := ∃ pre, pre <+: ls ∧ run move s pre = .ok t

/-- The run of ls from s takes the step l in the state t. -/
def Takes (move : ∀ i, S → L i → A i → Except E (L i × S)) (s : Config S L)
    (ls : List (Σ i, A i)) (t : Config S L) (l : Σ i, A i) : Prop :=
  ∃ pre t', pre ++ [l] <+: ls ∧ run move s pre = .ok t ∧ step move t l = .ok t'

variable {move : ∀ i, S → L i → A i → Except E (L i × S)} {s t t' : Config S L}
  {ls pre : List (Σ i, A i)} {l : Σ i, A i}

theorem step_ok_iff {i : ι} {a : A i} : step move s ⟨i,a⟩ = .ok t ↔
    ∃ x sh, move i s.shared (s.locals i) a = .ok (x,sh) ∧
      t = ⟨sh,Function.update s.locals i x⟩ := by
  unfold step
  cases move i s.shared (s.locals i) a with
  | error e => simp [Except.map]
  | ok r => simp [Except.map,Prod.ext_iff,eq_comm]

theorem step_error_iff {i : ι} {a : A i} {e : E} :
    step move s ⟨i,a⟩ = .error e ↔ move i s.shared (s.locals i) a = .error e := by
  unfold step
  cases move i s.shared (s.locals i) a <;> simp [Except.map]

theorem run_nil : run move s [] = .ok t ↔ s = t := by simp [run,pure,Except.pure]

theorem run_snoc : run move s (ls ++ [l]) = .ok t' ↔
    ∃ t, run move s ls = .ok t ∧ step move t l = .ok t' := by
  simp only [run,List.foldlM_append,List.foldlM_cons,List.foldlM_nil]
  cases ls.foldlM (step move) s with
  | error e => simp [bind,Except.bind]
  | ok t =>
    simp only [bind,Except.bind,Except.ok.injEq,exists_eq_left']
    cases step move t l <;> simp [pure,Except.pure]

theorem run_append {ms : List (Σ i, A i)} : run move s (ls ++ ms) = .ok t' ↔
    ∃ t, run move s ls = .ok t ∧ run move t ms = .ok t' := by
  simp only [run,List.foldlM_append]
  cases ls.foldlM (step move) s <;> simp [bind,Except.bind]

theorem run_cons : run move s (l :: ls) = .ok t' ↔
    ∃ t, step move s l = .ok t ∧ run move t ls = .ok t' := by
  simp only [run,List.foldlM_cons]
  cases step move s l <;> simp [bind,Except.bind]

theorem Visits.of_run (h : run move s ls = .ok t) : Visits move s ls t :=
  ⟨ls,List.prefix_rfl,h⟩

theorem Takes.visits (h : Takes move s ls t l) : Visits move s ls t := by
  obtain ⟨pre,t',hpre,hrun,-⟩ := h
  exact ⟨pre,(List.prefix_append pre [l]).trans hpre,hrun⟩

theorem Takes.next (h : Takes move s ls t l) : ∃ t', step move t l = .ok t' ∧ Visits move s ls t' := by
  obtain ⟨pre,t',hpre,hrun,hstep⟩ := h
  exact ⟨t',hstep,pre ++ [l],hpre,run_snoc.mpr ⟨t,hrun,hstep⟩⟩

theorem Takes.extend {ms : List (Σ i, A i)} (h : Takes move s ls t l) (hls : ls <+: ms) :
    Takes move s ms t l := by
  obtain ⟨pre,t',hpre,hrest⟩ := h
  exact ⟨pre,t',hpre.trans hls,hrest⟩

theorem takes_snoc {t₀ t₁ : Config S L} {k : Σ i, A i} (hrun : run move s ls = .ok t₀)
    (hstep : step move t₀ l = .ok t₁) :
    Takes move s (ls ++ [l]) t k ↔ Takes move s ls t k ∨ (t = t₀ ∧ k = l) := by
  constructor
  · rintro ⟨pre,t',hpre,hpart,hlast⟩
    rcases List.prefix_concat_iff.mp hpre with heq | hpre
    · right
      obtain ⟨rfl,hkl⟩ := List.append_inj' heq rfl
      obtain rfl := List.singleton_inj.mp hkl
      exact ⟨Except.ok.inj (hpart.symm.trans hrun),rfl⟩
    · exact Or.inl ⟨pre,t',hpre,hpart,hlast⟩
  · rintro (h | ⟨rfl,rfl⟩)
    · exact h.extend (List.prefix_append ls [l])
    · exact ⟨ls,t₁,List.prefix_rfl,hrun,hstep⟩

theorem Takes.after {ms : List (Σ i, A i)} {s₁ : Config S L} (hrun : run move s ls = .ok s₁)
    (h : Takes move s₁ ms t l) : Takes move s (ls ++ ms) t l := by
  obtain ⟨pre,t',hpre,hpart,hstep⟩ := h
  refine ⟨ls ++ pre,t',?_,run_append.mpr ⟨s₁,hrun,hpart⟩,hstep⟩
  rw [List.append_assoc]
  exact (List.prefix_append_right_inj ls).mpr hpre

/-- What holds at the start and is kept by every step that meets the guard holds in
all visited states of a run whose steps meet the guard. -/
theorem Visits.invariant {I : Config S L → Prop} {G : Config S L → (Σ i, A i) → Prop} (hs : I s)
    (hstep : ∀ t l t', I t → G t l → step move t l = .ok t' → I t')
    (hG : ∀ t l, Takes move s ls t l → G t l) (ht : Visits move s ls t) : I t := by
  obtain ⟨pre,hpre,hrun⟩ := ht
  induction pre using List.reverseRecOn generalizing t with
  | nil =>
    obtain rfl := run_nil.mp hrun
    exact hs
  | append_singleton pre l ih =>
    obtain ⟨t₀,hrun₀,hlast⟩ := run_snoc.mp hrun
    have ht₀ := ih ((List.prefix_append pre [l]).trans hpre) hrun₀
    exact hstep t₀ l t ht₀ (hG t₀ l ⟨pre,t,hpre,hrun₀,hlast⟩) hlast

theorem Visits.always {I : Config S L → Prop} (hs : I s)
    (hstep : ∀ t l t', I t → step move t l = .ok t' → I t') (ht : Visits move s ls t) : I t :=
  ht.invariant (G := fun _ _ => True) hs (fun t l t' hI _ h => hstep t l t' hI h) (fun _ _ _ => trivial)

def Everywhere (P : ∀ i, S → L i → Prop) (s : Config S L) : Prop := ∀ i, P i s.shared (s.locals i)

/-- The mover establishes its own property again, and the others' survive the change
of the shared state. -/
theorem Everywhere.update {P : ∀ i, S → L i → Prop} (h : Everywhere P s) {i : ι} {x : L i} {sh : S}
    (own : P i sh x) (other : ∀ j, j ≠ i → P j s.shared (s.locals j) → P j sh (s.locals j)) :
    Everywhere P ⟨sh,Function.update s.locals i x⟩ := by
  intro j
  by_cases hj : j = i
  · subst hj
    simpa using own
  · simpa [Function.update_of_ne hj] using other j hj (h j)

/-- Whether a run returns and each of its steps passes a test in the state before it. -/
def stepsPass (move : ∀ i, S → L i → A i → Except E (L i × S)) (p : Config S L → (Σ i, A i) → Bool) :
    Config S L → List (Σ i, A i) → Bool
  | _, [] => true
  | s, l :: ls =>
    p s l && match step move s l with
      | .ok t => stepsPass move p t ls
      | .error _ => false

theorem pass_of_takes {p : Config S L → (Σ i, A i) → Bool} (h : stepsPass move p s ls = true)
    (ht : Takes move s ls t l) : p t l = true := by
  obtain ⟨pre,t',hpre,hrun,-⟩ := ht
  induction pre generalizing s ls with
  | nil =>
    obtain ⟨post,rfl⟩ := hpre
    obtain rfl := run_nil.mp hrun
    exact (Bool.and_eq_true_iff.mp h).1
  | cons k pre ih =>
    obtain ⟨post,rfl⟩ := hpre
    obtain ⟨s₁,hk,hrun⟩ := run_cons.mp hrun
    simp only [List.cons_append,stepsPass,hk,Bool.and_eq_true] at h
    exact ih h.2 (List.prefix_append _ _) hrun

/-- A computation that returns something with a given property. -/
def returns {α : Type} (p : α → Bool) : Except E α → Bool
  | .ok a => p a
  | .error _ => false

omit [DecidableEq ι] in
theorem exists_of_returns {α : Type} {p : α → Bool} {x : Except E α} (h : returns p x = true) :
    ∃ a, x = .ok a ∧ p a = true := by
  cases x with
  | error e => simp [returns] at h
  | ok a => exact ⟨a,rfl,h⟩

end Aesd.Interleaving
