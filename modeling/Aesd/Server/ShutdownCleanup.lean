import Aesd.Server.ConnectionTracking

/-! # Nothing is left after the shutdown

Each connection is on the list, in the hands of an activation that works on it, or
settled: its thread joined and its blocks freed. cleanup_term_conn(1) waits for every
thread that it meets, so that the list always starts with the item it looks at next, and
when signal_handler returns the list is empty. What the interrupted main thread holds is
all that can outlive the shutdown.
-/
namespace Aesd.Connections
open Interleaving SinglyLinked

/-- The connection is over: joined and freed, or never started and freed. -/
def Settled (sh : Tracking) (k : ℕ) : Prop :=
  sh.records k = .freed ∧ (sh.infos k = .freed ∧ sh.threads k = .joined ∨
    sh.infos k = .unused ∧ sh.threads k = .absent)

/-- In front of free(item) the record is freed already. -/
def Cleanup.Due (sh : Tracking) : Cleanup → Prop
  | .freeItem k _ => sh.records k = .freed ∧ sh.threads k = .joined
  | _ => True

/-- How far the activation is from its next item, when it waits for every thread. -/
def Cleanup.stage (sh : Tracking) : Cleanup → ℕ
  | .first => 5
  | .guard _ => 4
  | .join k _ => if sh.threads k = .running then 3 else 2
  | .remove _ _ => 1
  | .freeRef _ _ => 8
  | .freeItem _ _ => 7
  | .advance _ => 6

/-- The list starts with what the activation looks at next. -/
def Cleanup.Front (sh : Tracking) : Cleanup → Prop
  | .first => True
  | .guard item => sh.head = item
  | .join k tmp | .remove k tmp => sh.head = some k ∧ sh.links k = some tmp
  | .freeRef _ tmp | .freeItem _ tmp | .advance tmp => sh.head = tmp

section
variable {sh sh' : Tracking} {xs xs' : List ℕ} {k : ℕ}

theorem Settled.congr (h : Settled sh k) (hinfo : sh'.infos k = sh.infos k)
    (hrecord : sh'.records k = sh.records k) (hthread : sh'.threads k = sh.threads k) : Settled sh' k := by
  rw [Settled,hinfo,hrecord,hthread]
  exact h

theorem Cleanup.Due.congr {f : Cleanup} (h : f.Due sh)
    (hsame : ∀ k ∈ f.held, sh'.records k = sh.records k ∧ sh'.threads k = sh.threads k) : f.Due sh' := by
  cases f with
  | freeItem k tmp =>
    obtain ⟨hrecord,hthread⟩ := hsame k rfl
    rw [Cleanup.Due,hrecord,hthread]
    exact h
  | _ => trivial

/-- What becomes of the connections that an activation can reach. One that waits for
every thread comes nearer to its end. -/
structure Passes (await : Bool) (sh : Tracking) (xs : List ℕ) (f : Cleanup) (f' : Option Cleanup)
    (sh' : Tracking) (xs' : List ℕ) : Prop where
  count : sh'.count = sh.count
  each : ∀ k, k ∈ xs ∨ k ∈ f.held → k ∈ xs' ∨ (∃ g ∈ f', k ∈ g.held) ∨ Settled sh' k
  due : ∀ g ∈ f', g.Due sh'
  nearer : await = true → ∀ g ∈ f', 9 * xs'.length + g.stage sh' < 9 * xs.length + f.stage sh

theorem Passes.same {await : Bool} {f g : Cleanup} (hcount : sh'.count = sh.count) (hheld : f.held = none)
    (hdue : g.Due sh') (hnearer : await = true → g.stage sh' < f.stage sh) :
    Passes await sh xs f (some g) sh' xs := by
  refine ⟨hcount,fun k hk => .inl ?_,?_,?_⟩
  · simpa [hheld] using hk
  · intro g' hg'
    rwa [← Option.mem_some_iff.mp hg']
  · intro hawait g' hg'
    rw [← Option.mem_some_iff.mp hg']
    have := hnearer hawait
    omega

/-- No connection gets lost in a statement of cleanup_term_conn. -/
theorem cleanup_passes {await : Bool} {f : Cleanup} {f' : Option Cleanup}
    (ht : Tracked sh xs f.joining) (hf : f.Ok sh xs) (hdue : f.Due sh)
    (h : cleanupTermConn await sh f = .ok (f',sh')) (hchain : Chain sh'.links sh'.head xs') :
    Passes await sh xs f f' sh' xs' := by
  have hunmoved : sh'.infos = sh.infos → sh'.head = sh.head → xs' = xs := by
    intro hinfos hhead
    rw [links_congr hinfos,hhead] at hchain
    exact hchain.unique ht.chain
  cases f with
  | first =>
    cases h
    obtain rfl := hunmoved rfl rfl
    exact .same rfl rfl trivial (fun _ => by simp [Cleanup.stage])
  | guard item =>
    cases item with
    | none =>
      cases h
      obtain rfl := hunmoved rfl rfl
      exact ⟨rfl,fun k hk => .inl (by simpa [Cleanup.held] using hk),by simp,by simp⟩
    | some k =>
      obtain ⟨p,hp⟩ := ht.infos k (hf k rfl)
      simp only [cleanupTermConn,hp,access,bind,Except.bind,pure,Except.pure,Except.ok.injEq,
        Prod.mk.injEq] at h
      obtain ⟨rfl,rfl⟩ := h
      obtain rfl := hunmoved rfl rfl
      refine .same rfl rfl trivial (fun _ => ?_)
      simp only [Cleanup.stage]
      split <;> omega
  | join k tmp =>
    obtain ⟨p,hp⟩ := ht.infos k hf.1
    simp only [cleanupTermConn,hp,access,bind,Except.bind,pure,Except.pure] at h
    split at h
    case h_1 hterm =>
      cases h
      obtain rfl := hunmoved rfl rfl
      exact .same rfl rfl trivial (fun _ => by simp [Cleanup.stage,hterm])
    · split at h
      case isTrue => cases h
      case isFalse hawait =>
        cases h
        obtain rfl := hunmoved rfl rfl
        exact .same rfl rfl trivial (fun htrue => absurd htrue hawait)
    · cases h
    · cases h
  | remove k tmp =>
    obtain ⟨sh₁,hsh,htracked,-⟩ := Tracked.remove ht hf.1.1
    obtain ⟨sh₂,hsh₂,-,-,-,-,-,hcount⟩ := slistRemove_spec ht hf.1.1
    obtain rfl := Except.ok.inj (hsh.symm.trans hsh₂)
    simp only [cleanupTermConn,hsh,bind,Except.bind,pure,Except.pure,Except.ok.injEq,Prod.mk.injEq] at h
    obtain ⟨rfl,rfl⟩ := h
    obtain rfl := hchain.unique htracked.chain
    refine ⟨hcount,fun i hi => ?_,by simp [Cleanup.Due],?_⟩
    · by_cases hik : i = k
      · exact .inr (.inl ⟨_,rfl,by simp [Cleanup.held,hik]⟩)
      · refine .inl ((List.mem_erase_of_ne hik).mpr ?_)
        simpa [Cleanup.held] using hi
    · rintro - g ⟨⟩
      have hpos := List.length_pos_of_mem hf.1.1
      rw [List.length_erase_of_mem hf.1.1]
      simp only [Cleanup.stage]
      omega
  | freeRef k tmp =>
    obtain ⟨⟨-,⟨p,hp⟩,-⟩,hrecord,hjoined⟩ := hf
    simp only [cleanupTermConn,hp,hrecord,access,free,bind,Except.bind,pure,Except.pure,Except.ok.injEq,
      Prod.mk.injEq] at h
    obtain ⟨rfl,rfl⟩ := h
    obtain rfl := hunmoved rfl rfl
    refine ⟨rfl,fun i hi => hi.imp_right (fun hheld => .inl ⟨_,rfl,hheld⟩),?_,?_⟩
    · rintro g ⟨⟩
      exact ⟨by simp,hjoined⟩
    · rintro - g ⟨⟩
      simp [Cleanup.stage]
  | freeItem k tmp =>
    obtain ⟨hk,⟨p,hp⟩,-⟩ := hf
    have hafter := (ht.freeItem hk hp).chain
    simp only [cleanupTermConn,hp,free,bind,Except.bind,pure,Except.pure,Except.ok.injEq,
      Prod.mk.injEq] at h
    obtain ⟨rfl,rfl⟩ := h
    obtain rfl := hchain.unique hafter
    refine ⟨rfl,fun i hi => hi.imp_right (fun hheld => .inr ?_),by simp [Cleanup.Due],?_⟩
    · obtain rfl := Option.mem_some_iff.mp hheld
      exact ⟨hdue.1,.inl ⟨by simp,hdue.2⟩⟩
    · rintro - g ⟨⟩
      simp [Cleanup.stage]
  | advance tmp =>
    cases h
    obtain rfl := hunmoved rfl rfl
    exact .same rfl rfl trivial (fun _ => by simp [Cleanup.stage])

/-- An activation that waits for every thread leaves nothing behind. -/
theorem cleanup_front {f : Cleanup} {f' : Option Cleanup} (hf : f.Front sh)
    (h : cleanupTermConn true sh f = .ok (f',sh')) :
    (∀ g ∈ f', g.Front sh') ∧ (f' = none → sh'.head = none) := by
  cases f with
  | first =>
    cases h
    exact ⟨by simp [Cleanup.Front],by simp⟩
  | guard item =>
    cases item with
    | none =>
      cases h
      exact ⟨by simp,fun _ => hf⟩
    | some k =>
      simp only [cleanupTermConn,bind,Except.bind] at h
      cases hi : sh.infos k with
      | live i =>
        simp only [hi,access,pure,Except.pure,Except.ok.injEq,Prod.mk.injEq] at h
        obtain ⟨rfl,rfl⟩ := h
        refine ⟨?_,by simp⟩
        rintro g ⟨⟩
        exact ⟨hf,by simp [Tracking.links,hi]⟩
      | _ => simp [hi,access] at h
  | join k tmp =>
    simp only [cleanupTermConn,bind,Except.bind] at h
    cases hi : sh.infos k with
    | live i =>
      simp only [hi,access,if_true,pure,Except.pure] at h
      split at h
      · cases h
        refine ⟨?_,by simp⟩
        rintro g ⟨⟩
        exact hf
      · cases h
      · cases h
      · cases h
    | _ => simp [hi,access] at h
  | remove k tmp =>
    obtain ⟨hhead,hlink⟩ := hf
    simp only [cleanupTermConn,slistRemove,if_pos hhead,bind,Except.bind] at h
    cases hi : sh.infos k with
    | live i =>
      simp only [hi,access,pure,Except.pure,Except.ok.injEq,Prod.mk.injEq] at h
      obtain ⟨rfl,rfl⟩ := h
      refine ⟨?_,by simp⟩
      rintro g ⟨⟩
      simpa [Cleanup.Front,Tracking.links,hi] using hlink
    | _ => simp [hi,access] at h
  | freeRef k tmp =>
    obtain ⟨i,-,h⟩ := bind_eq_ok.mp h
    obtain ⟨cell,-,h⟩ := bind_eq_ok.mp h
    cases h
    exact ⟨by simpa [Cleanup.Front] using hf,by simp⟩
  | freeItem k tmp =>
    obtain ⟨cell,-,h⟩ := bind_eq_ok.mp h
    cases h
    exact ⟨by simpa [Cleanup.Front] using hf,by simp⟩
  | advance tmp =>
    cases h
    exact ⟨by simpa [Cleanup.Front] using hf,by simp⟩

/-! ## The main thread and the handler -/

def MainPc.Due (sh : Tracking) : MainPc → Prop
  | .cleanup f => f.Due sh
  | _ => True

def HandlerPc.Due (sh : Tracking) : HandlerPc → Prop
  | .cancel _ => True
  | .cleanup f => f.Due sh

def HandlerPc.Front (sh : Tracking) : HandlerPc → Prop
  | .cancel _ => True
  | .cleanup f => f.Front sh

/-- Where each connection is. -/
structure Ledger (sh : Tracking) (xs : List ℕ) (pc : MainPc) (handler : Option HandlerPc) : Prop where
  each : ∀ k < sh.count, k ∈ xs ∨ k ∈ pc.held ∨ (∃ h ∈ handler, k ∈ h.held) ∨ Settled sh k
  mainDue : pc.Due sh
  handlerDue : ∀ h ∈ handler, h.Due sh
  front : ∀ h ∈ handler, h.Front sh

def Accounted (sh : Tracking) (m : MainThread) : Prop :=
  ∃ xs, Chain sh.links sh.head xs ∧ Ledger sh xs m.pc m.handler

theorem Accounted.chain {m : MainThread} (h : Accounted sh m) : ∃ xs, Chain sh.links sh.head xs := by
  obtain ⟨xs,hchain,-⟩ := h
  exact ⟨xs,hchain⟩

theorem CleanupStep.settled {f : Cleanup} {f' : Option Cleanup} (h : CleanupStep sh xs f f' sh' xs')
    (hxs : k ∉ xs) (hf : k ∉ f.held) (hk : Settled sh k) : Settled sh' k := by
  obtain ⟨hinfo,hrecord,hthread⟩ := h.frame k hxs hf
  exact hk.congr hinfo hrecord hthread

theorem Ledger.cleanup {await : Bool} {f : Cleanup} {f' : Option Cleanup} {others : ℕ → Prop}
    (hbooks : ∀ k < sh.count, k ∈ xs ∨ k ∈ f.held ∨ others k ∨ Settled sh k)
    (ht : Tracked sh xs f.joining) (hf : f.Ok sh xs) (hdue : f.Due sh)
    (h : cleanupTermConn await sh f = .ok (f',sh')) :
    ∃ xs', Chain sh'.links sh'.head xs' ∧ CleanupStep sh xs f f' sh' xs' ∧ (∀ g ∈ f', g.Due sh') ∧
      ∀ k < sh'.count, k ∈ xs' ∨ (∃ g ∈ f', k ∈ g.held) ∨ others k ∨ Settled sh' k := by
  obtain hblocked | ⟨g,sh₁,xs',hstep,hspec⟩ := cleanup_spec await ht hf
  · simp [hblocked] at h
  obtain ⟨rfl,rfl⟩ := Prod.mk.inj (Except.ok.inj (hstep.symm.trans h))
  have hchain := hspec.tracked.chain
  have hpasses := cleanup_passes ht hf hdue h hchain
  refine ⟨xs',hchain,hspec,hpasses.due,?_⟩
  intro k hk
  rw [hpasses.count] at hk
  by_cases hown : k ∈ xs ∨ k ∈ f.held
  · exact (hpasses.each k hown).imp_right (Or.imp_right .inr)
  · obtain ⟨hxs,hheld⟩ := not_or.mp hown
    obtain hmem | hmem | hothers | hsettled := hbooks k hk
    · exact absurd hmem hxs
    · exact absurd hmem hheld
    · exact .inr (.inr (.inl hothers))
    · exact .inr (.inr (.inr (hspec.settled hxs hheld hsettled)))

theorem Ledger.each_plain {pc : MainPc} (h : Ledger sh xs pc none) :
    ∀ k < sh.count, k ∈ xs ∨ k ∈ pc.held ∨ Settled sh k := by
  intro k hk
  obtain hmem | hheld | ⟨h',⟨⟩,-⟩ | hsettled := h.each k hk
  · exact .inl hmem
  · exact .inr (.inl hheld)
  · exact .inr (.inr hsettled)

theorem Ledger.plain {pc : MainPc} (heach : ∀ k < sh.count, k ∈ xs ∨ k ∈ pc.held ∨ Settled sh k)
    (hdue : pc.Due sh) : Ledger sh xs pc none := by
  refine ⟨fun k hk => ?_,hdue,by simp,by simp⟩
  exact (heach k hk).imp_right (Or.imp_right .inr)

theorem main_accounted {ok : Bool} {pc pc' : MainPc} (ht : Tracked sh xs pc.joining) (hpc : pc.Ok sh xs)
    (h : Ledger sh xs pc none) (hstep : mainStep ok sh pc = .ok (pc',sh')) : Accounted sh' ⟨pc',none⟩ := by
  have hbooks := h.each_plain
  cases pc with
  | check =>
    cases hstep
    refine ⟨xs,ht.chain,.plain (fun k hk => ?_) ?_⟩
    · refine (hbooks k hk).imp_right (Or.imp_left ?_)
      simp [MainPc.held]
    · cases sh.stopApp <;> trivial
  | accept =>
    cases ok with
    | false =>
      cases hstep
      exact ⟨xs,ht.chain,.plain hbooks trivial⟩
    | true =>
      cases hstep
      refine ⟨xs,ht.accept.chain,.plain (fun k hk => ?_) trivial⟩
      by_cases hkc : k = sh.count
      · exact .inr (.inl (by simp [MainPc.held,hkc]))
      · simp only at hk
        obtain hmem | hheld | hsettled := hbooks k (by omega)
        · exact .inl hmem
        · simp [MainPc.held] at hheld
        · exact .inr (.inr (hsettled.congr rfl (by simp [Function.update_of_ne hkc]) rfl))
  | create c =>
    cases ok with
    | false =>
      cases hstep
      exact ⟨xs,ht.chain,.plain hbooks trivial⟩
    | true =>
      cases hstep
      refine ⟨xs,ht.chain,.plain (fun k hk => ?_) trivial⟩
      obtain hmem | hheld | hsettled := hbooks k hk
      · exact .inl hmem
      · exact .inr (.inl hheld)
      · have hkc : k ≠ c := by
          rintro rfl
          simp [Settled,hpc.2.1] at hsettled
        exact .inr (.inr (hsettled.congr rfl rfl (by simp [Function.update_of_ne hkc])))
  | insert c =>
    cases hstep
    obtain ⟨hinfo,hrecord,hthread⟩ := hpc
    refine ⟨c :: xs,(ht.insertHead hinfo hrecord hthread).chain,.plain (fun k hk => ?_) trivial⟩
    obtain hmem | hheld | hsettled := hbooks k hk
    · exact .inl (List.mem_cons_of_mem _ hmem)
    · obtain rfl := Option.mem_some_iff.mp hheld
      exact .inl List.mem_cons_self
    · have hkc : k ≠ c := by
        rintro rfl
        simp [Settled,hrecord] at hsettled
      exact .inr (.inr (hsettled.congr (by simp [slistInsertHead,Function.update_of_ne hkc]) rfl rfl))
  | discard c =>
    obtain ⟨hinfo,hrecord,habsent⟩ := hpc
    simp only [mainStep,hrecord,free,bind,Except.bind,pure,Except.pure,Except.ok.injEq,Prod.mk.injEq] at hstep
    obtain ⟨rfl,rfl⟩ := hstep
    refine ⟨xs,ht.chain,.plain (fun k hk => ?_) trivial⟩
    by_cases hkc : k = c
    · subst hkc
      exact .inr (.inr ⟨by simp,.inr ⟨hinfo,habsent⟩⟩)
    · obtain hmem | hheld | hsettled := hbooks k hk
      · exact .inl hmem
      · exact absurd (Option.mem_some_iff.mp hheld).symm hkc
      · exact .inr (.inr (hsettled.congr rfl (by simp [Function.update_of_ne hkc]) rfl))
  | cleanup f =>
    obtain ⟨⟨f',sh₁⟩,hrun,hstep⟩ := bind_eq_ok.mp hstep
    have hbooks' : ∀ k < sh.count, k ∈ xs ∨ k ∈ f.held ∨ False ∨ Settled sh k := fun k hk =>
      (hbooks k hk).imp_right (Or.imp_right .inr)
    obtain ⟨xs',hchain,-,hdue,hafter⟩ := Ledger.cleanup hbooks' ht hpc h.mainDue hrun
    cases f' with
    | none =>
      cases hstep
      exact ⟨xs',hchain,.plain (fun k hk => by simpa [MainPc.held] using hafter k hk) trivial⟩
    | some g =>
      cases hstep
      exact ⟨xs',hchain,.plain (fun k hk => by simpa [MainPc.held] using hafter k hk) (hdue g rfl)⟩
  | exited => cases hstep

theorem MainPc.Due.congr {pc : MainPc} (h : pc.Due sh)
    (hsame : ∀ k ∈ pc.held, sh'.records k = sh.records k ∧ sh'.threads k = sh.threads k) : pc.Due sh' := by
  cases pc with
  | cleanup f => exact Cleanup.Due.congr h hsame
  | _ => trivial

theorem handler_accounted {pc : MainPc} {h : HandlerPc} {h' : Option HandlerPc}
    (ht : Tracked sh xs h.joining) (hpc : pc.Ok sh xs) (hh : h.Ok sh xs)
    (hapart : ∀ k ∈ pc.held, k ∉ h.held) (hl : Ledger sh xs pc (some h))
    (hstep : handlerStep sh h = .ok (h',sh')) :
    Accounted sh' ⟨pc,h'⟩ ∧ (h' = none → sh'.head = none) := by
  have hoff := hpc.held_notMem ht
  cases h with
  | cancel conn =>
    have hbooks : ∀ k < sh.count, k ∈ xs ∨ k ∈ pc.held ∨ Settled sh k := by
      intro k hk
      simpa [HandlerPc.held] using hl.each k hk
    cases conn with
    | none =>
      cases hstep
      refine ⟨⟨xs,ht.chain,⟨fun k hk => ?_,hl.mainDue,?_,?_⟩⟩,by simp⟩
      · exact (hbooks k hk).imp_right (Or.imp_right .inr)
      · simp [HandlerPc.Due,Cleanup.Due]
      · simp [HandlerPc.Front,Cleanup.Front]
    | some c =>
      obtain ⟨p,hp⟩ := ht.infos c (hh c rfl)
      simp only [handlerStep,hp,access,bind,Except.bind,pure,Except.pure,Except.ok.injEq,
        Prod.mk.injEq] at hstep
      obtain ⟨rfl,rfl⟩ := hstep
      refine ⟨⟨xs,ht.chain,⟨fun k hk => ?_,hl.mainDue,?_,?_⟩⟩,by simp⟩
      · exact (hbooks k hk).imp_right (Or.imp_right .inr)
      · simp [HandlerPc.Due]
      · simp [HandlerPc.Front]
  | cleanup f =>
    obtain ⟨⟨f',sh₁⟩,hrun,hstep⟩ := bind_eq_ok.mp hstep
    cases hstep
    have hbooks : ∀ k < sh.count, k ∈ xs ∨ k ∈ f.held ∨ k ∈ pc.held ∨ Settled sh k := by
      intro k hk
      obtain hmem | hheld | ⟨h',hh',hheld⟩ | hsettled := hl.each k hk
      · exact .inl hmem
      · exact .inr (.inr (.inl hheld))
      · obtain rfl := Option.mem_some_iff.mp hh'
        exact .inr (.inl hheld)
      · exact .inr (.inr (.inr hsettled))
    obtain ⟨xs',hchain,hspec,hdue,hafter⟩ := Ledger.cleanup hbooks ht hh (hl.handlerDue _ rfl) hrun
    obtain ⟨hfront,hempty⟩ := cleanup_front (hl.front _ rfl) hrun
    refine ⟨⟨xs',hchain,⟨fun k hk => ?_,?_,?_,?_⟩⟩,by simpa using hempty⟩
    · obtain hmem | ⟨g,hg,hheld⟩ | hheld | hsettled := hafter k hk
      · exact .inl hmem
      · exact .inr (.inr (.inl ⟨.cleanup g,by simpa using hg,hheld⟩))
      · exact .inr (.inl hheld)
      · exact .inr (.inr (.inr hsettled))
    · refine hl.mainDue.congr (fun k hk => ?_)
      exact (hspec.frame k (hoff k hk) (hapart k hk)).2
    · intro h' hh'
      obtain ⟨g,hg,rfl⟩ := Option.map_eq_some_iff.mp hh'
      exact hdue g hg
    · intro h' hh'
      obtain ⟨g,hg,rfl⟩ := Option.map_eq_some_iff.mp hh'
      exact hfront g hg

theorem Accounted.terminate {m : MainThread} (h : Accounted sh m) (hrun : sh.threads k = .running) :
    Accounted { sh with threads := Function.update sh.threads k .terminated } m := by
  obtain ⟨xs,hchain,hl⟩ := h
  have hjoined : ∀ i, sh.threads i = .joined → Function.update sh.threads k .terminated i = .joined := by
    intro i hi
    have hik : i ≠ k := by
      rintro rfl
      simp [hrun] at hi
    simpa [Function.update_of_ne hik] using hi
  have hdue : ∀ f : Cleanup, f.Due sh →
      f.Due { sh with threads := Function.update sh.threads k .terminated } := by
    intro f hf
    cases f with
    | freeItem i tmp => exact ⟨hf.1,hjoined i hf.2⟩
    | _ => trivial
  refine ⟨xs,hchain,⟨fun i hi => ?_,?_,fun h' hh' => ?_,fun h' hh' => ?_⟩⟩
  · refine (hl.each i hi).imp_right (Or.imp_right (Or.imp_right fun hsettled => ?_))
    have hik : i ≠ k := by
      rintro rfl
      simp [Settled,hrun] at hsettled
    exact hsettled.congr rfl rfl (by simp [Function.update_of_ne hik])
  · cases hpc : m.pc with
    | cleanup f =>
      have hbefore := hl.mainDue
      rw [hpc] at hbefore
      exact hdue f hbefore
    | _ => trivial
  · cases h' with
    | cancel conn => trivial
    | cleanup f => exact hdue f (hl.handlerDue _ hh')
  · cases h' with
    | cancel conn => trivial
    | cleanup f =>
      have hbefore := hl.front _ hh'
      cases f <;> exact hbefore

end

/-! ## Runs -/

theorem mainMove_accounted {sh sh' : Tracking} {m m' : MainThread} {ok : Bool} (hs : Safe sh m)
    (hbooks : Accounted sh m) (h : mainMove sh m (.step ok) = .ok (m',sh')) :
    Accounted sh' m' ∧ (m.handler ≠ none → m'.handler = none → sh'.head = none) := by
  obtain ⟨ys,hchain,hl⟩ := hbooks
  cases hs with
  | plain xs pc ht hpc =>
    obtain rfl := hchain.unique ht.chain
    obtain ⟨⟨pc',sh₁⟩,hrun,h⟩ := bind_eq_ok.mp h
    cases h
    exact ⟨main_accounted ht hpc hl hrun,by simp⟩
  | handling xs pc h₀ ht hquiet hpc hh hapart =>
    obtain rfl := hchain.unique ht.chain
    obtain ⟨⟨h₁,sh₁⟩,hrun,h⟩ := bind_eq_ok.mp h
    cases h
    obtain ⟨hafter,hempty⟩ := handler_accounted ht hpc hh hapart hl hrun
    exact ⟨hafter,fun _ => hempty⟩

theorem Accounted.signal {sh : Tracking} {pc : MainPc} (h : Accounted sh ⟨pc,none⟩) :
    Accounted { sh with stopApp := true } ⟨pc,some (.cancel sh.head)⟩ := by
  obtain ⟨xs,hchain,hl⟩ := h
  refine ⟨xs,hchain,⟨fun k hk => ?_,?_,by simp [HandlerPc.Due],by simp [HandlerPc.Front]⟩⟩
  · exact (hl.each_plain k hk).imp_right (Or.imp_right .inr)
  · exact hl.mainDue.congr (fun k _ => ⟨rfl,rfl⟩)

theorem signal_accounted {sh sh' : Tracking} {m m' : MainThread} (hbooks : Accounted sh m)
    (h : mainMove sh m .signal = .ok (m',sh')) : Accounted sh' m' ∧ m.handler = none := by
  obtain ⟨pc,handler⟩ := m
  cases handler with
  | some h₀ => simp [mainMove] at h
  | none =>
    have hmove : (⟨pc,some (.cancel sh.head)⟩,{ sh with stopApp := true }) = (m',sh') := by
      cases pc <;> first | exact Except.ok.inj h | cases h
    obtain ⟨rfl,rfl⟩ := Prod.mk.inj hmove
    exact ⟨hbooks.signal,rfl⟩

/-- A step keeps the books, and a handler that returns leaves an empty list. -/
theorem step_accounted {s s' : Sys} {l : Σ i, ActorAct i} (hs : Safe s.shared (s.locals .main))
    (hbooks : Accounted s.shared (s.locals .main)) (h : step move s l = .ok s') :
    Accounted s'.shared (s'.locals .main) ∧
      ((s.locals .main).handler ≠ none → (s'.locals .main).handler = none → s'.shared.head = none) := by
  obtain ⟨i,act⟩ := l
  obtain ⟨x,sh,hmove,rfl⟩ := step_ok_iff.mp h
  cases i with
  | main =>
    simp only [Function.update_self]
    cases act with
    | step ok => exact mainMove_accounted hs hbooks hmove
    | signal =>
      obtain ⟨hafter,hnone⟩ := signal_accounted hbooks hmove
      exact ⟨hafter,fun hin => absurd hnone hin⟩
  | client k =>
    have hmain : Function.update s.locals (.client k) x .main = s.locals .main :=
      Function.update_of_ne (by simp) _ _
    simp only [hmain]
    refine ⟨?_,fun hin hout => absurd hout hin⟩
    by_cases hrun : s.shared.threads k = .running
    · cases act with
      | use =>
        have hrecord := hs.running hrun
        simp only [move,clientMove,hrun,hrecord,access,if_true,bind,Except.bind,pure,Except.pure,
          Except.ok.injEq,Prod.mk.injEq] at hmove
        obtain ⟨-,rfl⟩ := hmove
        exact hbooks
      | terminate =>
        simp only [move,clientMove,hrun,if_true,bind,Except.bind,pure,Except.pure,Except.ok.injEq,
          Prod.mk.injEq] at hmove
        obtain ⟨-,rfl⟩ := hmove
        exact hbooks.terminate hrun
    · simp [move,clientMove,hrun,bind,Except.bind] at hmove

theorem accounted_initial : Accounted initial.shared (initial.locals .main) :=
  ⟨[],.nil,⟨fun k hk => absurd hk (Nat.not_lt_zero k),trivial,by simp [initial],by simp [initial]⟩⟩

theorem visits_accounted {ls : List (Σ i, ActorAct i)} {s : Sys} (hs : Visits move initial ls s)
    (hquiet : ∀ t, Takes move initial ls t ⟨.main,.signal⟩ → (t.locals .main).pc.Quiet) :
    Safe s.shared (s.locals .main) ∧ Accounted s.shared (s.locals .main) := by
  apply hs.invariant (I := fun s => Safe s.shared (s.locals .main) ∧ Accounted s.shared (s.locals .main))
    (G := fun s l => l = ⟨.main,.signal⟩ → (s.locals .main).pc.Quiet) ⟨safe_initial,accounted_initial⟩
  · rintro t l t' ⟨hsafe,hbooks⟩ hG hstep
    exact ⟨step_safe hsafe hG hstep,(step_accounted hsafe hbooks hstep).1⟩
  · rintro t l htakes rfl
    exact hquiet t htakes

/-- Whenever signal_handler returns, in a run whose signals land at quiet points, the
list is empty, and every connection that the interrupted main thread does not hold is
settled: its thread was joined or never created, and its blocks are freed. -/
theorem handler_settles_all {ls : List (Σ i, ActorAct i)} {s t : Sys} {ok : Bool}
    (hs : Takes move initial ls s ⟨.main,.step ok⟩)
    (hquiet : ∀ t, Takes move initial ls t ⟨.main,.signal⟩ → (t.locals .main).pc.Quiet)
    (hstep : step move s ⟨.main,.step ok⟩ = .ok t) (hin : (s.locals .main).handler ≠ none)
    (hout : (t.locals .main).handler = none) :
    t.shared.head = none ∧ ∀ k < t.shared.count, k ∉ (t.locals .main).pc.held → Settled t.shared k := by
  obtain ⟨hsafe,hbooks⟩ := visits_accounted hs.visits hquiet
  obtain ⟨⟨xs,hchain,hl⟩,hempty⟩ := step_accounted hsafe hbooks hstep
  have hnone := hempty hin hout
  refine ⟨hnone,fun k hk hheld => ?_⟩
  rw [hnone] at hchain
  cases hchain
  rw [hout] at hl
  obtain hmem | hmain | hsettled := hl.each_plain k hk
  · simp at hmem
  · exact absurd hmain hheld
  · exact hsettled

/-- One connection is served, for another one no thread can be created, then a signal
lands and the client terminates. -/
def settlingRun : List (Σ i, ActorAct i) :=
  statements 11 ++ [⟨.main,.step false⟩] ++ statements 1 ++ [⟨.main,.signal⟩] ++ statements 4 ++
    [⟨.client 0,.terminate⟩] ++ statements 5

theorem settlingRun_settles : ∃ s t, run move initial settlingRun = .ok s ∧
    step move s ⟨.main,.step true⟩ = .ok t ∧ t.shared.head = none ∧ Settled t.shared 0 ∧
    Settled t.shared 1 := by
  obtain ⟨s,hrun,hs⟩ := exists_of_returns
    (show returns (fun s : Sys => decide ((s.locals .main).handler.isSome = true) &&
      returns (fun t : Sys => decide ((t.locals .main).handler.isNone = true ∧
        (t.locals .main).pc.held = none ∧ t.shared.count = 2)) (step move s ⟨.main,.step true⟩))
      (run move initial settlingRun) = true by decide)
  obtain ⟨hin,hnext⟩ := Bool.and_eq_true_iff.mp hs
  obtain ⟨t,hstep,ht⟩ := exists_of_returns hnext
  obtain ⟨hout,hheld,hcount⟩ := of_decide_eq_true ht
  have hpass : stepsPass move quietSignal initial (settlingRun ++ statements 1) = true := by decide
  obtain ⟨hhead,hsettled⟩ := @handler_settles_all (settlingRun ++ statements 1) s t true
    ⟨settlingRun,t,List.prefix_rfl,hrun,hstep⟩ (fun u hu => of_decide_eq_true (pass_of_takes hpass hu)) hstep
    (Option.isSome_iff_ne_none.mp (of_decide_eq_true hin)) (Option.isNone_iff_eq_none.mp hout)
  exact ⟨s,t,hrun,hstep,hhead,hsettled 0 (by omega) (by simp [hheld]),hsettled 1 (by omega) (by simp [hheld])⟩

end Aesd.Connections
