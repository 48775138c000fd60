import Aesd.Server.Connections
import Mathlib.Tactic

/-! # Every connection is joined and freed once

The list is described by the connections on it, oldest last. An activation of
cleanup_term_conn owns its item from SLIST_REMOVE to free; the saved tmp_item is still on
the list. The handler empties the list, so it may interrupt an activation only where the
main thread holds nothing that it will look at again.
-/
namespace Aesd.Connections
open Interleaving SinglyLinked

/-- The list is xs, and only the item joining has been joined already. -/
structure Tracked (sh : Tracking) (xs : List ℕ) (joining : Option ℕ) : Prop where
  chain : Chain sh.links sh.head xs
  infos : ∀ k ∈ xs, ∃ p, sh.infos k = .live ⟨p,k,k⟩
  records : ∀ k ∈ xs, sh.records k = .live ()
  threads : ∀ k ∈ xs, sh.threads k = .running ∨ sh.threads k = .terminated ∨
    sh.threads k = .joined ∧ joining = some k
  running : ∀ k, sh.threads k = .running → sh.records k = .live ()
  bound : ∀ k, sh.count ≤ k → sh.infos k = .unused ∧ sh.records k = .unused ∧ sh.threads k = .absent

/-- The item that is joined and still on the list. -/
def Cleanup.joining : Cleanup → Option ℕ
  | .remove k _ => some k
  | _ => none

/-- The item that is off the list and not yet freed. -/
def Cleanup.held : Cleanup → Option ℕ
  | .freeRef k _ | .freeItem k _ => some k
  | _ => none

def Cleanup.Ok (sh : Tracking) (xs : List ℕ) : Cleanup → Prop
  | .first => True
  | .guard item => ∀ t ∈ item, t ∈ xs
  | .join k tmp => k ∈ xs ∧ ∀ t ∈ tmp, t ∈ xs ∧ t ≠ k
  | .remove k tmp => (k ∈ xs ∧ ∀ t ∈ tmp, t ∈ xs ∧ t ≠ k) ∧ sh.threads k = .joined
  | .freeRef k tmp => (k ∉ xs ∧ (∃ p, sh.infos k = .live ⟨p,k,k⟩) ∧ ∀ t ∈ tmp, t ∈ xs) ∧
      sh.records k = .live () ∧ sh.threads k = .joined
  | .freeItem k tmp => k ∉ xs ∧ (∃ p, sh.infos k = .live ⟨p,k,k⟩) ∧ ∀ t ∈ tmp, t ∈ xs
  | .advance tmp => ∀ t ∈ tmp, t ∈ xs

/-- What a step of an activation in the state f does to the rest. -/
structure CleanupStep (sh : Tracking) (xs : List ℕ) (f : Cleanup) (f' : Option Cleanup)
    (sh' : Tracking) (xs' : List ℕ) : Prop where
  tracked : Tracked sh' xs' (f'.bind Cleanup.joining)
  ok : ∀ g ∈ f', g.Ok sh' xs'
  sub : xs' ⊆ xs
  held : ∀ g ∈ f', ∀ k ∈ g.held, k ∈ xs ∨ k ∈ f.held
  frame : ∀ k, k ∉ xs → k ∉ f.held → sh'.infos k = sh.infos k ∧ sh'.records k = sh.records k ∧
    sh'.threads k = sh.threads k

section
variable {sh sh' : Tracking} {xs : List ℕ} {j : Option ℕ}

theorem Tracked.link {k : ℕ} {p : Option ℕ} (hk : sh.infos k = .live ⟨p,k,k⟩) : sh.links k = some p := by
  simp [Tracking.links,hk]

theorem Tracked.lt_count {k : ℕ} (h : Tracked sh xs j) (hk : k ∈ xs) : k < sh.count := by
  by_contra hge
  obtain ⟨hunused,-,-⟩ := h.bound k (by omega)
  obtain ⟨p,hlive⟩ := h.infos k hk
  simp [hunused] at hlive

theorem Tracked.length_le (h : Tracked sh xs j) : xs.length ≤ sh.count := by
  have hsub : xs ⊆ List.range sh.count := fun k hk => List.mem_range.mpr (h.lt_count hk)
  have hle := (h.chain.nodup.subperm hsub).length_le
  simpa using hle

theorem Tracked.rest {p : Option ℕ} (h : Tracked sh xs j) (hp : ∀ t ∈ p, t ∈ xs) :
    ∃ ys, Chain sh.links p ys := by
  cases p with
  | none => exact ⟨[],.nil⟩
  | some t =>
    obtain ⟨pre,post,rfl⟩ := List.append_of_mem (hp t rfl)
    obtain ⟨q,hq,hpost⟩ := h.chain.split
    exact ⟨t :: post,.cons hq hpost⟩

theorem links_congr (h : sh'.infos = sh.infos) : sh'.links = sh.links := by
  funext k
  simp [Tracking.links,h]

theorem slistRemove_of_head {k : ℕ} {p : Option ℕ} (hhead : sh.head = some k)
    (hk : sh.infos k = .live ⟨p,k,k⟩) : slistRemove sh k = .ok { sh with head := p } := by
  simp [slistRemove,hhead,hk,access,bind,Except.bind,pure,Except.pure]

theorem slistRemove_of_prev {c k : ℕ} {p q : Option ℕ} (hhead : sh.head ≠ some k)
    (hfind : findPrev sh.links k (sh.count + 1) sh.head = .ok c) (hk : sh.infos k = .live ⟨p,k,k⟩)
    (hc : sh.infos c = .live ⟨q,c,c⟩) :
    slistRemove sh k = .ok { sh with infos := Function.update sh.infos c (.live ⟨p,c,c⟩) } := by
  simp [slistRemove,hhead,hfind,hk,hc,stray,access,bind,Except.bind,pure,Except.pure]

theorem slistRemove_spec {k : ℕ} (h : Tracked sh xs j) (hk : k ∈ xs) :
    ∃ sh', slistRemove sh k = .ok sh' ∧ Chain sh'.links sh'.head (xs.erase k) ∧
      (∀ i p, sh.infos i = .live ⟨p,i,i⟩ → ∃ q, sh'.infos i = .live ⟨q,i,i⟩) ∧
      (∀ i, i ∉ xs → sh'.infos i = sh.infos i) ∧
      sh'.records = sh.records ∧ sh'.threads = sh.threads ∧ sh'.count = sh.count := by
  obtain ⟨p,hp⟩ := h.infos k hk
  have hlen := h.length_le
  have hnodup := h.chain.nodup
  have hchain := h.chain
  have hinfos := h.infos
  obtain ⟨pre,post,rfl⟩ := List.append_of_mem hk
  obtain rfl | ⟨pre,c,rfl⟩ := List.eq_nil_or_concat' pre
  · -- the first element: only the head changes
    generalize hhead : sh.head = head at hchain
    cases hchain with
    | @cons _ q _ hlink hpost =>
      have hpq : p = q := Option.some.inj ((Tracked.link hp).symm.trans hlink)
      refine ⟨_,slistRemove_of_head hhead hp,?_,fun i q hi => ⟨q,hi⟩,fun i _ => rfl,rfl,rfl,rfl⟩
      subst hpq
      rw [List.nil_append,List.erase_cons_head]
      exact hpost
  · rw [List.append_assoc,List.singleton_append] at hlen hnodup hchain hinfos
    have hck : c ≠ k := by
      rintro rfl
      simp [List.nodup_append] at hnodup
    have hkpre : k ∉ pre := by
      intro hmem
      simp only [List.nodup_append,List.mem_cons,ne_eq,forall_eq_or_imp] at hnodup
      exact (hnodup.2.2 k hmem).2.1 rfl
    obtain ⟨q,hq⟩ := hinfos c (by simp)
    have hfind : findPrev sh.links k (sh.count + 1) sh.head = .ok c := by
      apply hchain.findPrev
      simp only [List.length_append,List.length_cons] at hlen
      omega
    have herase : (pre ++ [c] ++ k :: post).erase k = pre ++ c :: post := by
      rw [List.append_assoc,List.singleton_append,List.erase_append_right _ hkpre,
        List.erase_cons_tail (by simpa using hck),List.erase_cons_head]
    refine ⟨_,slistRemove_of_prev hchain.head_ne hfind hp hq,?_,?_,?_,rfl,rfl,rfl⟩
    · rw [herase]
      apply hchain.unlink
      · rw [Tracked.link hp]
        simp [Tracking.links]
      · intro a ha
        simp [Tracking.links,Function.update_of_ne ha]
    · intro i r hi
      by_cases hic : i = c
      · subst hic
        exact ⟨p,by simp⟩
      · exact ⟨r,by simpa [Function.update_of_ne hic] using hi⟩
    · intro i hi
      have hic : i ≠ c := by
        rintro rfl
        simp at hi
      simp [Function.update_of_ne hic]

theorem Tracked.lt_of_live {k : ℕ} {p : Option ℕ} (h : Tracked sh xs j) (hk : sh.infos k = .live ⟨p,k,k⟩) :
    k < sh.count := by
  by_contra hge
  have hunused := (h.bound k (by omega)).1
  simp [hunused] at hk

theorem Tracked.head_mem (h : Tracked sh xs j) : ∀ t ∈ sh.head, t ∈ xs := by
  intro t ht
  have hchain := h.chain
  rw [Option.mem_def.mp ht] at hchain
  cases hchain with
  | cons _ _ => exact List.mem_cons_self

theorem Tracked.join {k : ℕ} (h : Tracked sh xs none) (hk : k ∈ xs) :
    Tracked { sh with threads := Function.update sh.threads k .joined } xs (some k) := by
  refine ⟨h.chain,h.infos,h.records,?_,?_,?_⟩
  · intro i hi
    by_cases hik : i = k
    · subst hik
      exact .inr (.inr ⟨by simp,rfl⟩)
    · simp only [Function.update_of_ne hik]
      obtain hrun | hterm | ⟨-,hjoin⟩ := h.threads i hi
      · exact .inl hrun
      · exact .inr (.inl hterm)
      · simp at hjoin
  · intro i hi
    by_cases hik : i = k
    · simp [hik] at hi
    · exact h.running i (by simpa [Function.update_of_ne hik] using hi)
  · intro i hi
    have hik : i ≠ k := fun heq => absurd (h.lt_count hk) (by simp only at hi; omega)
    simpa [Function.update_of_ne hik] using h.bound i hi

theorem Tracked.freeRecord {k : ℕ} (h : Tracked sh xs none) (hk : k ∉ xs) (hlt : k < sh.count)
    (hthread : sh.threads k ≠ .running) :
    Tracked { sh with records := Function.update sh.records k .freed } xs none := by
  refine ⟨h.chain,h.infos,?_,h.threads,?_,?_⟩
  · intro i hi
    have hne : i ≠ k := ne_of_mem_of_not_mem hi hk
    simpa [Function.update_of_ne hne] using h.records i hi
  · intro i hi
    have hne : i ≠ k := by
      rintro rfl
      exact hthread hi
    simpa [Function.update_of_ne hne] using h.running i hi
  · intro i hi
    simp only at hi
    have hne : i ≠ k := by omega
    simpa [Function.update_of_ne hne] using h.bound i hi

theorem Tracked.freeItem {k : ℕ} {p : Option ℕ} (h : Tracked sh xs none) (hk : k ∉ xs)
    (hlive : sh.infos k = .live ⟨p,k,k⟩) :
    Tracked { sh with infos := Function.update sh.infos k .freed } xs none := by
  have hne : ∀ i ∈ xs, i ≠ k := fun i hi => ne_of_mem_of_not_mem hi hk
  refine ⟨?_,?_,h.records,h.threads,h.running,?_⟩
  · apply h.chain.congr
    intro i hi
    simp [Tracking.links,Function.update_of_ne (hne i hi)]
  · intro i hi
    simpa [Function.update_of_ne (hne i hi)] using h.infos i hi
  · intro i hi
    have hik : i ≠ k := fun heq => absurd (h.lt_of_live hlive) (by simp only at hi; omega)
    simpa [Function.update_of_ne hik] using h.bound i hi

theorem Tracked.remove {k : ℕ} (h : Tracked sh xs (some k)) (hk : k ∈ xs) :
    ∃ sh', slistRemove sh k = .ok sh' ∧ Tracked sh' (xs.erase k) none ∧
      (∃ p, sh'.infos k = .live ⟨p,k,k⟩) ∧ (∀ i, i ∉ xs → sh'.infos i = sh.infos i) ∧
      sh'.records = sh.records ∧ sh'.threads = sh.threads := by
  obtain ⟨sh',hsh,hchain,hlive,hother,hrecords,hthreads,hcount⟩ := slistRemove_spec h hk
  have hsub : ∀ i ∈ xs.erase k, i ∈ xs ∧ i ≠ k := fun i hi =>
    ⟨List.mem_of_mem_erase hi,fun heq => h.chain.nodup.not_mem_erase (heq ▸ hi)⟩
  refine ⟨sh',hsh,⟨hchain,?_,?_,?_,?_,?_⟩,?_,hother,hrecords,hthreads⟩
  · intro i hi
    obtain ⟨p,hp⟩ := h.infos i (hsub i hi).1
    exact hlive i p hp
  · intro i hi
    rw [hrecords]
    exact h.records i (hsub i hi).1
  · intro i hi
    rw [hthreads]
    obtain hrun | hterm | ⟨-,hik⟩ := h.threads i (hsub i hi).1
    · exact .inl hrun
    · exact .inr (.inl hterm)
    · exact absurd (Option.some.inj hik).symm (hsub i hi).2
  · rw [hthreads,hrecords]
    exact h.running
  · intro i hi
    rw [hcount] at hi
    have hnot : i ∉ xs := fun hmem => absurd (h.lt_count hmem) (by omega)
    rw [hrecords,hthreads,hother i hnot]
    exact h.bound i hi
  · obtain ⟨p,hp⟩ := h.infos k hk
    exact hlive k p hp

theorem CleanupStep.next {f g : Cleanup} {xs' : List ℕ} (htracked : Tracked sh' xs' g.joining)
    (hok : g.Ok sh' xs') (hsub : xs' ⊆ xs) (hheld : ∀ k ∈ g.held, k ∈ xs ∨ k ∈ f.held)
    (hframe : ∀ k, k ∉ xs → k ∉ f.held → sh'.infos k = sh.infos k ∧ sh'.records k = sh.records k ∧
      sh'.threads k = sh.threads k) : CleanupStep sh xs f (some g) sh' xs' := by
  refine ⟨htracked,?_,hsub,?_,hframe⟩
  · intro g' hg'
    obtain rfl := Option.mem_some_iff.mp hg'
    exact hok
  · intro g' hg'
    obtain rfl := Option.mem_some_iff.mp hg'
    exact hheld

/-- Each statement of cleanup_term_conn waits or does what it should. -/
theorem cleanup_spec (await : Bool) {f : Cleanup} (ht : Tracked sh xs f.joining) (hf : f.Ok sh xs) :
    cleanupTermConn await sh f = .error .blocked ∨ ∃ f' sh' xs',
      cleanupTermConn await sh f = .ok (f',sh') ∧ CleanupStep sh xs f f' sh' xs' := by
  have hsub := List.Subset.refl xs
  have hsame : ∀ k : ℕ, k ∉ xs → k ∉ f.held → sh.infos k = sh.infos k ∧ sh.records k = sh.records k ∧
    sh.threads k = sh.threads k := fun k _ _ => ⟨rfl,rfl,rfl⟩
  cases f with
  | first => exact .inr ⟨_,_,xs,rfl,.next ht ht.head_mem hsub (by simp [Cleanup.held]) hsame⟩
  | guard item =>
    cases item with
    | none => exact .inr ⟨_,_,xs,rfl,⟨ht,by simp,hsub,by simp,hsame⟩⟩
    | some k =>
      have hk : k ∈ xs := hf k rfl
      obtain ⟨p,hp⟩ := ht.infos k hk
      have hnext : ∀ t ∈ p, t ∈ xs ∧ t ≠ k := by
        intro t htp
        apply ht.chain.next hk
        rw [Tracked.link hp,Option.mem_def.mp htp]
      refine .inr ⟨some (.join k p),sh,xs,?_,.next ht ⟨hk,hnext⟩ hsub (by simp [Cleanup.held]) hsame⟩
      simp [cleanupTermConn,hp,access,bind,Except.bind,pure,Except.pure]
  | join k tmp =>
    obtain ⟨hk,htmp⟩ := hf
    obtain ⟨p,hp⟩ := ht.infos k hk
    obtain hrun | hterm | ⟨-,hjoin⟩ := ht.threads k hk
    · cases await with
      | true => exact .inl (by simp [cleanupTermConn,hp,hrun,access,bind,Except.bind])
      | false =>
        have hpending : Cleanup.Ok sh xs (.advance tmp) := fun t htmem => (htmp t htmem).1
        refine .inr ⟨some (.advance tmp),sh,xs,?_,.next ht hpending hsub (by simp [Cleanup.held]) hsame⟩
        simp [cleanupTermConn,hp,hrun,access,bind,Except.bind,pure,Except.pure]
    · refine .inr ⟨some (.remove k tmp),_,xs,?_,.next (ht.join hk) ⟨⟨hk,htmp⟩,by simp⟩ hsub
        (by simp [Cleanup.held]) ?_⟩
      · simp [cleanupTermConn,hp,hterm,access,bind,Except.bind,pure,Except.pure]
      · intro i hi _
        have hik : i ≠ k := fun heq => hi (heq ▸ hk)
        simp [Function.update_of_ne hik]
    · simp [Cleanup.joining] at hjoin
  | remove k tmp =>
    obtain ⟨⟨hk,htmp⟩,hjoined⟩ := hf
    obtain ⟨sh',hsh,htracked,hlive,hother,hrecords,hthreads⟩ := Tracked.remove ht hk
    have hpending : ∀ t ∈ tmp, t ∈ xs.erase k := fun t htmem =>
      (List.mem_erase_of_ne (htmp t htmem).2).mpr (htmp t htmem).1
    have hoff : k ∉ xs.erase k := ht.chain.nodup.not_mem_erase
    have hrecord : sh'.records k = .live () := by rw [hrecords,ht.records k hk]
    refine .inr ⟨some (.freeRef k tmp),sh',xs.erase k,?_,.next htracked
      ⟨⟨hoff,hlive,hpending⟩,hrecord,by rw [hthreads,hjoined]⟩ List.erase_subset ?_ ?_⟩
    · simp [cleanupTermConn,hsh,bind,Except.bind,pure,Except.pure]
    · intro i hi
      obtain rfl := Option.mem_some_iff.mp hi
      exact .inl hk
    · intro i hi _
      exact ⟨hother i hi,by rw [hrecords],by rw [hthreads]⟩
  | freeRef k tmp =>
    obtain ⟨⟨hk,⟨p,hp⟩,htmp⟩,hrecord,hjoined⟩ := hf
    have htracked := ht.freeRecord hk (ht.lt_of_live hp) (by simp [hjoined])
    refine .inr ⟨some (.freeItem k tmp),_,xs,?_,.next htracked ⟨hk,⟨p,hp⟩,htmp⟩ hsub
      (fun i hi => .inr hi) ?_⟩
    · simp [cleanupTermConn,hp,hrecord,access,free,bind,Except.bind,pure,Except.pure]
    · intro i _ hi
      have hik : i ≠ k := fun heq => hi (by simp [Cleanup.held,heq])
      simp [Function.update_of_ne hik]
  | freeItem k tmp =>
    obtain ⟨hk,⟨p,hp⟩,htmp⟩ := hf
    refine .inr ⟨some (.advance tmp),_,xs,?_,.next (ht.freeItem hk hp) htmp hsub
      (by simp [Cleanup.held]) ?_⟩
    · simp [cleanupTermConn,hp,free,bind,Except.bind,pure,Except.pure]
    · intro i _ hi
      have hik : i ≠ k := fun heq => hi (by simp [Cleanup.held,heq])
      simp [Function.update_of_ne hik]
  | advance tmp => exact .inr ⟨_,_,xs,rfl,.next ht hf hsub (by simp [Cleanup.held]) hsame⟩

end

/-! ## The main thread, the handler and the clients -/

def MainPc.joining : MainPc → Option ℕ
  | .cleanup f => f.joining
  | _ => none

/-- The connection of the main thread that is on no list. -/
def MainPc.held : MainPc → Option ℕ
  | .create k | .discard k | .insert k => some k
  | .cleanup f => f.held
  | _ => none

def MainPc.Ok (sh : Tracking) (xs : List ℕ) : MainPc → Prop
  | .create k | .discard k =>
    sh.infos k = .unused ∧ sh.records k = .live () ∧ sh.threads k = .absent
  | .insert k => sh.infos k = .unused ∧ sh.records k = .live () ∧
      (sh.threads k = .running ∨ sh.threads k = .terminated)
  | .cleanup f => f.Ok sh xs
  | _ => True

/-- Where a signal does no harm: the main thread is not in cleanup_term_conn, or it is
there without an item that it will still look at. -/
def MainPc.Quiet : MainPc → Prop
  | .cleanup (.guard item) => item = none
  | .cleanup (.join _ _) | .cleanup (.remove _ _) => False
  | .cleanup (.freeRef _ tmp) | .cleanup (.freeItem _ tmp) | .cleanup (.advance tmp) => tmp = none
  | _ => True

instance (pc : MainPc) : Decidable pc.Quiet :=
  match pc with
  | .cleanup (.guard item) => inferInstanceAs (Decidable (item = none))
  | .cleanup (.join _ _) | .cleanup (.remove _ _) => isFalse id
  | .cleanup (.freeRef _ tmp) => inferInstanceAs (Decidable (tmp = none))
  | .cleanup (.freeItem _ tmp) => inferInstanceAs (Decidable (tmp = none))
  | .cleanup (.advance tmp) => inferInstanceAs (Decidable (tmp = none))
  | .cleanup .first | .check | .accept | .create _ | .insert _ | .discard _ | .exited => isTrue trivial

def HandlerPc.joining : HandlerPc → Option ℕ
  | .cancel _ => none
  | .cleanup f => f.joining

def HandlerPc.held : HandlerPc → Option ℕ
  | .cancel _ => none
  | .cleanup f => f.held

def HandlerPc.Ok (sh : Tracking) (xs : List ℕ) : HandlerPc → Prop
  | .cancel conn => ∀ t ∈ conn, t ∈ xs
  | .cleanup f => f.Ok sh xs

/-- The main thread with or without a handler on top of it. -/
inductive Safe (sh : Tracking) : MainThread → Prop
  | plain (xs : List ℕ) (pc : MainPc) (ht : Tracked sh xs pc.joining) (hpc : pc.Ok sh xs) :
      Safe sh ⟨pc,none⟩
  | handling (xs : List ℕ) (pc : MainPc) (h : HandlerPc) (ht : Tracked sh xs h.joining)
      (hquiet : pc.Quiet) (hpc : pc.Ok sh xs) (hh : h.Ok sh xs)
      (hapart : ∀ k ∈ pc.held, k ∉ h.held) : Safe sh ⟨pc,some h⟩

section
variable {sh sh' : Tracking} {xs xs' : List ℕ} {j : Option ℕ} {k : ℕ}

theorem Tracked.notMem_of_unused (h : Tracked sh xs j) (hk : sh.infos k = .unused) : k ∉ xs := by
  intro hmem
  obtain ⟨p,hp⟩ := h.infos k hmem
  simp [hk] at hp

theorem Tracked.lt_of_record (h : Tracked sh xs j) (hk : sh.records k = .live ()) : k < sh.count := by
  by_contra hge
  have hunused := (h.bound k (by omega)).2.1
  simp [hunused] at hk

theorem MainPc.Ok.held_notMem {pc : MainPc} (h : Tracked sh xs j) (hpc : pc.Ok sh xs) :
    ∀ k ∈ pc.held, k ∉ xs := by
  intro k hk
  cases pc with
  | create i | discard i | insert i =>
    obtain rfl := Option.mem_some_iff.mp hk
    exact h.notMem_of_unused hpc.1
  | cleanup f =>
    cases f with
    | freeRef i tmp =>
      obtain rfl := Option.mem_some_iff.mp hk
      exact hpc.1.1
    | freeItem i tmp =>
      obtain rfl := Option.mem_some_iff.mp hk
      exact hpc.1
    | _ => simp [MainPc.held,Cleanup.held] at hk
  | _ => simp [MainPc.held] at hk

theorem MainPc.Quiet.joining {pc : MainPc} (h : pc.Quiet) : pc.joining = none := by
  cases pc with
  | cleanup f =>
    cases f with
    | remove i tmp => exact absurd h id
    | _ => rfl
  | _ => rfl

/-- What the main thread holds is left alone by the handler. -/
theorem MainPc.Ok.keep {pc : MainPc} (hpc : pc.Ok sh xs) (hquiet : pc.Quiet)
    (hkeep : ∀ k ∈ pc.held, k ∉ xs' ∧ sh'.infos k = sh.infos k ∧ sh'.records k = sh.records k ∧
      sh'.threads k = sh.threads k) : pc.Ok sh' xs' := by
  cases pc with
  | create i | discard i | insert i =>
    obtain ⟨-,hinfo,hrecord,hthread⟩ := hkeep i rfl
    simpa only [MainPc.Ok,hinfo,hrecord,hthread] using hpc
  | cleanup f =>
    cases f with
    | guard item =>
      obtain rfl : item = none := hquiet
      simp [MainPc.Ok,Cleanup.Ok]
    | join i tmp | remove i tmp => exact absurd hquiet id
    | freeRef i tmp =>
      obtain rfl : tmp = none := hquiet
      obtain ⟨hoff,hinfo,hrecord,hthread⟩ := hkeep i rfl
      obtain ⟨⟨-,hlive,-⟩,hrec,hjoined⟩ := hpc
      exact ⟨⟨hoff,by rwa [hinfo],by simp⟩,by rw [hrecord,hrec],by rw [hthread,hjoined]⟩
    | freeItem i tmp =>
      obtain rfl : tmp = none := hquiet
      obtain ⟨hoff,hinfo,-,-⟩ := hkeep i rfl
      exact ⟨hoff,by rw [hinfo]; exact hpc.2.1,by simp⟩
    | advance tmp =>
      obtain rfl : tmp = none := hquiet
      simp [MainPc.Ok,Cleanup.Ok]
    | first => trivial
  | _ => trivial

/-! ### Statements outside cleanup_term_conn -/

theorem Tracked.accept (h : Tracked sh xs none) :
    Tracked { sh with records := Function.update sh.records sh.count (.live ()), count := sh.count + 1 } xs
      none := by
  refine ⟨h.chain,h.infos,?_,h.threads,?_,?_⟩
  · intro i hi
    have hne : i ≠ sh.count := (h.lt_count hi).ne
    simpa [Function.update_of_ne hne] using h.records i hi
  · intro i hi
    by_cases hic : i = sh.count
    · simp [hic]
    · simpa [Function.update_of_ne hic] using h.running i hi
  · intro i hi
    simp only at hi
    have hne : i ≠ sh.count := by omega
    simpa [Function.update_of_ne hne] using h.bound i (by omega)

theorem Tracked.create (h : Tracked sh xs none) (hk : k ∉ xs) (hlive : sh.records k = .live ()) :
    Tracked { sh with threads := Function.update sh.threads k .running } xs none := by
  refine ⟨h.chain,h.infos,h.records,?_,?_,?_⟩
  · intro i hi
    have hne : i ≠ k := ne_of_mem_of_not_mem hi hk
    simpa [Function.update_of_ne hne] using h.threads i hi
  · intro i hi
    by_cases hik : i = k
    · rw [hik]
      exact hlive
    · exact h.running i (by simpa [Function.update_of_ne hik] using hi)
  · intro i hi
    have hne : i ≠ k := fun heq => absurd (h.lt_of_record hlive) (by simp only at hi; omega)
    simpa [Function.update_of_ne hne] using h.bound i hi

theorem Tracked.insertHead (h : Tracked sh xs none) (hunused : sh.infos k = .unused)
    (hlive : sh.records k = .live ()) (hthread : sh.threads k = .running ∨ sh.threads k = .terminated) :
    Tracked (slistInsertHead sh k) (k :: xs) none := by
  have hk : k ∉ xs := h.notMem_of_unused hunused
  have hne : ∀ i ∈ xs, i ≠ k := fun i hi => ne_of_mem_of_not_mem hi hk
  refine ⟨?_,?_,?_,?_,h.running,?_⟩
  · apply Chain.cons (p := sh.head)
    · simp [Tracking.links,slistInsertHead]
    · apply h.chain.congr
      intro i hi
      simp [Tracking.links,slistInsertHead,Function.update_of_ne (hne i hi)]
  · intro i hi
    obtain rfl | hi := List.mem_cons.mp hi
    · exact ⟨sh.head,by simp [slistInsertHead]⟩
    · simpa [slistInsertHead,Function.update_of_ne (hne i hi)] using h.infos i hi
  · intro i hi
    obtain rfl | hi := List.mem_cons.mp hi
    · exact hlive
    · exact h.records i hi
  · intro i hi
    obtain rfl | hi := List.mem_cons.mp hi
    · exact hthread.imp_right .inl
    · exact h.threads i hi
  · intro i hi
    have hik : i ≠ k := fun heq => absurd (h.lt_of_record hlive) (by simp only [slistInsertHead] at hi; omega)
    simpa [slistInsertHead,Function.update_of_ne hik] using h.bound i hi

/-- Each statement of the uninterrupted main thread waits or keeps the invariant. -/
theorem main_spec (ok : Bool) {pc : MainPc} (ht : Tracked sh xs pc.joining) (hpc : pc.Ok sh xs) :
    mainStep ok sh pc = .error .blocked ∨ ∃ pc' sh', mainStep ok sh pc = .ok (pc',sh') ∧ Safe sh' ⟨pc',none⟩ := by
  cases pc with
  | check =>
    refine .inr ⟨_,_,rfl,?_⟩
    cases sh.stopApp with
    | true => exact .plain xs _ ht trivial
    | false => exact .plain xs _ ht trivial
  | accept =>
    cases ok with
    | false => exact .inr ⟨_,_,rfl,.plain xs _ ht trivial⟩
    | true =>
      obtain ⟨hinfo,-,hthread⟩ := ht.bound sh.count le_rfl
      exact .inr ⟨_,_,rfl,.plain xs _ ht.accept ⟨hinfo,by simp,hthread⟩⟩
  | create k =>
    obtain ⟨hinfo,hrecord,habsent⟩ := hpc
    cases ok with
    | false => exact .inr ⟨_,_,rfl,.plain xs _ ht ⟨hinfo,hrecord,habsent⟩⟩
    | true =>
      have hk := ht.notMem_of_unused hinfo
      exact .inr ⟨_,_,rfl,.plain xs _ (ht.create hk hrecord) ⟨hinfo,hrecord,.inl (by simp)⟩⟩
  | insert k =>
    obtain ⟨hinfo,hrecord,hthread⟩ := hpc
    exact .inr ⟨_,_,rfl,.plain (k :: xs) _ (ht.insertHead hinfo hrecord hthread) trivial⟩
  | discard k =>
    obtain ⟨hinfo,hrecord,habsent⟩ := hpc
    have htracked := ht.freeRecord (ht.notMem_of_unused hinfo) (ht.lt_of_record hrecord) (by simp [habsent])
    refine .inr ⟨.check,_,?_,.plain xs _ htracked trivial⟩
    simp [mainStep,hrecord,free,bind,Except.bind,pure,Except.pure]
  | cleanup f =>
    obtain hblocked | ⟨f',sh',xs',hstep,hspec⟩ := cleanup_spec false ht hpc
    · exact .inl (by simp [mainStep,hblocked,bind,Except.bind])
    · cases f' with
      | none =>
        refine .inr ⟨.check,sh',?_,.plain xs' _ hspec.tracked trivial⟩
        simp [mainStep,hstep,bind,Except.bind,pure,Except.pure]
      | some g =>
        refine .inr ⟨.cleanup g,sh',?_,.plain xs' _ hspec.tracked (hspec.ok g rfl)⟩
        simp [mainStep,hstep,bind,Except.bind,pure,Except.pure]
  | exited => exact .inl rfl

theorem handler_spec {pc : MainPc} {h : HandlerPc} (ht : Tracked sh xs h.joining) (hquiet : pc.Quiet)
    (hpc : pc.Ok sh xs) (hh : h.Ok sh xs) (hapart : ∀ k ∈ pc.held, k ∉ h.held) :
    handlerStep sh h = .error .blocked ∨ ∃ h' sh', handlerStep sh h = .ok (h',sh') ∧ Safe sh' ⟨pc,h'⟩ := by
  have hoff := hpc.held_notMem ht
  cases h with
  | cancel conn =>
    cases conn with
    | none => exact .inr ⟨_,_,rfl,.handling xs pc _ ht hquiet hpc trivial (by simp [HandlerPc.held,Cleanup.held])⟩
    | some k =>
      have hk : k ∈ xs := hh k rfl
      obtain ⟨p,hp⟩ := ht.infos k hk
      have hnext : ∀ t ∈ p, t ∈ xs := by
        intro t htp
        refine (ht.chain.next hk ?_).1
        rw [Tracked.link hp,Option.mem_def.mp htp]
      refine .inr ⟨some (.cancel p),sh,?_,.handling xs pc _ ht hquiet hpc hnext (by simp [HandlerPc.held])⟩
      simp [handlerStep,hp,access,bind,Except.bind,pure,Except.pure]
  | cleanup f =>
    obtain hblocked | ⟨f',sh',xs',hstep,hspec⟩ := cleanup_spec true ht hh
    · exact .inl (by simp [handlerStep,hblocked,bind,Except.bind])
    · have hpc' : pc.Ok sh' xs' := by
        apply hpc.keep hquiet
        intro k hk
        exact ⟨fun hmem => hoff k hk (hspec.sub hmem),hspec.frame k (hoff k hk) (hapart k hk)⟩
      have hrun : handlerStep sh (.cleanup f) = .ok (f'.map .cleanup,sh') := by
        simp [handlerStep,hstep,bind,Except.bind,pure,Except.pure]
      refine .inr ⟨_,sh',hrun,?_⟩
      cases f' with
      | none =>
        refine .plain xs' pc ?_ hpc'
        rw [hquiet.joining]
        exact hspec.tracked
      | some g =>
        refine .handling xs' pc _ hspec.tracked hquiet hpc' (hspec.ok g rfl) ?_
        intro k hk hheld
        obtain hmem | hmem := hspec.held g rfl k hheld
        · exact hoff k hk hmem
        · exact hapart k hk hmem

/-! ### The other steps -/

theorem Tracked.terminate (h : Tracked sh xs j) (hrun : sh.threads k = .running) :
    Tracked { sh with threads := Function.update sh.threads k .terminated } xs j := by
  refine ⟨h.chain,h.infos,h.records,?_,?_,?_⟩
  · intro i hi
    by_cases hik : i = k
    · simp [hik]
    · simpa [Function.update_of_ne hik] using h.threads i hi
  · intro i hi
    by_cases hik : i = k
    · simp [hik] at hi
    · exact h.running i (by simpa [Function.update_of_ne hik] using hi)
  · intro i hi
    have hik : i ≠ k := by
      rintro rfl
      have habsent := (h.bound i hi).2.2
      simp [hrun] at habsent
    simpa [Function.update_of_ne hik] using h.bound i hi

theorem Cleanup.Ok.terminate {f : Cleanup} (h : f.Ok sh xs) (hrun : sh.threads k = .running) :
    f.Ok { sh with threads := Function.update sh.threads k .terminated } xs := by
  have hjoined : ∀ i, sh.threads i = .joined →
      Function.update sh.threads k .terminated i = .joined := by
    intro i hi
    have hik : i ≠ k := by
      rintro rfl
      simp [hrun] at hi
    simpa [Function.update_of_ne hik] using hi
  cases f with
  | remove i tmp => exact ⟨h.1,hjoined i h.2⟩
  | freeRef i tmp => exact ⟨h.1,h.2.1,hjoined i h.2.2⟩
  | _ => exact h

theorem MainPc.Ok.terminate {pc : MainPc} (h : pc.Ok sh xs) (hrun : sh.threads k = .running) :
    pc.Ok { sh with threads := Function.update sh.threads k .terminated } xs := by
  cases pc with
  | create i | discard i =>
    have hik : i ≠ k := by
      rintro rfl
      simp [MainPc.Ok,hrun] at h
    simpa [MainPc.Ok,Function.update_of_ne hik] using h
  | insert i =>
    obtain ⟨hinfo,hrecord,hthread⟩ := h
    refine ⟨hinfo,hrecord,?_⟩
    by_cases hik : i = k
    · simp [hik]
    · simpa [Function.update_of_ne hik] using hthread
  | cleanup f => exact Cleanup.Ok.terminate h hrun
  | _ => trivial

theorem HandlerPc.Ok.terminate {h : HandlerPc} (hh : h.Ok sh xs) (hrun : sh.threads k = .running) :
    h.Ok { sh with threads := Function.update sh.threads k .terminated } xs := by
  cases h with
  | cancel conn => exact hh
  | cleanup f => exact Cleanup.Ok.terminate hh hrun

theorem Safe.running {m : MainThread} (h : Safe sh m) (hrun : sh.threads k = .running) :
    sh.records k = .live () := by
  cases h with
  | plain xs pc ht _ => exact ht.running k hrun
  | handling xs pc h ht _ _ _ _ => exact ht.running k hrun

theorem Safe.terminate {m : MainThread} (h : Safe sh m) (hrun : sh.threads k = .running) :
    Safe { sh with threads := Function.update sh.threads k .terminated } m := by
  cases h with
  | plain xs pc ht hpc => exact .plain xs pc (ht.terminate hrun) (hpc.terminate hrun)
  | handling xs pc h ht hquiet hpc hh hapart =>
    exact .handling xs pc h (ht.terminate hrun) hquiet (hpc.terminate hrun) (hh.terminate hrun) hapart

theorem Safe.signal {pc : MainPc} (h : Safe sh ⟨pc,none⟩) (hquiet : pc.Quiet) :
    Safe { sh with stopApp := true } ⟨pc,some (.cancel sh.head)⟩ := by
  cases h with
  | plain xs pc ht hpc =>
    rw [hquiet.joining] at ht
    have ht' : Tracked { sh with stopApp := true } xs none :=
      ⟨ht.chain,ht.infos,ht.records,ht.threads,ht.running,ht.bound⟩
    refine .handling xs pc _ ht' hquiet ?_ ht.head_mem (by simp [HandlerPc.held])
    cases pc with
    | cleanup f => cases f <;> exact hpc
    | _ => exact hpc

end

/-! ## Runs -/

theorem mainMove_spec {sh : Tracking} {m : MainThread} (h : Safe sh m) (ok : Bool) :
    mainMove sh m (.step ok) = .error .blocked ∨
      ∃ m' sh', mainMove sh m (.step ok) = .ok (m',sh') ∧ Safe sh' m' := by
  cases h with
  | plain xs pc ht hpc =>
    obtain hblocked | ⟨pc',sh',hstep,hsafe⟩ := main_spec ok ht hpc
    · exact .inl (by simp [mainMove,hblocked,bind,Except.bind])
    · exact .inr ⟨_,sh',by simp [mainMove,hstep,bind,Except.bind,pure,Except.pure],hsafe⟩
  | handling xs pc h ht hquiet hpc hh hapart =>
    obtain hblocked | ⟨h',sh',hstep,hsafe⟩ := handler_spec ht hquiet hpc hh hapart
    · exact .inl (by simp [mainMove,hblocked,bind,Except.bind])
    · exact .inr ⟨_,sh',by simp [mainMove,hstep,bind,Except.bind,pure,Except.pure],hsafe⟩

theorem clientMove_spec {sh : Tracking} {m : MainThread} (h : Safe sh m) (k : ℕ) (act : ClientAct) :
    clientMove k sh act = .error .blocked ∨ ∃ sh', clientMove k sh act = .ok sh' ∧ Safe sh' m := by
  by_cases hrun : sh.threads k = .running
  · cases act with
    | use =>
      have hrecord := h.running hrun
      exact .inr ⟨sh,by simp [clientMove,hrun,hrecord,access,bind,Except.bind,pure,Except.pure],h⟩
    | terminate => exact .inr ⟨_,by simp only [clientMove,if_pos hrun],h.terminate hrun⟩
  · exact .inl (by simp [clientMove,hrun])

theorem signal_spec {sh sh' : Tracking} {m m' : MainThread} (h : Safe sh m) (hquiet : m.pc.Quiet)
    (hmove : mainMove sh m .signal = .ok (m',sh')) : Safe sh' m' := by
  obtain ⟨pc,handler⟩ := m
  cases handler with
  | some h => simp [mainMove] at hmove
  | none =>
    cases pc <;> simp only [mainMove,reduceCtorEq,Except.ok.injEq,Prod.mk.injEq] at hmove
    all_goals
      obtain ⟨rfl,rfl⟩ := hmove
      exact h.signal hquiet

/-- A step keeps the invariant; a signal does so at a quiet point. -/
theorem step_safe {s s' : Sys} {l : Σ i, ActorAct i} (hs : Safe s.shared (s.locals .main))
    (hquiet : l = ⟨.main,.signal⟩ → (s.locals .main).pc.Quiet) (h : step move s l = .ok s') :
    Safe s'.shared (s'.locals .main) := by
  obtain ⟨i,act⟩ := l
  obtain ⟨x,sh,hmove,rfl⟩ := step_ok_iff.mp h
  cases i with
  | main =>
    simp only [Function.update_self]
    cases act with
    | step ok =>
      obtain hblocked | ⟨m',sh',hstep,hsafe⟩ := mainMove_spec hs ok
      · simp [move,hblocked] at hmove
      · simp only [move,hstep,Except.ok.injEq,Prod.mk.injEq] at hmove
        obtain ⟨rfl,rfl⟩ := hmove
        exact hsafe
    | signal => exact signal_spec hs (hquiet rfl) hmove
  | client k =>
    have hmain : Function.update s.locals (.client k) x .main = s.locals .main :=
      Function.update_of_ne (by simp) _ _
    simp only [hmain]
    obtain hblocked | ⟨sh',hstep,hsafe⟩ := clientMove_spec hs k act
    · simp [move,hblocked,bind,Except.bind] at hmove
    · simp only [move,hstep,bind,Except.bind,pure,Except.pure,Except.ok.injEq,Prod.mk.injEq] at hmove
      obtain ⟨-,rfl⟩ := hmove
      exact hsafe

theorem Safe.no_violation {s : Sys} (hs : Safe s.shared (s.locals .main)) (l : Σ i, ActorAct i)
    (v : Violation) : step move s l ≠ .error (.violation v) := by
  obtain ⟨i,act⟩ := l
  intro h
  have hmove := step_error_iff.mp h
  cases i with
  | main =>
    cases act with
    | step ok =>
      obtain hblocked | ⟨m',sh',hstep,-⟩ := mainMove_spec hs ok
      · simp [move,hblocked] at hmove
      · simp [move,hstep] at hmove
    | signal =>
      simp only [move,mainMove] at hmove
      split at hmove <;> simp at hmove
  | client k =>
    obtain hblocked | ⟨sh',hstep,-⟩ := clientMove_spec hs k act
    · simp [move,hblocked,bind,Except.bind] at hmove
    · simp [move,hstep,bind,Except.bind,pure,Except.pure] at hmove

theorem safe_initial : Safe initial.shared (initial.locals .main) := by
  apply Safe.plain [] .check
  · refine ⟨.nil,by simp,by simp,by simp,?_,fun k _ => ⟨rfl,rfl,rfl⟩⟩
    intro k hk
    simp [initial,Tracking.init] at hk
  · trivial

/-- In every run whose signals land at quiet points, no thread is joined twice, no block
is freed twice or used after it was freed, and SLIST_REMOVE finds its element. -/
theorem cleaned_once_of_quiet (ls : List (Σ i, ActorAct i)) (s : Sys) (hs : Visits move initial ls s)
    (hquiet : ∀ t, Takes move initial ls t ⟨.main,.signal⟩ → (t.locals .main).pc.Quiet)
    (l : Σ i, ActorAct i) (v : Violation) : step move s l ≠ .error (.violation v) := by
  apply Safe.no_violation
  apply hs.invariant (I := fun s => Safe s.shared (s.locals .main))
    (G := fun s l => l = ⟨.main,.signal⟩ → (s.locals .main).pc.Quiet) safe_initial
  · intro t l t' ht hG hstep
    exact step_safe ht hG hstep
  · rintro t l htakes rfl
    exact hquiet t htakes

def statements (n : ℕ) : List (Σ i, ActorAct i) := List.replicate n ⟨.main,.step true⟩

def quietSignal (s : Sys) : (Σ i, ActorAct i) → Bool
  | ⟨.main,.signal⟩ => decide (s.locals .main).pc.Quiet
  | _ => true

def violationOf {α : Type} : Except Halt α → Option Violation
  | .error (.violation v) => some v
  | _ => none

theorem eq_of_violationOf {α : Type} {x : Except Halt α} {v : Violation} (h : violationOf x = some v) :
    x = .error (.violation v) := by
  unfold violationOf at h
  split at h <;> simp_all

/-- A signal lands while the only connection is still served, behind the failed
pthread_tryjoin_np; then the client terminates and the handler joins it. -/
def quietRun : List (Σ i, ActorAct i) :=
  statements 7 ++ [⟨.main,.signal⟩] ++ statements 4 ++ [⟨.client 0,.terminate⟩] ++ statements 1

theorem quietRun_cleans_once : ∃ s, Visits move initial quietRun s ∧
    s.shared.threads 0 = .joined ∧ ∀ l v, step move s l ≠ .error (.violation v) := by
  obtain ⟨s,hrun,hjoined⟩ := exists_of_returns
    (show returns (fun s : Sys => decide (s.shared.threads 0 = .joined)) (run move initial quietRun) = true by
      decide)
  have hpass : stepsPass move quietSignal initial quietRun = true := by decide
  refine ⟨s,Visits.of_run hrun,of_decide_eq_true hjoined,?_⟩
  apply cleaned_once_of_quiet quietRun s (Visits.of_run hrun)
  intro t ht
  exact of_decide_eq_true (pass_of_takes hpass ht)

/-- The client terminates, the main thread joins it, and a signal lands in front of
SLIST_REMOVE. -/
def reentrantRun : List (Σ i, ActorAct i) :=
  statements 6 ++ [⟨.client 0,.terminate⟩] ++ statements 1 ++ [⟨.main,.signal⟩] ++ statements 4

/-- The handler joins the thread for the second time. -/
theorem reentrantRun_joins_twice : ∃ s, Visits move initial reentrantRun s ∧
    step move s ⟨.main,.step true⟩ = .error (.violation .joinedTwice) := by
  obtain ⟨s,hrun,hviolation⟩ := exists_of_returns
    (show returns (fun s : Sys => decide (violationOf (step move s ⟨.main,.step true⟩) = some .joinedTwice))
      (run move initial reentrantRun) = true by decide)
  exact ⟨s,Visits.of_run hrun,eq_of_violationOf (of_decide_eq_true hviolation)⟩

end Aesd.Connections
