import Aesd.Server.HandlerReturn

/-! # The server ends after a signal

Once signal_handler has returned, the main thread comes out of its loop whatever its
calls return: in cleanup_term_conn(0) it waits for nobody, and the rest of the list gets
shorter with each item it passes, whether the item is taken off the list or not.
-/
namespace Aesd.Connections
open Interleaving SinglyLinked

/-- The pointer from which the activation still walks. -/
def Cleanup.next (sh : Tracking) : Cleanup → Option ℕ
  | .first => sh.head
  | .guard item => item
  | .join _ tmp | .remove _ tmp | .freeRef _ tmp | .freeItem _ tmp | .advance tmp => tmp

/-- How far the activation is from that pointer. -/
def Cleanup.rank : Cleanup → ℕ
  | .first => 3
  | .guard _ => 2
  | .join _ _ => 7
  | .remove _ _ => 6
  | .freeRef _ _ => 5
  | .freeItem _ _ => 4
  | .advance _ => 3

section
variable {sh sh' : Tracking} {xs : List ℕ} {j : Option ℕ}

theorem Cleanup.Ok.next_mem {f : Cleanup} (ht : Tracked sh xs f.joining) (hf : f.Ok sh xs) :
    ∀ t ∈ f.next sh, t ∈ xs := by
  cases f with
  | first => exact ht.head_mem
  | guard item => exact hf
  | join k tmp => exact fun t htmp => (hf.2 t htmp).1
  | remove k tmp => exact fun t htmp => (hf.1.2 t htmp).1
  | freeRef k tmp => exact hf.1.2.2
  | freeItem k tmp => exact hf.2.2
  | advance tmp => exact hf

theorem rest_erase {t k : ℕ} {ys : List ℕ} (hxs : Chain sh.links sh.head xs)
    (hafter : Chain sh'.links sh'.head (xs.erase k)) (ht : t ∈ xs) (htk : t ≠ k)
    (hys : Chain sh.links (some t) ys) : ∃ ys', Chain sh'.links (some t) ys' ∧ ys'.length ≤ ys.length := by
  obtain ⟨pre,post,rfl⟩ := List.append_of_mem ht
  obtain ⟨q,hq,hpost⟩ := hxs.split
  obtain rfl := hys.unique (.cons hq hpost)
  by_cases hk : k ∈ pre
  · rw [List.erase_append_left _ hk] at hafter
    obtain ⟨q',hq',hpost'⟩ := hafter.split
    exact ⟨t :: post,.cons hq' hpost',le_rfl⟩
  · rw [List.erase_append_right _ hk,List.erase_cons_tail (by simpa using htk)] at hafter
    obtain ⟨q',hq',hpost'⟩ := hafter.split
    exact ⟨t :: post.erase k,.cons hq' hpost',by simpa using List.length_erase_le⟩

theorem slistRemove_stopApp {k : ℕ} (h : slistRemove sh k = .ok sh') : sh'.stopApp = sh.stopApp := by
  unfold slistRemove at h
  split at h
  · obtain ⟨i,-,h⟩ := bind_eq_ok.mp h
    cases h
    rfl
  · obtain ⟨c,-,h⟩ := bind_eq_ok.mp h
    obtain ⟨i,-,h⟩ := bind_eq_ok.mp h
    obtain ⟨ci,-,h⟩ := bind_eq_ok.mp h
    cases h
    rfl

theorem cleanupTermConn_stopApp {await : Bool} {f : Cleanup} {f' : Option Cleanup}
    (h : cleanupTermConn await sh f = .ok (f',sh')) : sh'.stopApp = sh.stopApp := by
  cases f with
  | first | advance tmp =>
    cases h
    rfl
  | guard item =>
    cases item with
    | none =>
      cases h
      rfl
    | some k =>
      obtain ⟨i,-,h⟩ := bind_eq_ok.mp h
      cases h
      rfl
  | join k tmp =>
    obtain ⟨i,-,h⟩ := bind_eq_ok.mp h
    split at h
    · cases h
      rfl
    · split at h
      · cases h
      · cases h
        rfl
    · cases h
    · cases h
  | remove k tmp =>
    obtain ⟨sh₁,hsh,h⟩ := bind_eq_ok.mp h
    cases h
    exact slistRemove_stopApp hsh
  | freeRef k tmp =>
    obtain ⟨i,-,h⟩ := bind_eq_ok.mp h
    obtain ⟨cell,-,h⟩ := bind_eq_ok.mp h
    cases h
    rfl
  | freeItem k tmp =>
    obtain ⟨cell,-,h⟩ := bind_eq_ok.mp h
    cases h
    rfl

theorem cleanup_nearer {f : Cleanup} {ys : List ℕ} (ht : Tracked sh xs f.joining) (hf : f.Ok sh xs)
    (hys : Chain sh.links (f.next sh) ys) :
    ∃ f' sh', cleanupTermConn false sh f = .ok (f',sh') ∧ ∀ g ∈ f',
      ∃ ys', Chain sh'.links (g.next sh') ys' ∧ 8 * ys'.length + g.rank < 8 * ys.length + f.rank := by
  cases f with
  | first =>
    refine ⟨_,_,rfl,?_⟩
    rintro g ⟨⟩
    exact ⟨ys,hys,by simp [Cleanup.rank]⟩
  | guard item =>
    cases item with
    | none => exact ⟨_,_,rfl,by simp⟩
    | some k =>
      obtain ⟨p,hp⟩ := ht.infos k (hf k rfl)
      refine ⟨some (.join k p),sh,?_,?_⟩
      · simp [cleanupTermConn,hp,access,bind,Except.bind,pure,Except.pure]
      · rintro g ⟨⟩
        cases hys with
        | @cons _ q ys hq hys =>
          obtain rfl := Option.some.inj (hq.symm.trans (Tracked.link hp))
          refine ⟨ys,hys,?_⟩
          simp only [Cleanup.rank,List.length_cons]
          omega
  | join k tmp =>
    obtain ⟨p,hp⟩ := ht.infos k hf.1
    obtain hrun | hterm | ⟨-,hjoin⟩ := ht.threads k hf.1
    · refine ⟨some (.advance tmp),sh,?_,?_⟩
      · simp [cleanupTermConn,hp,hrun,access,bind,Except.bind,pure,Except.pure]
      · rintro g ⟨⟩
        exact ⟨ys,hys,by simp [Cleanup.rank]⟩
    · refine ⟨some (.remove k tmp),{ sh with threads := Function.update sh.threads k .joined },?_,?_⟩
      · simp [cleanupTermConn,hp,hterm,access,bind,Except.bind,pure,Except.pure]
      · rintro g ⟨⟩
        exact ⟨ys,hys,by simp [Cleanup.rank]⟩
    · simp [Cleanup.joining] at hjoin
  | remove k tmp =>
    obtain ⟨⟨hk,htmp⟩,-⟩ := hf
    obtain ⟨sh₁,hsh,hafter,-⟩ := slistRemove_spec ht hk
    refine ⟨some (.freeRef k tmp),sh₁,?_,?_⟩
    · simp [cleanupTermConn,hsh,bind,Except.bind,pure,Except.pure]
    · rintro g ⟨⟩
      cases tmp with
      | none => exact ⟨[],.nil,by simp only [Cleanup.rank,List.length_nil]; omega⟩
      | some t =>
        obtain ⟨htxs,htk⟩ := htmp t rfl
        obtain ⟨ys',hys',hle⟩ := rest_erase ht.chain hafter htxs htk hys
        refine ⟨ys',hys',?_⟩
        simp only [Cleanup.rank]
        omega
  | freeRef k tmp =>
    obtain ⟨⟨-,⟨p,hp⟩,-⟩,hrecord,-⟩ := hf
    refine ⟨some (.freeItem k tmp),{ sh with records := Function.update sh.records k .freed },?_,?_⟩
    · simp [cleanupTermConn,hp,hrecord,access,free,bind,Except.bind,pure,Except.pure]
    · rintro g ⟨⟩
      exact ⟨ys,hys,by simp [Cleanup.rank]⟩
  | freeItem k tmp =>
    obtain ⟨hk,⟨p,hp⟩,htmp⟩ := hf
    refine ⟨some (.advance tmp),{ sh with infos := Function.update sh.infos k .freed },?_,?_⟩
    · simp [cleanupTermConn,hp,free,bind,Except.bind,pure,Except.pure]
    · rintro g ⟨⟩
      cases tmp with
      | none => exact ⟨[],.nil,by simp only [Cleanup.rank,List.length_nil]; omega⟩
      | some t =>
        have hafter := (ht.freeItem hk hp).chain
        rw [← List.erase_of_not_mem hk] at hafter
        have htk : t ≠ k := ne_of_mem_of_not_mem (htmp t rfl) hk
        obtain ⟨ys',hys',hle⟩ := rest_erase ht.chain hafter (htmp t rfl) htk hys
        refine ⟨ys',hys',?_⟩
        simp only [Cleanup.rank]
        omega
  | advance tmp =>
    refine ⟨_,_,rfl,?_⟩
    rintro g ⟨⟩
    exact ⟨ys,hys,by simp [Cleanup.rank]⟩

end

theorem mainStep_stopApp {ok : Bool} {pc pc' : MainPc} (h : mainStep ok sh pc = .ok (pc',sh')) :
    sh'.stopApp = sh.stopApp := by
  cases pc with
  | check | insert k =>
    cases h
    rfl
  | accept | create k =>
    simp only [mainStep] at h
    split at h <;> cases h <;> rfl
  | discard k =>
    obtain ⟨cell,-,h⟩ := bind_eq_ok.mp h
    cases h
    rfl
  | cleanup f =>
    obtain ⟨⟨f',sh₁⟩,hrun,h⟩ := bind_eq_ok.mp h
    have hsame := cleanupTermConn_stopApp hrun
    cases f' <;> cases h <;> exact hsame
  | exited => cases h

end Aesd.Connections

namespace Aesd.SignalDelivery
open Interleaving SinglyLinked
open Connections (Tracking Cleanup ClientAct clientMove Tracked access)

/-- The pointer from which the main thread walks, or will walk. -/
def MainPc.next (sh : Tracking) : MainPc → Option ℕ
  | .single (.cleanup f) => f.next sh
  | _ => sh.head

/-- How many statements are left at most, with n items behind that pointer and stopApp
set. -/
def MainPc.distance (n : ℕ) : MainPc → ℕ
  | .single .exited => 0
  | .single .check => 1
  | .single (.discard _) => 2
  | .single (.cleanup f) => 8 * n + f.rank
  | .linked _ _ => 8 * n + 12
  | .single (.insert _) => 8 * n + 13
  | .single (.create _) => 8 * n + 14
  | .single .accept => 8 * n + 15

def Distance (sh : Tracking) (pc : MainPc) (n : ℕ) : Prop :=
  ∃ ys, Chain sh.links (pc.next sh) ys ∧ n = pc.distance ys.length

section
variable {sh : Process} {tr : Tracking} {pc : MainPc} {n : ℕ}

theorem Single.tracked (hs : Single sh ⟨pc,[]⟩) :
    ∃ xs, Tracked sh.tracking xs pc.coarse.joining ∧ pc.coarse.Ok sh.tracking xs := by
  have hsafe := hs.safe
  simp only [coarse,List.head?_nil,Option.map_none] at hsafe
  cases hsafe with
  | plain xs _ ht hok => exact ⟨xs,ht,hok⟩

theorem exists_distance (hs : Single sh ⟨pc,[]⟩) : ∃ n, Distance sh.tracking pc n := by
  obtain ⟨xs,ht,hok⟩ := hs.tracked
  have hnext : ∀ t ∈ pc.next sh.tracking, t ∈ xs := by
    cases pc with
    | linked k next => exact ht.head_mem
    | single pc =>
      cases pc with
      | cleanup f => exact Connections.Cleanup.Ok.next_mem ht hok
      | _ => exact ht.head_mem
  obtain ⟨ys,hys⟩ := ht.rest hnext
  exact ⟨_,ys,hys,rfl⟩

/-- Whatever its calls return, the next statement of the main thread is possible and
brings the exit nearer. -/
theorem mainStep_nearer (hs : Single sh ⟨pc,[]⟩) (hstop : sh.tracking.stopApp = true)
    (hn : Distance sh.tracking pc n) (hpc : pc ≠ .single .exited) (ok : Bool) :
    ∃ pc' tr, mainStep ok sh.tracking pc = .ok (pc',tr) ∧ tr.stopApp = true ∧
      ∃ m < n, Distance tr pc' m := by
  obtain ⟨xs,ht,hok⟩ := hs.tracked
  obtain ⟨ys,hys,rfl⟩ := hn
  cases pc with
  | linked k next =>
    obtain rfl := hs.linked k next rfl
    obtain ⟨hinfo,hrecord,hthread⟩ := hok
    have hchain := (ht.insertHead hinfo hrecord hthread).chain
    obtain rfl := hys.unique ht.chain
    exact ⟨_,_,rfl,hstop,_,by simp [MainPc.distance,Cleanup.rank]; omega,k :: ys,hchain,rfl⟩
  | single pc =>
    cases pc with
    | check =>
      refine ⟨.single .exited,sh.tracking,?_,hstop,0,by simp [MainPc.distance],ys,hys,rfl⟩
      simp [mainStep,Connections.mainStep,hstop,bind,Except.bind,pure,Except.pure]
    | accept =>
      cases ok with
      | false => exact ⟨.single .check,_,rfl,hstop,1,by simp [MainPc.distance],ys,hys,rfl⟩
      | true => exact ⟨.single (.create _),_,rfl,hstop,_,by simp [MainPc.distance],ys,hys,rfl⟩
    | create k =>
      cases ok with
      | false => exact ⟨.single (.discard k),_,rfl,hstop,2,by simp [MainPc.distance],ys,hys,rfl⟩
      | true => exact ⟨.single (.insert k),_,rfl,hstop,_,by simp [MainPc.distance],ys,hys,rfl⟩
    | insert k => exact ⟨.linked k _,_,rfl,hstop,_,by simp [MainPc.distance],ys,hys,rfl⟩
    | discard k =>
      obtain ⟨-,hrecord,-⟩ := hok
      refine ⟨.single .check,{ sh.tracking with records := Function.update sh.tracking.records k .freed },?_,
        hstop,1,by simp [MainPc.distance],ys,hys,rfl⟩
      simp only [mainStep,Connections.mainStep,hrecord,Connections.free,bind,Except.bind,pure,Except.pure]
    | cleanup f =>
      obtain ⟨f',tr,hrun,hnearer⟩ := Connections.cleanup_nearer ht hok hys
      have hstop' := (Connections.cleanupTermConn_stopApp hrun).trans hstop
      cases f' with
      | none =>
        have hchain : ∃ zs, Chain tr.links tr.head zs := by
          obtain hblocked | ⟨g,tr',zs,hstep,hspec⟩ := Connections.cleanup_spec false ht hok
          · simp [hblocked] at hrun
          · obtain ⟨-,rfl⟩ := Prod.mk.inj (Except.ok.inj (hstep.symm.trans hrun))
            exact ⟨zs,hspec.tracked.chain⟩
        obtain ⟨zs,hzs⟩ := hchain
        refine ⟨.single .check,tr,?_,hstop',1,?_,zs,hzs,rfl⟩
        · simp [mainStep,Connections.mainStep,hrun,bind,Except.bind,pure,Except.pure]
        · cases f <;> simp [MainPc.distance,Cleanup.rank]
      | some g =>
        obtain ⟨zs,hzs,hless⟩ := hnearer g rfl
        refine ⟨.single (.cleanup g),tr,?_,hstop',_,hless,zs,hzs,rfl⟩
        simp [mainStep,Connections.mainStep,hrun,bind,Except.bind,pure,Except.pure]
    | exited => exact absurd rfl hpc

theorem clientMove_same {k : ℕ} {act : ClientAct} {sh : Tracking} (h : clientMove k sh act = .ok tr) :
    tr.infos = sh.infos ∧ tr.head = sh.head ∧ tr.stopApp = sh.stopApp := by
  unfold clientMove at h
  split at h
  · cases act with
    | use =>
      obtain ⟨record,-,h⟩ := bind_eq_ok.mp h
      cases h
      exact ⟨rfl,rfl,rfl⟩
    | terminate =>
      cases h
      exact ⟨rfl,rfl,rfl⟩
  · cases h

theorem clientMove_distance {k : ℕ} {act : ClientAct} (h : clientMove k sh.tracking act = .ok tr)
    (hn : Distance sh.tracking pc n) : tr.stopApp = sh.tracking.stopApp ∧ Distance tr pc n := by
  obtain ⟨hinfos,hhead,hstop⟩ := clientMove_same h
  obtain ⟨ys,hys,rfl⟩ := hn
  refine ⟨hstop,ys,?_,rfl⟩
  have hnext : pc.next tr = pc.next sh.tracking := by
    cases pc with
    | linked k next => exact hhead
    | single pc =>
      cases pc with
      | cleanup f => cases f <;> first | exact hhead | rfl
      | _ => exact hhead
  rwa [Connections.links_congr hinfos,hnext]

end

/-! ## Runs -/

def isStatement : Label → Bool
  | ⟨.main,.step _⟩ => true
  | _ => false

theorem mainStep_keeps_stopApp {ok : Bool} {sh sh' : Tracking} {pc pc' : MainPc}
    (h : mainStep ok sh pc = .ok (pc',sh')) : sh'.stopApp = sh.stopApp := by
  obtain ⟨k,-,-,rfl⟩ | ⟨k,next,-,-,rfl⟩ | ⟨c,c',-,-,hrun⟩ := mainStep_cases h
  · rfl
  · rfl
  · exact Connections.mainStep_stopApp hrun

theorem handlerStep_stopApp {sh sh' : Process} {f : InvocationPc} {f' : Option InvocationPc}
    (h : handlerStep sh f = .ok (f',sh')) : sh'.tracking.stopApp = sh.tracking.stopApp := by
  cases f with
  | ifBlock p => cases p <;> cases h <;> rfl
  | loops c =>
    obtain ⟨⟨c',tr⟩,hrun,h⟩ := bind_eq_ok.mp h
    cases h
    cases c with
    | cleanup g =>
      obtain ⟨r,hcleanup,hrun⟩ := bind_eq_ok.mp hrun
      cases hrun
      exact Connections.cleanupTermConn_stopApp hcleanup
    | cancel conn =>
      cases conn with
      | none =>
        cases hrun
        rfl
      | some k =>
        obtain ⟨i,-,hrun⟩ := bind_eq_ok.mp hrun
        cases hrun
        rfl

theorem step_stopApp {s t : Sys} {l : Label} (h : step move s l = .ok t) :
    t.shared.tracking.stopApp = (s.shared.tracking.stopApp || isSignal l) := by
  obtain ⟨i,act⟩ := l
  obtain ⟨x,sh,hmove,rfl⟩ := step_ok_iff.mp h
  cases i with
  | client k =>
    obtain ⟨tr,htr,hmove⟩ := bind_eq_ok.mp hmove
    cases hmove
    simpa [isSignal] using (clientMove_same htr).2.2
  | main =>
    cases act with
    | signal signum =>
      simp only [move,mainMove] at hmove
      split at hmove
      · cases hmove
      · split at hmove <;> cases hmove
        simp [isSignal]
    | step ok =>
      simp only [move,mainMove] at hmove
      split at hmove
      · obtain ⟨r,hrun,hmove⟩ := bind_eq_ok.mp hmove
        cases hmove
        simpa [isSignal] using mainStep_keeps_stopApp hrun
      · obtain ⟨⟨f',sh'⟩,hrun,hmove⟩ := bind_eq_ok.mp hmove
        have hsame := handlerStep_stopApp hrun
        cases f' <;> cases hmove <;> simpa [isSignal] using hsame

theorem run_stopApp {s t : Sys} {ls : List Label} (hrun : run move s ls = .ok t)
    (hls : deliveries ls ≠ 0 ∨ s.shared.tracking.stopApp = true) : t.shared.tracking.stopApp = true := by
  induction ls generalizing s with
  | nil =>
    obtain rfl := run_nil.mp hrun
    simpa [deliveries] using hls
  | cons l ls ih =>
    obtain ⟨u,hu,hrest⟩ := run_cons.mp hrun
    apply ih hrest
    rw [step_stopApp hu]
    cases hl : isSignal l with
    | true => simp
    | false => simpa [deliveries,hl] using hls

/-- The main thread without an invocation, and stopApp set. -/
structure Stopping (s : Sys) : Prop where
  single : s.Single
  stop : s.shared.tracking.stopApp = true
  plain : s.main.stack = []

theorem Stopping.main {s : Sys} (h : Stopping s) : SignalDelivery.Single s.shared ⟨s.main.pc,[]⟩ := by
  rw [← h.plain]
  exact h.single

theorem Stopping.statement {s : Sys} {n : ℕ} (h : Stopping s)
    (hn : Distance s.shared.tracking s.main.pc n) (hpc : s.main.pc ≠ .single .exited) (ok : Bool) :
    ∃ t : Sys, step move s (statement ok) = .ok t ∧ Stopping t ∧
      ∃ m < n, Distance t.shared.tracking t.main.pc m := by
  obtain ⟨pc',tr,hstep,hstop,m,hless,hm⟩ := mainStep_nearer h.main h.stop hn hpc ok
  have hmove : mainMove s.shared s.main (.step ok) = .ok (⟨pc',[]⟩,{ s.shared with tracking := tr }) := by
    simp [mainMove,h.plain,hstep,bind,Except.bind,pure,Except.pure]
  refine ⟨_,step_ok_iff.mpr ⟨_,_,hmove,rfl⟩,⟨?_,hstop,by simp [Sys.main]⟩,m,hless,?_⟩
  · simpa [Sys.Single,Sys.main] using mainStep_single h.main hstep
  · simpa [Sys.main] using hm

theorem Stopping.step {s t : Sys} {l : Label} {n : ℕ} (h : Stopping s) (hl : isSignal l = false)
    (hn : Distance s.shared.tracking s.main.pc n) (hstep : step move s l = .ok t) :
    Stopping t ∧ ∃ m, Distance t.shared.tracking t.main.pc m ∧ (if isStatement l then 1 else 0) + m ≤ n := by
  obtain ⟨i,act⟩ := l
  cases i with
  | client k =>
    obtain ⟨x,sh,hmove,rfl⟩ := step_ok_iff.mp hstep
    obtain ⟨tr,htr,hmove⟩ := bind_eq_ok.mp hmove
    cases hmove
    obtain ⟨hstop,hm⟩ := clientMove_distance htr hn
    refine ⟨⟨?_,hstop.trans h.stop,by simpa [Sys.main] using h.plain⟩,n,?_,by simp [isStatement]⟩
    · simpa [Sys.Single,Sys.main] using clientMove_single h.single htr
    · simpa [Sys.main] using hm
  | main =>
    cases act with
    | signal signum => simp [isSignal] at hl
    | step ok =>
      have hpc : s.main.pc ≠ .single .exited := by
        intro hpc
        obtain ⟨x,sh,hmove,-⟩ := step_ok_iff.mp hstep
        change mainMove s.shared s.main (.step ok) = .ok (x,sh) at hmove
        simp [mainMove,h.plain,hpc,mainStep,Connections.mainStep,bind,Except.bind] at hmove
      obtain ⟨t',ht',hafter,m,hless,hm⟩ := h.statement hn hpc ok
      obtain rfl := Except.ok.inj (hstep.symm.trans ht')
      exact ⟨hafter,m,hm,by simp only [isStatement,if_true]; omega⟩

theorem Stopping.run {s t : Sys} {ms : List Label} {n : ℕ} (h : Stopping s) (hms : deliveries ms = 0)
    (hn : Distance s.shared.tracking s.main.pc n) (hrun : run move s ms = .ok t) :
    Stopping t ∧ ∃ m, Distance t.shared.tracking t.main.pc m ∧ ms.countP isStatement + m ≤ n := by
  induction ms generalizing s n with
  | nil =>
    obtain rfl := run_nil.mp hrun
    exact ⟨h,n,hn,by simp⟩
  | cons l ms ih =>
    obtain ⟨u,hu,hrest⟩ := run_cons.mp hrun
    simp only [deliveries,List.countP_cons,Nat.add_eq_zero_iff,ite_eq_right_iff,one_ne_zero,imp_false,
      Bool.not_eq_true] at hms
    obtain ⟨hu',m,hm,hle⟩ := h.step hms.2 hn hu
    obtain ⟨ht,m',hm',hle'⟩ := ih hu' hms.1 hm hrest
    refine ⟨ht,m',hm',?_⟩
    rw [List.countP_cons]
    omega

/-- In a run whose signals land at quiet points, once a signal has been delivered and
signal_handler has returned, the main thread comes to its exit: the socket does not
listen any more, and whatever its calls return and the clients do, its next statement is
possible and there is a bound on how many there are. -/
theorem main_exits {fd : ℤ} (hfd : 0 < fd) {ls : List Label} {s : Sys}
    (hrun : run move (serving fd) ls = .ok s) (hquiet : QuietRun fd ls) (hls : deliveries ls ≠ 0)
    (hout : s.main.stack = []) :
    s.shared.listener.socket ≠ .listening ∧
      ∃ n, ∀ ms, ∀ t : Sys, deliveries ms = 0 → run move s ms = .ok t → ms.countP isStatement ≤ n ∧
        (t.main.pc = .single .exited ∨ ∀ ok, ∃ u, step move t (statement ok) = .ok u) := by
  have hneeds := (serving_needs hfd hrun).2
  have hone := hneeds.of_returned hout
  have hs : Stopping s := ⟨(run_single hrun hquiet hone).1,run_stopApp hrun (.inl hls),hout⟩
  constructor
  · intro hlistening
    have htotal := hneeds.total
    simp [hout,Shutdown.Listener.given,hlistening] at htotal
    omega
  · obtain ⟨n,hn⟩ := exists_distance hs.main
    refine ⟨n,fun ms t hms hrest => ?_⟩
    obtain ⟨ht,m,hm,hle⟩ := hs.run hms hn hrest
    refine ⟨by omega,or_iff_not_imp_left.mpr (fun hpc ok => ?_)⟩
    obtain ⟨u,hu,-⟩ := ht.statement hm hpc ok
    exact ⟨u,hu⟩

/-- A signal lands behind pthread_create, and the handler returns. -/
def interruptedRun : List Label := statements 3 ++ [signal .sigint] ++ statements 7

theorem interruptedRun_exits : ∃ s : Sys, run move (serving 3) interruptedRun = .ok s ∧
    s.shared.tracking.threads 0 = .running ∧ ∃ n, ∀ ms, ∀ t : Sys, deliveries ms = 0 →
      run move s ms = .ok t → ms.countP isStatement ≤ n ∧
        (t.main.pc = .single .exited ∨ ∀ ok, ∃ u, step move t (statement ok) = .ok u) := by
  obtain ⟨s,hrun,hs⟩ := exists_of_returns
    (show returns (fun s : Sys => decide (s.main.stack.length = 0 ∧ s.shared.tracking.threads 0 = .running))
      (run move (serving 3) interruptedRun) = true by decide)
  obtain ⟨hout,hrunning⟩ := of_decide_eq_true hs
  exact ⟨s,hrun,hrunning,(main_exits (by decide) hrun (quietRun_of_pass (by decide)) (by decide)
    (List.eq_nil_of_length_eq_zero hout)).2⟩

/-- Of two connections the second is between the two stores when the signal lands, and
the first has been freed when the main thread comes to it. -/
def dividedRun : List Label :=
  statements 14 ++ [signal .sigint] ++ [⟨.client 0,.terminate⟩] ++ statements 20

example : Connections.violationOf (run move (serving 3) dividedRun) = some .badAccess := by decide

end Aesd.SignalDelivery
