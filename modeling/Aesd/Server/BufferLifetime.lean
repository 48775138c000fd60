import Aesd.Foundation.Lifetime
import Aesd.Server.MutexRelease

/-! # The blocks of a connection

accept_conn allocates the address and the string of a client, its thread uses them, and
connection_cleanup frees them. In every run they are allocated once, used only while they
are live, and freed once at most. They are lost where pthread_create fails, and where a
cancellation ends connection_cleanup before it has come to its calls of free.
-/
namespace Aesd.Server
open CharDevice Kernel Interleaving Lifetime

/-- What a move does with the blocks. A syslog call may print the address; a call of
append_string may move the string. -/
def Move.usage : Move → Option Usage
  | .accept _ _ _ => some .allocate
  | .syslog | .call .start | .call (.stage _) | .call (.append _) | .call (.rest _) => some .use
  | .call .release => some .free
  | _ => none

/-- What has become of the blocks of a handler; a cancellation has hit its cleanup or not. -/
structure Owned (x : Conn) (hit : Prop) (st : Status) : Prop where
  idle : x.pc = .idle → x.logs = 0 ∧ st = .unallocated ∧ ¬ hit
  done : x.pc = .done → x.logs = 0 ∧ (st = .freed ↔ ¬ hit)
  busy : x.pc ≠ .idle → x.pc ≠ .done → st = .live ∧ ¬ hit

theorem Owned.of_busy {x : Conn} {hit : Prop} {st : Status} (hidle : x.pc ≠ .idle) (hdone : x.pc ≠ .done)
    (hst : st = .live ∧ ¬ hit) : Owned x hit st :=
  ⟨fun h => absurd h hidle,fun h => absurd h hdone,fun _ _ => hst⟩

/-- A handler that is neither idle nor done uses its blocks in order. -/
theorem HandlerStep.owned {charDevice : Bool} {c : ℕ} {sh sh' : Shared} {x x' : Conn} {m : Move}
    {hit : Prop} {st : Status} (h : HandlerStep charDevice c sh x m x' sh') (hx : Owned x hit st) :
    ∃ st', m.usage.toList.foldlM next st = some st' ∧
      Owned x' (hit ∨ (m = .cancel ∧ x.inCleanup = true)) st' := by
  obtain ⟨hidle,hdone,hbusy⟩ := hx
  have hlive : 0 < x.logs → st = .live ∧ ¬ hit := by
    intro hlogs
    refine hbusy (fun hpc => ?_) (fun hpc => ?_)
    · exact absurd (hidle hpc).1 hlogs.ne'
    · exact absurd (hdone hpc).1 hlogs.ne'
  cases h with
  | accept hpc | refuse hpc =>
    obtain ⟨-,rfl,hnot⟩ := hidle hpc
    exact ⟨.live,rfl,.of_busy (by simp) (by simp) ⟨rfl,by simpa using hnot⟩⟩
  | syslog hlogs =>
    obtain ⟨rfl,hnot⟩ := hlive hlogs
    refine ⟨.live,rfl,⟨fun hpc => ?_,fun hpc => ?_,fun _ _ => ⟨rfl,by simpa using hnot⟩⟩⟩
    · exact absurd (hidle hpc).2.1 (by simp)
    · exact absurd (hdone hpc).1 hlogs.ne'
  | requestCancel => exact ⟨st,rfl,by simpa using ⟨hidle,hdone,hbusy⟩⟩
  | cancelInCleanup hreq hnotyet hpoint hin =>
    have hst : st = .live ∧ ¬ hit := by
      refine hbusy ?_ ?_ <;> intro hpc <;> simp [Conn.inCleanup,hpc] at hin
    obtain ⟨rfl,-⟩ := hst
    exact ⟨.live,rfl,⟨by simp,by simp [hin],by simp⟩⟩
  | cancel hreq hnotyet hpoint hout =>
    have hst : st = .live ∧ ¬ hit := by
      by_cases hlogs : 0 < x.logs
      · exact hlive hlogs
      · refine hbusy ?_ ?_ <;> intro hpc <;> simp [Conn.atCancellationPoint,hpc,hlogs] at hpoint
    obtain ⟨rfl,hnot⟩ := hst
    exact ⟨.live,rfl,.of_busy (by simp) (by simp) ⟨rfl,by simpa [hout] using hnot⟩⟩
  | release hlogs hpc =>
    obtain ⟨rfl,hnot⟩ := hbusy (by simp [hpc]) (by simp [hpc])
    exact ⟨.freed,rfl,⟨by simp,by simp [hlogs,hnot],by simp⟩⟩
  | stage hlogs hpc =>
    obtain ⟨rfl,hnot⟩ := hbusy (by simp [hpc]) (by simp [hpc])
    refine ⟨.live,rfl,.of_busy ?_ ?_ ⟨rfl,by simpa using hnot⟩⟩ <;> dsimp only <;> split <;> simp
  | _ =>
    obtain ⟨rfl,hnot⟩ := hbusy (by simp_all) (by simp_all)
    exact ⟨.live,rfl,.of_busy (by simp) (by simp) ⟨rfl,by simpa using hnot⟩⟩

variable {charDevice : Bool}

set_option maxRecDepth 4000

end Aesd.Server
