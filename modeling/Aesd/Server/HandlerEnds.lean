import Aesd.Server.CriticalSections
import Aesd.Server.LineBuffer

/-! # When all handlers can end

signal_handler asks every client thread to end and then waits for all of them. On its way
to pthread_mutex_lock, which is no cancellation point, a thread has to get the mutex
first, and on from there to the system call of its append. It can, unless the mutex belongs
to a handler that moves no more or its own text leads the parser out of bounds; then the
shutdown waits for ever, and in all other states it can come to its end.
-/
namespace Aesd.Server
open CharDevice Kernel CString Interleaving CriticalSection

/-- Nobody waits for this thread. -/
def Conn.over (x : Conn) : Bool := x.pc ∈ [Pc.idle,.refused,.done]

/-- The thread has no way around its next pthread_mutex_lock. -/
def Conn.bound (charDevice : Bool) (x : Conn) : Bool :=
  x.logs = 0 ∧ (x.pc = .lock ∨ x.hasNl = true ∧ (x.pc = .stage ∨ (charDevice = true ∧ x.pc = .seek)))

/-- The thread is on its way to an append that does not come to its system call, whatever
realloc gives. -/
def Conn.Doomed (charDevice : Bool) (x : Conn) : Prop :=
  match x.pc with
  | .append => beforeAppend charDevice x.buffer ≠ .ok ()
  | .lock => x.bound charDevice = true ∧ beforeAppend charDevice x.buffer ≠ .ok ()
  | .stage | .seek => x.bound charDevice = true ∧ ∀ env buffer maxbuflen,
    appendString env x.buffer x.maxbuflen x.buflen x.recvBuf x.currlen = .ok (buffer,maxbuflen) →
      beforeAppend charDevice buffer ≠ .ok ()
  | _ => False

def lockFails : Label → Bool
  | ⟨.handler _,.call (.lock rc)⟩ => rc ≠ 0
  | _ => false

/-- A move of the shutdown: nobody connects or sends any more, and no handler's lock fails. -/
def isShutdown : Label → Bool
  | ⟨.handler _,.accept _ _ _⟩ => false
  | ⟨.handler _,.call (.recv (some _))⟩ => false
  | l => !lockFails l

variable {charDevice : Bool}

/-! ## A handler that is stuck or doomed -/

theorem Conn.Doomed.cases {x : Conn} (hx : x.Doomed charDevice) :
    x.pc = .append ∧ beforeAppend charDevice x.buffer ≠ .ok () ∨
    x.bound charDevice = true ∧ (x.pc = .lock → beforeAppend charDevice x.buffer ≠ .ok ()) ∧
      (x.pc ≠ .lock → ∀ env buffer maxbuflen,
        appendString env x.buffer x.maxbuflen x.buflen x.recvBuf x.currlen = .ok (buffer,maxbuflen) →
          beforeAppend charDevice buffer ≠ .ok ()) := by
  cases hpc : x.pc with
  | append => exact .inl ⟨rfl,by simpa only [Conn.Doomed,hpc] using hx⟩
  | lock | stage | seek => exact .inr (by simpa [Conn.Doomed,hpc] using hx)
  | _ => simp [Conn.Doomed,hpc] at hx

/-- The handler can come to its end by moves of a shutdown, and gives back the mutex. -/
def CanEnd (charDevice : Bool) (c : ℕ) (sh : Shared) (x : Conn) : Prop :=
  Reaches (move charDevice) (.handler c) (fun m => isShutdown ⟨.handler c,m⟩ = true)
    (fun (x' : Conn) sh' => x'.pc = .done ∧ sh'.mutex = (sh.unlock (.handler c)).mutex) sh x

theorem CanEnd.step {c : ℕ} {sh sh' : Shared} {x x' : Conn} {m : Move}
    (hshut : isShutdown ⟨.handler c,m⟩ = true) (hmove : move charDevice (.handler c) sh x m = .ok (x',sh'))
    (hmutex : (sh'.unlock (.handler c)).mutex = (sh.unlock (.handler c)).mutex)
    (h : CanEnd charDevice c sh' x') : CanEnd charDevice c sh x := by
  rw [CanEnd,← hmutex]
  exact Reaches.step hshut hmove h

set_option maxRecDepth 4000

end Aesd.Server
