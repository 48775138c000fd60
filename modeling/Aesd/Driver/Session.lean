import Aesd.Driver.Allocations
import Aesd.Driver.ReadSpec

/-! # Runs of file operations

Calls on any number of open files, serialised by the lock of the device. Reading,
writing and seeking go through the position of their own file; the virtual file
system stores a position back only when the operation did not fail. Neither
allocation of a write is checked by the driver, so a run in which one returned
NULL is a run that an access through NULL stops.
-/
namespace Aesd.CharDevice
open CircularBuffer Kernel Lines LineStore

structure Session where
  driver : Driver
  fPos : ℕ → ℕ

inductive Op where
  | write (file : ℕ) (env : WriteEnv) (buf : List UInt8) (count : UInt64)
  | read (file : ℕ) (env : ReadEnv) (count : UInt64)
  | llseek (file : ℕ) (lock : Bool) (offset whence : ℤ)
  | ioctl (file : ℕ) (copy lock : Bool) (cmd : UInt32) (seekto : AesdSeekto)

/-- The value an operation returns, and the bytes that a read delivers. -/
structure Reply where
  ret : ℤ
  data : List UInt8

def storePos (fPos : ℕ → ℕ) (file : ℕ) (ret : ℤ) (pos : ℕ) : ℕ → ℕ :=
  if ret < 0 then fPos else Function.update fPos file pos

def step (fixedSizeLlseek : FixedSizeLlseek) (s : Session) : Op → Except Fault (Reply × Session)
  | .write file env buf count => do
    let (ret,pos,k) ← aesdWrite env s.driver buf count (s.fPos file)
    return (⟨ret,[]⟩,⟨k,storePos s.fPos file ret pos⟩)
  | .read file env count => do
    let (ret,data,pos) ← aesdRead env s.driver count (s.fPos file)
    return (⟨ret,data⟩,⟨s.driver,storePos s.fPos file ret pos⟩)
  | .llseek file lock offset whence =>
    let (ret,pos) := aesdLlseek fixedSizeLlseek lock s.driver (s.fPos file) offset whence
    .ok (⟨ret,[]⟩,⟨s.driver,Function.update s.fPos file pos⟩)
  | .ioctl file copy lock cmd seekto =>
    let (ret,pos) := aesdUnlockedIoctl copy lock s.driver (s.fPos file) cmd seekto
    .ok (⟨ret,[]⟩,⟨s.driver,Function.update s.fPos file pos⟩)

def run (fixedSizeLlseek : FixedSizeLlseek) : Session → List Op → Except Fault (List Reply × Session)
  | s, [] => .ok ([],s)
  | s, op :: ops => do
    let (r,s) ← step fixedSizeLlseek s op
    let (rs,s) ← run fixedSizeLlseek s ops
    return (r :: rs,s)

def start : Session := ⟨aesdInitModule,fun _ => 0⟩

/-- Neither kmalloc nor krealloc returns NULL to the operation. -/
def Op.granted (k : Driver) : Op → Bool
  | .write _ env buf count => !kmallocFails env k count && !kreallocFails env k buf count
  | _ => true

def allGranted (fixedSizeLlseek : FixedSizeLlseek) : Session → List Op → Bool
  | _, [] => true
  | s, op :: ops => op.granted s.driver &&
    match step fixedSizeLlseek s op with
    | .ok (_,s) => allGranted fixedSizeLlseek s ops
    | .error _ => true

/-- No kmalloc and no krealloc of the run returns NULL. -/
def AllocationsSucceed (fixedSizeLlseek : FixedSizeLlseek) (ops : List Op) : Prop :=
  allGranted fixedSizeLlseek start ops = true

instance (fixedSizeLlseek : FixedSizeLlseek) (ops : List Op) :
    Decidable (AllocationsSucceed fixedSizeLlseek ops) :=
  inferInstanceAs (Decidable (_ = _))

/-- Writes have a buffer of count ≥ 1 bytes, and the scan behind the copy of the
buffer meets a NUL or a newline in readable memory. -/
def Op.Ordinary : Op → Prop
  | .write _ env buf count =>
    count.toNat = buf.length ∧ buf ≠ [] ∧ (newline ∈ env.tail ∨ endOfStr ∈ env.tail)
  | _ => True

def Op.stored : Op → List (List UInt8)
  | .write _ env buf _ => if env.lock && env.copy then [takeLine newline buf] else []
  | _ => []

variable {fixedSizeLlseek : FixedSizeLlseek}

theorem step_read {s : Session} {tmp : Option Block} {es : List Block}
    (hk : Holds s.driver tmp es) (file : ℕ) (env : ReadEnv) (count : UInt64) :
    ∃ r pos, step fixedSizeLlseek s (.read file env count) = .ok (r,⟨s.driver,pos⟩) := by
  have hok : ∃ v, aesdRead env s.driver count (s.fPos file) = .ok v := by
    rw [aesdRead_spec hk]
    split
    · exact ⟨_,rfl⟩
    · split <;> exact ⟨_,rfl⟩
  obtain ⟨v,hv⟩ := hok
  exact ⟨⟨v.1,v.2.1⟩,storePos s.fPos file v.1 v.2.2,by simp only [step,hv,bind,Except.bind]; rfl⟩

/-- Every ordinary operation returns and keeps the ownership description; only the
line of a successful write changes the content. -/
theorem step_spec {s : Session} {tmp : Option Block} {es : List Block}
    (hk : Holds s.driver tmp es) {op : Op} (hop : op.Ordinary)
    (halloc : step fixedSizeLlseek s op ≠ .error .nullPtr) :
    ∃ r s' tmp' es', step fixedSizeLlseek s op = .ok (r,s') ∧ Holds s'.driver tmp' es' ∧
      storeOf tmp' es' = op.stored.foldl (accept newline 10) (storeOf tmp es) ∧
      ∀ line ∈ op.stored, r.ret = line.length := by
  cases op with
  | write file env buf count =>
    obtain ⟨hcount,hbuf,htail⟩ := hop
    have hnull : aesdWrite env s.driver buf count (s.fPos file) ≠ .error .nullPtr := by
      intro h
      exact halloc (by simp [step,h,bind,Except.bind])
    obtain ⟨r,pos,k',tmp',es',hw,hk',hres⟩ := aesdWrite_spec hk env _ hcount hbuf (fun _ => Or.inr htail) hnull
    refine ⟨⟨r,[]⟩,⟨k',storePos s.fPos file r pos⟩,tmp',es',?_,hk',?_,?_⟩
    · simp [step,hw,bind,Except.bind,pure,Except.pure]
    · cases hb : env.lock && env.copy with
      | false =>
        rw [hb] at hres
        obtain ⟨-,rfl,rfl⟩ := hres
        simp [Op.stored,hb]
      | true =>
        rw [hb] at hres
        simpa [Op.stored,hb] using hres.2.2
    · intro line hline
      cases hb : env.lock && env.copy with
      | false => simp [Op.stored,hb] at hline
      | true =>
        rw [hb] at hres
        simp only [Op.stored,hb,if_true,List.mem_singleton] at hline
        rw [hline]
        exact hres.1
  | read file env count =>
    obtain ⟨r,pos,hstep⟩ := @step_read fixedSizeLlseek _ _ _ hk file env count
    exact ⟨r,_,tmp,es,hstep,hk,rfl,by simp [Op.stored]⟩
  | llseek file lock offset whence =>
    exact ⟨_,⟨s.driver,_⟩,tmp,es,rfl,hk,rfl,by simp [Op.stored]⟩
  | ioctl file copy lock cmd seekto =>
    exact ⟨_,⟨s.driver,_⟩,tmp,es,rfl,hk,rfl,by simp [Op.stored]⟩

theorem run_cons {s : Session} {op : Op} {ops : List Op} {r : Reply} {s' : Session}
    (h : step fixedSizeLlseek s op = .ok (r,s')) :
    run fixedSizeLlseek s (op :: ops) =
      (run fixedSizeLlseek s' ops).map (fun q => (r :: q.1,q.2)) := by
  rw [run,h]
  simp only [bind,Except.bind]
  cases run fixedSizeLlseek s' ops <;> rfl

theorem run_spec {s : Session} {tmp : Option Block} {es : List Block}
    (hk : Holds s.driver tmp es) {ops : List Op} (hops : ∀ op ∈ ops, op.Ordinary)
    (halloc : run fixedSizeLlseek s ops ≠ .error .nullPtr) :
    ∃ rs s' tmp' es', run fixedSizeLlseek s ops = .ok (rs,s') ∧ Holds s'.driver tmp' es' ∧
      storeOf tmp' es' = (ops.flatMap Op.stored).foldl (accept newline 10) (storeOf tmp es) ∧
      List.Forall₂ (fun op r => ∀ line ∈ op.stored, r.ret = line.length) ops rs := by
  induction ops generalizing s tmp es with
  | nil => exact ⟨[],s,tmp,es,rfl,hk,rfl,.nil⟩
  | cons op ops ih =>
    have hnull : step fixedSizeLlseek s op ≠ .error .nullPtr := by
      intro h
      exact halloc (by simp [run,h,bind,Except.bind])
    obtain ⟨r,s₁,tmp₁,es₁,hstep,hk₁,hst,hret⟩ := step_spec hk (hops op List.mem_cons_self) hnull
    rw [run_cons hstep] at halloc ⊢
    have hrest : run fixedSizeLlseek s₁ ops ≠ .error .nullPtr := by
      intro h
      exact halloc (by rw [h]; rfl)
    obtain ⟨rs,s₂,tmp₂,es₂,hrun,hk₂,hst₂,hrets⟩ :=
      ih hk₁ (fun o ho => hops o (List.mem_cons_of_mem _ ho)) hrest
    refine ⟨r :: rs,s₂,tmp₂,es₂,by rw [hrun]; rfl,hk₂,?_,.cons hret hrets⟩
    rw [hst₂,hst,List.flatMap_cons,List.foldl_append]

/-- A write names a buffer of exactly count bytes. -/
def Op.Sized : Op → Prop
  | .write _ _ buf count => count.toNat = buf.length
  | _ => True

/-- Device states after any calls, failing ones included, that all returned. -/
def Reachable (k : Driver) : Prop :=
  ∃ fixedSizeLlseek ops rs s, (∀ op ∈ ops, Op.Sized op) ∧
    run fixedSizeLlseek start ops = .ok (rs,s) ∧ s.driver = k

theorem step_outcome {s : Session} {tmp : Option Block} {es : List Block} {op : Op}
    (hk : Holds s.driver tmp es) (hop : op.Sized) :
    (∃ r s' tmp' es', step fixedSizeLlseek s op = .ok (r,s') ∧ Holds s'.driver tmp' es') ∨
    step fixedSizeLlseek s op = .error .nullPtr ∨ step fixedSizeLlseek s op = .error .outOfBounds := by
  cases op with
  | write file env buf count =>
    rcases aesdWrite_outcome hk env (s.fPos file) hop with
      ⟨r,pos,k',tmp',es',hw,hk'⟩ | hw | hw
    · left
      exact ⟨⟨r,[]⟩,⟨k',_⟩,tmp',es',by simp only [step,hw,bind,Except.bind]; rfl,hk'⟩
    · exact Or.inr (Or.inl (by simp only [step,hw,bind,Except.bind]))
    · exact Or.inr (Or.inr (by simp only [step,hw,bind,Except.bind]))
  | read file env count =>
    obtain ⟨r,pos,hstep⟩ := @step_read fixedSizeLlseek _ _ _ hk file env count
    exact Or.inl ⟨r,_,tmp,es,hstep,hk⟩
  | llseek file lock offset whence => exact Or.inl ⟨_,⟨s.driver,_⟩,tmp,es,rfl,hk⟩
  | ioctl file copy lock cmd seekto => exact Or.inl ⟨_,⟨s.driver,_⟩,tmp,es,rfl,hk⟩

/-- A run either returns from all of its calls with the blocks accounted for, or was
stopped as one write is. -/
theorem run_outcome {s : Session} {tmp : Option Block} {es : List Block} {ops : List Op}
    (hk : Holds s.driver tmp es) (hops : ∀ op ∈ ops, op.Sized) :
    (∃ rs s' tmp' es', run fixedSizeLlseek s ops = .ok (rs,s') ∧ Holds s'.driver tmp' es') ∨
    run fixedSizeLlseek s ops = .error .nullPtr ∨ run fixedSizeLlseek s ops = .error .outOfBounds := by
  induction ops generalizing s tmp es with
  | nil => exact Or.inl ⟨[],s,tmp,es,rfl,hk⟩
  | cons op ops ih =>
    rcases @step_outcome fixedSizeLlseek _ _ _ _ hk (hops op List.mem_cons_self) with
      ⟨r,s₁,tmp₁,es₁,hstep,hk₁⟩ | hstep | hstep
    · rw [run_cons hstep]
      rcases ih hk₁ (fun o ho => hops o (List.mem_cons_of_mem _ ho)) with
        ⟨rs,s₂,tmp₂,es₂,hrun,hk₂⟩ | hrun | hrun
      · exact Or.inl ⟨r :: rs,s₂,tmp₂,es₂,by rw [hrun]; rfl,hk₂⟩
      · exact Or.inr (Or.inl (by rw [hrun]; rfl))
      · exact Or.inr (Or.inr (by rw [hrun]; rfl))
    · exact Or.inr (Or.inl (by simp only [run,hstep,bind,Except.bind]))
    · exact Or.inr (Or.inr (by simp only [run,hstep,bind,Except.bind]))

theorem Op.Ordinary.sized {op : Op} (h : op.Ordinary) : op.Sized := by
  cases op with
  | write => exact h.1
  | _ => trivial

theorem step_nullPtr_iff {s : Session} {tmp : Option Block} {es : List Block} {op : Op}
    (hk : Holds s.driver tmp es) (hop : op.Sized) :
    step fixedSizeLlseek s op = .error .nullPtr ↔ op.granted s.driver = false := by
  cases op with
  | write file env buf count =>
    have hnull : aesdWrite env s.driver buf count (s.fPos file) = .error .nullPtr ↔
        kmallocFails env s.driver count = true ∨ kreallocFails env s.driver buf count = true :=
      aesdWrite_nullPtr_iff hk (s.fPos file) hop
    have hstep : step fixedSizeLlseek s (.write file env buf count) = .error .nullPtr ↔
        aesdWrite env s.driver buf count (s.fPos file) = .error .nullPtr := by
      simp only [step,bind,Except.bind]
      cases aesdWrite env s.driver buf count (s.fPos file) <;> simp [pure,Except.pure]
    rw [hstep,hnull]
    simp only [Op.granted,Bool.and_eq_false_iff,Bool.not_eq_false']
  | read file env count =>
    obtain ⟨r,pos,hstep⟩ := @step_read fixedSizeLlseek _ _ _ hk file env count
    simp [hstep,Op.granted]
  | llseek | ioctl => simp [step,Op.granted]

theorem run_nullPtr_iff {s : Session} {tmp : Option Block} {es : List Block} {ops : List Op}
    (hk : Holds s.driver tmp es) (hops : ∀ op ∈ ops, op.Sized) :
    run fixedSizeLlseek s ops = .error .nullPtr ↔ allGranted fixedSizeLlseek s ops = false := by
  induction ops generalizing s tmp es with
  | nil => simp [run,allGranted]
  | cons op ops ih =>
    have hop := hops op List.mem_cons_self
    have hnull : step fixedSizeLlseek s op = .error .nullPtr ↔ op.granted s.driver = false :=
      step_nullPtr_iff hk hop
    rcases @step_outcome fixedSizeLlseek _ _ _ _ hk hop with ⟨r,s₁,tmp₁,es₁,hstep,hk₁⟩ | hstep | hstep
    · have hgranted : op.granted s.driver = true := by
        simpa [hstep] using hnull
      rw [run_cons hstep]
      simp only [allGranted,hgranted,hstep,Bool.true_and]
      rw [← ih hk₁ (fun o ho => hops o (List.mem_cons_of_mem _ ho))]
      cases run fixedSizeLlseek s₁ ops <;> simp [Except.map]
    · simp [run,allGranted,hstep,hnull.mp hstep,bind,Except.bind]
    · have hgranted : op.granted s.driver = true := by
        simpa [hstep] using hnull
      simp [run,allGranted,hstep,hgranted,bind,Except.bind]

/-- A run dereferences NULL exactly if one of its allocations was refused. -/
theorem allocationsSucceed_iff {ops : List Op} (hops : ∀ op ∈ ops, op.Sized) :
    AllocationsSucceed fixedSizeLlseek ops ↔ run fixedSizeLlseek start ops ≠ .error .nullPtr := by
  rw [AllocationsSucceed,Ne,run_nullPtr_iff (s := start) holds_init hops,Bool.not_eq_false]

theorem Reachable.holds {k : Driver} (hk : Reachable k) : ∃ tmp es, Holds k tmp es := by
  obtain ⟨f,ops,rs,s,hops,hrun,rfl⟩ := hk
  rcases @run_outcome f start _ _ _ holds_init hops with
    ⟨rs',s',tmp,es,hrun',hk⟩ | herr | herr
  · rw [hrun,Except.ok.injEq,Prod.mk.injEq] at hrun'
    obtain ⟨-,rfl⟩ := hrun'
    exact ⟨tmp,es,hk⟩
  · simp [hrun] at herr
  · simp [hrun] at herr

end Aesd.CharDevice
