import Aesd.Driver.Session

/-! # The device as a store of the written stream

Sequences of writes through any number of open files. Each call takes a line from
the front of its buffer, and the device holds the newest ten lines of everything
taken so far together with the unfinished rest.
-/
namespace Aesd.CharDevice
open CircularBuffer Kernel Lines LineStore

/-- A write of count ≥ 1 bytes through some open file. -/
structure WriteCall where
  file : ℕ
  env : WriteEnv
  buf : List UInt8
  count : UInt64
  sized : count.toNat = buf.length
  positive : 1 ≤ count.toNat

def WriteCall.op (c : WriteCall) : Op := .write c.file c.env c.buf c.count

/-- The lock is taken, the copy succeeds, and the memory behind the copy is readable
up to a NUL or a newline. -/
def WriteCall.Succeeds (c : WriteCall) : Prop :=
  c.env.lock = true ∧ c.env.copy = true ∧ (newline ∈ c.env.tail ∨ endOfStr ∈ c.env.tail)

/-- The prefix a call consumes. -/
def WriteCall.line (c : WriteCall) : List UInt8 := takeLine newline c.buf

def stream (calls : List WriteCall) : List UInt8 := (calls.map WriteCall.line).flatten

theorem WriteCall.buf_ne_nil (c : WriteCall) : c.buf ≠ [] := by
  intro h
  have hs := c.sized
  have hp := c.positive
  simp [h] at hs
  omega

theorem WriteCall.Succeeds.ordinary {c : WriteCall} (hc : c.Succeeds) : c.op.Ordinary :=
  ⟨c.sized,c.buf_ne_nil,hc.2.2⟩

theorem WriteCall.Succeeds.stored {c : WriteCall} (hc : c.Succeeds) : c.op.stored = [c.line] := by
  simp [WriteCall.op,Op.stored,hc.1,hc.2.1,WriteCall.line]

theorem WriteCall.length_line (c : WriteCall) : 1 ≤ c.line.length ∧ c.line.length ≤ c.count.toNat := by
  refine ⟨length_takeLine_pos newline c.buf_ne_nil,?_⟩
  rw [c.sized]
  exact (takeLine_isPrefix newline c.buf).length_le

variable {fixedSizeLlseek : FixedSizeLlseek}

/-- The state after a run of successful writes is the store of their stream. -/
theorem writes_spec {calls : List WriteCall} (hok : ∀ c ∈ calls, c.Succeeds)
    (halloc : AllocationsSucceed fixedSizeLlseek (calls.map WriteCall.op)) :
    ∃ rs s tmp es, run fixedSizeLlseek start (calls.map WriteCall.op) = .ok (rs,s) ∧
      Holds s.driver tmp es ∧ storeOf tmp es = ofStream newline 10 (stream calls) ∧
      rs.map Reply.ret = calls.map (fun c => (c.line.length : ℤ)) := by
  have hops : ∀ op ∈ calls.map WriteCall.op, op.Ordinary := by
    intro op hop
    obtain ⟨c,hc,rfl⟩ := List.mem_map.mp hop
    exact (hok c hc).ordinary
  have hnull := (allocationsSucceed_iff (fun op hop => (hops op hop).sized)).mp halloc
  obtain ⟨rs,s,tmp,es,hrun,hk,hst,hret⟩ := run_spec (s := start) holds_init hops hnull
  refine ⟨rs,s,tmp,es,hrun,hk,?_,?_⟩
  · have hstored : (calls.map WriteCall.op).flatMap Op.stored =
        (calls.map WriteCall.buf).map (takeLine newline) := by
      clear hrun hret hst hops halloc hnull
      induction calls with
      | nil => rfl
      | cons c calls ih =>
        rw [List.map_cons,List.flatMap_cons,(hok c List.mem_cons_self).stored,
          ih (fun c' hc' => hok c' (List.mem_cons_of_mem _ hc'))]
        rfl
    rw [hst,hstored,show storeOf none [] = ofStream newline 10 [] from by simp [storeOf,bytesOf],
      foldl_accept,List.nil_append,List.map_map]
    rfl
  · clear hrun hst hops halloc hnull
    induction calls generalizing rs with
    | nil =>
      cases hret
      rfl
    | cons c calls ih =>
      obtain ⟨r,rs',hr,hrs,rfl⟩ := List.forall₂_cons_left_iff.mp hret
      have hc := hr c.line (by rw [(hok c List.mem_cons_self).stored]; simp)
      rw [List.map_cons,List.map_cons,hc,ih (fun c' hc' => hok c' (List.mem_cons_of_mem _ hc')) rs' hrs]

/-- Each call consumes its first line and returns the length; the live entries are the
newest ten lines of the consumed stream, tmpbuf is its unfinished rest, and runs
that consume the same stream leave the same content. -/
theorem writes_keep_newest_lines {calls : List WriteCall} (hok : ∀ c ∈ calls, c.Succeeds)
    (halloc : AllocationsSucceed fixedSizeLlseek (calls.map WriteCall.op)) :
    ∃ rs s, run fixedSizeLlseek start (calls.map WriteCall.op) = .ok (rs,s) ∧
      rs.map Reply.ret = calls.map (fun c => (c.line.length : ℤ)) ∧
      (∀ c ∈ calls, c.line <+: c.buf ∧ 1 ≤ c.line.length ∧ c.line.length ≤ c.count.toNat) ∧
      contents s.driver = (lines newline (stream calls)).rtake 10 ∧
      (live s.driver.dev.circularBuffer).map (fun e => e.size.toNat) =
        ((lines newline (stream calls)).rtake 10).map List.length ∧
      pending s.driver = rest newline (stream calls) ∧
      ∀ calls₂ : List WriteCall, (∀ c ∈ calls₂, c.Succeeds) → stream calls₂ = stream calls →
        ∀ rs₂ s₂, run fixedSizeLlseek start (calls₂.map WriteCall.op) = .ok (rs₂,s₂) →
          contents s₂.driver = contents s.driver ∧ pending s₂.driver = pending s.driver := by
  obtain ⟨rs,s,tmp,es,hrun,hk,hst,hret⟩ := writes_spec hok halloc
  obtain ⟨hcon,hpen⟩ := Prod.mk.inj hst
  rw [← hk.contents_eq] at hcon
  rw [← hk.pending_eq] at hpen
  refine ⟨rs,s,hrun,hret,fun c _ => ⟨takeLine_isPrefix newline c.buf,c.length_line⟩,hcon,?_,hpen,?_⟩
  · rw [hk.sizes_eq,hcon]
  · intro calls₂ hok₂ hsame rs₂ s₂ hrun₂
    have halloc₂ : AllocationsSucceed fixedSizeLlseek (calls₂.map WriteCall.op) := by
      refine (allocationsSucceed_iff (fun op hop => ?_)).mpr (by simp [hrun₂])
      obtain ⟨c,-,rfl⟩ := List.mem_map.mp hop
      exact c.sized
    obtain ⟨rs₃,s₃,tmp₃,es₃,hrun₃,hk₃,hst₃,-⟩ := writes_spec hok₂ halloc₂
    rw [hrun₂,Except.ok.injEq,Prod.mk.injEq] at hrun₃
    obtain ⟨-,rfl⟩ := hrun₃
    rw [hsame] at hst₃
    obtain ⟨hcon₃,hpen₃⟩ := Prod.mk.inj hst₃
    rw [← hk₃.contents_eq] at hcon₃
    rw [← hk₃.pending_eq] at hpen₃
    exact ⟨hcon₃.trans hcon.symm,hpen₃.trans hpen.symm⟩

def splitLineCalls : List WriteCall :=
  [⟨0,grantingEnv,[97],1,rfl,by decide⟩,⟨1,grantingEnv,[98,10,99],3,rfl,by decide⟩]

theorem splitLineCalls_contents :
    ∃ rs s, run (fun f _ _ _ => (0,f)) start (splitLineCalls.map WriteCall.op) = .ok (rs,s) ∧
      rs.map Reply.ret = [1,2] ∧ contents s.driver = [[97,98,10]] ∧ pending s.driver = [] := by
  have hok : ∀ c ∈ splitLineCalls, c.Succeeds := by
    simp [splitLineCalls,WriteCall.Succeeds,grantingEnv]
  obtain ⟨rs,s,hrun,hret,-,hcon,-,hpen,-⟩ := @writes_keep_newest_lines
    (fun f _ _ _ => (0,f)) _ hok (by decide)
  exact ⟨rs,s,hrun,hret.trans (by decide),hcon.trans (by decide),hpen.trans (by decide)⟩

end Aesd.CharDevice
