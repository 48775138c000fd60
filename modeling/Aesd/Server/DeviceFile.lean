import Aesd.Driver.ReadSpec
import Aesd.Driver.WriteSpec
import Aesd.Server.DataFile

/-! # The data file as the char device

What append_datafile and read do to a device without an unfinished line. As long as
the bytes of each write contain a newline, the device stays in such a state.
-/
namespace Aesd.Server
open CharDevice Kernel CString Lines LineStore Window Positions

theorem bmod_natCast_le (n m : ℕ) : Int.bmod n m ≤ n := by
  have hmod := Nat.mod_le n m
  rw [Int.bmod_def,← Int.natCast_emod]
  split <;> omega

theorem intOf_toNat_le (n : ℕ) : (intOf n).toNat ≤ n := by
  have h : intOf n ≤ n := bmod_natCast_le n (2^32)
  omega

theorem intOf_of_lt {n : ℕ} (h : n < 2^31) : intOf n = n := Int.bmod_eq_of_le (by omega) (by omega)

/-- The device holds these lines and no unfinished one. -/
def Settled (k : Driver) (ls : List (List UInt8)) : Prop :=
  ∃ es, Holds k none es ∧ es.map Prod.snd = ls

theorem settled_init : Settled aesdInitModule [] := ⟨[],holds_init,rfl⟩

theorem Settled.contents_eq {k : Driver} {ls : List (List UInt8)} (h : Settled k ls) : contents k = ls := by
  obtain ⟨es,hk,rfl⟩ := h
  exact hk.contents_eq

theorem Settled.pending_eq {k : Driver} {ls : List (List UInt8)} (h : Settled k ls) : pending k = [] := by
  obtain ⟨es,hk,-⟩ := h
  exact hk.pending_eq

/-- A write that contains a newline fails and changes nothing, or stores its first line. -/
theorem aesdWrite_settled {k k' : Driver} {ls : List (List UInt8)} (hk : Settled k ls) {env : WriteEnv}
    {buf : List UInt8} {count : UInt64} {fPos pos : ℕ} {ret : ℤ} (hcount : count.toNat = buf.length)
    (hnl : newline ∈ buf) (h : aesdWrite env k buf count fPos = .ok (ret,pos,k')) :
    if env.lock && env.copy then
      ret = (takeLine newline buf).length ∧ pos = 0 ∧ Settled k' (push 10 ls (takeLine newline buf))
    else ret < 0 ∧ Settled k' ls := by
  obtain ⟨es,hk,rfl⟩ := hk
  obtain ⟨r,pos',k₁,tmp',es',hw,hk',hres⟩ := aesdWrite_spec hk env fPos hcount
    (List.ne_nil_of_mem hnl) (fun _ => Or.inl hnl) (by rw [h]; simp)
  rw [h,Except.ok.injEq,Prod.mk.injEq,Prod.mk.injEq] at hw
  obtain ⟨rfl,rfl,rfl⟩ := hw
  split at hres
  · obtain ⟨hret,hpos,hstore⟩ := hres
    rw [accept,if_pos ((mem_takeLine_iff newline buf).mpr hnl)] at hstore
    obtain ⟨hes,htmp⟩ := Prod.mk.inj hstore
    simp only [storeOf,bytesOf,Option.elim_none,List.nil_append] at hes
    have hnone : tmp' = none := by
      cases tmp' with
      | none => rfl
      | some b => exact absurd htmp (hk'.nonempty b (by simp))
    rw [hnone] at hk'
    rw [if_pos ‹_›]
    exact ⟨hret,hpos,es',hk',hes⟩
  · obtain ⟨hret,rfl,rfl⟩ := hres
    rw [if_neg ‹_›]
    exact ⟨hret,es',hk',rfl⟩

/-- The bytes that append_datafile hands to the driver, if it gets to a write at all. -/
def deviceWrite (env : AppendEnv) (fd : ℤ) (buf : List UInt8) (size : ℤ) : Option (List UInt8) :=
  match parseSeektoCmd env.x env.y buf size,writeCount fd size with
  | .ok none,some n => some (buf.take n)
  | _,_ => none

theorem deviceWrite_isPrefix {env : AppendEnv} {fd : ℤ} {buf payload bytes : List UInt8}
    (hpayload : cstr buf = some payload)
    (h : deviceWrite env fd buf (intOf payload.length) = some bytes) : bytes <+: payload := by
  unfold deviceWrite at h
  split at h
  · rename_i n hp hw
    obtain rfl := Option.some.inj h
    have hn : n ≤ payload.length := by
      have hle := intOf_toNat_le payload.length
      simp only [writeCount] at hw
      split at hw
      · simp at hw
      · obtain rfl := Option.some.inj hw
        omega
    obtain ⟨-,t,rfl⟩ := exists_of_cstr hpayload
    rw [List.take_append_of_le_length hn]
    apply List.take_prefix
  · simp at h

theorem appendDatafile_settled {env : AppendEnv} {d : DataFile} {fd size : ℤ} {fPos : ℕ}
    {buf : List UInt8} {r : AppendResult} {ls : List (List UInt8)} (hd : Settled d.device ls)
    (hsize : size.toNat ≤ buf.length) (h : appendDatafile true env d fd fPos buf size = .ok r)
    (hnl : ∀ bytes, deviceWrite env fd buf size = some bytes → newline ∈ bytes) :
    (Settled r.data.device ls ∧ r.accepted = [] ∧
      (deviceWrite env fd buf size = none ∨ (env.write.lock && env.write.copy) = false)) ∨
    ∃ bytes, deviceWrite env fd buf size = some bytes ∧ r.accepted = takeLine newline bytes ∧
      r.fPos = 0 ∧ Settled r.data.device (push 10 ls (takeLine newline bytes)) := by
  simp only [appendDatafile,if_true] at h
  cases hp : parseSeektoCmd env.x env.y buf size with
  | error f => simp [hp,bind,Except.bind] at h
  | ok cmd =>
    simp only [hp,bind,Except.bind] at h
    cases cmd with
    | some seekto =>
      obtain rfl := Except.ok.inj h
      have hkeep : (seekDevice env d fd fPos seekto).data = d ∧
          (seekDevice env d fd fPos seekto).accepted = [] := by
        unfold seekDevice
        split <;> exact ⟨rfl,rfl⟩
      exact Or.inl ⟨by rw [hkeep.1]; exact hd,hkeep.2,Or.inl (by simp [deviceWrite,hp])⟩
    | none =>
      simp only [writeDevice] at h
      cases hw : writeCount fd size with
      | none =>
        simp only [hw] at h
        obtain rfl := Except.ok.inj h
        exact Or.inl ⟨hd,rfl,Or.inl (by simp [deviceWrite,hp,hw])⟩
      | some n =>
        have hdev : deviceWrite env fd buf size = some (buf.take n) := by simp [deviceWrite,hp,hw]
        have hn : n ≤ buf.length ∧ n ≤ maxRwCount := by
          simp only [writeCount] at hw
          split at hw
          · simp at hw
          · obtain rfl := Option.some.inj hw
            omega
        have hcount : (UInt64.ofNat n).toNat = (buf.take n).length := by
          rw [UInt64.toNat_ofNat',List.length_take]
          simp only [maxRwCount] at hn
          omega
        simp only [hw] at h
        cases ha : aesdWrite env.write d.device (buf.take n) (UInt64.ofNat n) fPos with
        | error f => simp [ha,bind,Except.bind] at h
        | ok v =>
          obtain ⟨ret,pos,k⟩ := v
          have hspec := aesdWrite_settled hd hcount (hnl _ hdev) ha
          simp only [ha,bind,Except.bind] at h
          cases hg : env.write.lock && env.write.copy with
          | true =>
            rw [hg,if_pos rfl] at hspec
            obtain ⟨rfl,rfl,hset⟩ := hspec
            rw [if_neg (by omega)] at h
            obtain rfl := Except.ok.inj h
            refine Or.inr ⟨_,hdev,?_,rfl,hset⟩
            simp only [Int.toNat_natCast]
            exact (List.prefix_iff_eq_take.mp (takeLine_isPrefix newline (buf.take n))).symm
          | false =>
            rw [hg,if_neg (by simp)] at hspec
            rw [if_pos hspec.1] at h
            obtain rfl := Except.ok.inj h
            exact Or.inl ⟨hspec.2,rfl,Or.inr rfl⟩

end Aesd.Server
