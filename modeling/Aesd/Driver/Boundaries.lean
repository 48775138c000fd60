import Aesd.Driver.EntryPositions
import Aesd.Driver.SeekRead

/-! # What a read and a seek command let through

A read hands out the rest of one entry, whatever the caller asked for, so it respects
the count only where the entry ends soon enough. The seek command checks its entry
number after the number has been cut to eight bits, so it accepts a stored position and
every alias of one.
-/
namespace Aesd.CharDevice
open Blocks CircularBuffer Kernel Positions

def bytesBefore (k : Driver) (n : ℕ) : ℕ := (((contents k).map List.length).take n).sum

theorem bytesBefore_all (k : Driver) : bytesBefore k (contents k).length = (contents k).flatten.length := by
  rw [bytesBefore,List.take_of_length_le (by simp),List.length_flatten]

theorem locate_bytesBefore {k : Driver} {p n o : ℕ}
    (h : locate ((contents k).map List.length) p = some (n,o)) :
    n < (contents k).length ∧ bytesBefore k n ≤ p ∧ p < bytesBefore k (n+1) ∧
      p + (readAt (contents k) p).length = bytesBefore k (n+1) := by
  obtain ⟨hn,ho,hp⟩ := locate_spec h
  have hnext : bytesBefore k (n+1) = bytesBefore k n + ((contents k).map List.length).getD n 0 :=
    sum_take_succ hn
  have hread : p + (readAt (contents k) p).length = bytesBefore k (n+1) := (readAt_append_drop h).2
  have hp' : p = bytesBefore k n + o := hp
  exact ⟨by simpa using hn,by omega,by omega,hread⟩

/-- A read at p returns the bytes from there to the end of an entry. It stays within its
count exactly if no entry around p reaches further; all else that a read promises
holds at every position and count. -/
theorem read_within_count_iff {k : Driver} (hk : Reachable k) (p : ℕ) (count : UInt64) :
    (∀ copy, aesdRead ⟨false,copy⟩ k count p = .ok (-ERESTARTSYS,[],p)) ∧
    (((∃ (r : ℕ) (data : List UInt8), aesdRead ⟨true,true⟩ k count p = .ok ((r : ℤ),data,p + r) ∧
        r ≤ count.toNat ∧ data.length = r ∧ data = ((contents k).flatten.drop p).take r ∧
        (r = 0 → count = 0 ∨ (contents k).flatten.length ≤ p)) ∧
      (p < (contents k).flatten.length → aesdRead ⟨true,false⟩ k count p = .ok (-EFAULT,[],p))) ↔
    ∀ n < (contents k).length, bytesBefore k n ≤ p → p < bytesBefore k (n+1) →
      bytesBefore k (n+1) ≤ p + count.toNat) := by
  obtain ⟨tmp,es,hk⟩ := hk.holds
  have hok : aesdRead ⟨true,true⟩ k count p = .ok (((readAt (contents k) p).length : ℤ),
      readAt (contents k) p,p + (readAt (contents k) p).length) := by simp [aesdRead_spec hk]
  refine ⟨fun copy => by simp [aesdRead_spec hk],?_⟩
  constructor
  · rintro ⟨⟨r,data,hread,hle,-⟩,-⟩ n hn hbefore hafter
    rw [hok,Except.ok.injEq,Prod.mk.injEq] at hread
    have hr : (readAt (contents k) p).length = r := by exact_mod_cast hread.1
    cases hloc : locate ((contents k).map List.length) p with
    | none =>
      rw [locate_eq_none_iff,← List.length_flatten,← bytesBefore_all] at hloc
      have hmono : bytesBefore k (n+1) ≤ bytesBefore k (contents k).length :=
        sum_take_le _ (by omega)
      omega
    | some q =>
      obtain ⟨-,hq,hq',hend⟩ := locate_bytesBefore (n := q.1) (o := q.2) hloc
      have hsame : n ≤ q.1 := by
        by_contra hlt
        have hmono : bytesBefore k (q.1+1) ≤ bytesBefore k n := sum_take_le _ (by omega)
        omega
      have hmono : bytesBefore k (n+1) ≤ bytesBefore k (q.1+1) := sum_take_le _ (by omega)
      omega
  · intro hwithin
    have hdrop := readAt_append_drop_add (contents k) p
    refine ⟨⟨_,_,hok,?_,rfl,?_,?_⟩,?_⟩
    · cases hloc : locate ((contents k).map List.length) p with
      | none => simp [readAt,hloc]
      | some q =>
        obtain ⟨hn,hq,hq',hend⟩ := locate_bytesBefore (n := q.1) (o := q.2) hloc
        have hle := hwithin q.1 hn hq hq'
        omega
    · rw [← hdrop,List.take_left]
    · intro hzero
      exact Or.inr ((readAt_eq_nil_iff _ _).mp (List.length_eq_zero_iff.mp hzero))
    · intro hlt
      have hne : readAt (contents k) p ≠ [] := by
        rw [Ne,readAt_eq_nil_iff]
        omega
      simp [aesdRead_spec hk,hne]

/-- Sixteen bytes are enough for the rest of "bc\n". -/
theorem twoLines_read :
    ∃ (r : ℕ) (data : List UInt8), aesdRead ⟨true,true⟩ twoLines 16 3 = .ok ((r : ℤ),data,3 + r) ∧
      r ≤ 16 ∧ data = [99,10] := by
  have hcon := twoLines_contents
  obtain ⟨-,hiff⟩ := read_within_count_iff twoLines_reachable 3 16
  obtain ⟨⟨r,data,hread,hle,hlen,hdata,-⟩,-⟩ := hiff.mpr (by
    simp only [bytesBefore,hcon]
    decide)
  have hr : (r : ℤ) = 2 := by
    have h2 : aesdRead ⟨true,true⟩ twoLines 16 3 = .ok (2,[99,10],5) := by decide
    rw [hread,Except.ok.injEq,Prod.mk.injEq] at h2
    exact h2.1
  obtain rfl : r = 2 := by exact_mod_cast hr
  exact ⟨2,data,hread,hle,by rw [hdata,hcon]; rfl⟩

/-- Asked for one byte, the driver copies three. -/
theorem twoLines_read_overruns :
    aesdRead ⟨true,true⟩ twoLines 1 2 = .ok (3,[98,99,10],5) := by decide

/-! ## The seek command -/

theorem Holds.stored {k : Driver} {tmp : Option Block} {es : List Block} (hk : Holds k tmp es) :
    ∀ e ∈ live k.dev.circularBuffer, Stored e := by
  intro e he
  rw [hk.liveEq] at he
  obtain ⟨b,hb,rfl⟩ := List.mem_map.mp he
  have hm : b ∈ tmp.toList ++ es := List.mem_append_right _ hb
  refine ⟨by simp [entryOf],?_⟩
  intro hzero
  have hsize : (entryOf b).size.toNat = b.2.length := toNat_length hk.owns hm
  rw [hzero] at hsize
  exact hk.nonempty b hm (List.length_eq_zero_iff.mp hsize.symm)

/-- The offset lies inside of the entry of that number, counted from the oldest. -/
def StoredAt (k : Driver) (cmd offset : ℕ) : Prop :=
  cmd < (contents k).length ∧ offset < ((contents k).getD cmd []).length

/-- What the ioctl finds of a stored position: the number of the entry modulo 256. -/
theorem jmp_neg_iff {k : Driver} {tmp : Option Block} {es : List Block} (hk : Holds k tmp es)
    (cmd : UInt32) (offset : ℕ) :
    aesdCircularBufferJmpEntryOffset k.dev.circularBuffer (UInt8.ofNat cmd.toNat) offset < 0 ↔
      ¬ StoredAt k (cmd.toNat % 256) offset := by
  obtain ⟨-,hfit⟩ := hk.size_toNat
  have hsizes : sizes k.dev.circularBuffer = (contents k).map List.length := hk.sizes_eq
  have hlen : (live k.dev.circularBuffer).length = (contents k).length := by simp [contents]
  have htotal : (sizes k.dev.circularBuffer).sum = (contents k).flatten.length := by
    rw [hsizes,List.length_flatten]
  simp only [kernelSpace] at hfit
  rw [jmp_spec hk.ring hk.stored (by omega),UInt8.toNat_ofNat',show 2^8 = 256 from rfl,hlen]
  have hentry : ∀ n < (contents k).length, (slot k.dev.circularBuffer
      (entryIndex k.dev.circularBuffer n)).size.toNat = ((contents k).getD n []).length := by
    intro n hn
    rw [← getD_sizes (by omega),hsizes]
    simp [List.getD_eq_getElem?_getD,hn]
  by_cases hin : StoredAt k (cmd.toNat % 256) offset
  · obtain ⟨hn,ho⟩ := hin
    have hle : ((contents k).getD (cmd.toNat % 256) []).length ≤ (contents k).flatten.length := by
      rw [List.getD_eq_getElem?_getD,List.getElem?_eq_getElem hn,Option.getD_some]
      exact (List.sublist_flatten_of_mem (List.getElem_mem hn)).length_le
    rw [if_pos ⟨hn,by rwa [hentry _ hn]⟩]
    have hwrap : longLong ((sizes k.dev.circularBuffer).sum + offset) =
        (sizes k.dev.circularBuffer).sum + offset := Int.bmod_eq_of_le (by omega) (by omega)
    rw [hwrap]
    have hpos : ¬ (if k.dev.circularBuffer.outOffs.toNat + cmd.toNat % 256 < 10 then
        (((sizes k.dev.circularBuffer).take (cmd.toNat % 256)).sum : ℤ) + offset
        else (sizes k.dev.circularBuffer).sum + offset) < 0 := by
      split <;> omega
    exact iff_of_false hpos (fun h => h ⟨hn,ho⟩)
  · rw [if_neg]
    · exact iff_of_true (by decide) hin
    · rintro ⟨hn,ho⟩
      exact hin ⟨hn,by rwa [hentry _ hn] at ho⟩

theorem ioctl_seekto (k : Driver) (fPos : ℕ) (copy lock : Bool) (seekto : AesdSeekto) :
    aesdUnlockedIoctl copy lock k fPos (UInt32.ofNat AESDCHAR_IOCSEEKTO) seekto =
      if !copy then (-EFAULT,fPos)
      else if !lock then (-ERESTARTSYS,fPos)
      else
        let pos := aesdCircularBufferJmpEntryOffset k.dev.circularBuffer
          (UInt8.ofNat seekto.writeCmd.toNat) seekto.writeCmdOffset.toNat
        if pos < 0 then (pos,fPos) else (0,pos.toNat) := by
  have hmagic : (UInt32.ofNat AESDCHAR_IOCSEEKTO).toNat / 2^8 % 2^8 = AESD_IOC_MAGIC := by decide
  have hnr : ¬ AESDCHAR_IOC_MAXNR < (UInt32.ofNat AESDCHAR_IOCSEEKTO).toNat % 2^8 := by decide
  have hcmd : (UInt32.ofNat AESDCHAR_IOCSEEKTO).toNat = AESDCHAR_IOCSEEKTO := by decide
  rw [aesdUnlockedIoctl,if_neg (not_not.mpr hmagic),if_neg hnr,if_pos hcmd]

variable {fixedSizeLlseek : FixedSizeLlseek}

theorem ioctl_seekto_refused (s : Session) (file : ℕ) (seekto : AesdSeekto) {copy lock : Bool}
    (h : (copy && lock) = false) : ∃ r, step fixedSizeLlseek s
      (.ioctl file copy lock (UInt32.ofNat AESDCHAR_IOCSEEKTO) seekto) = .ok (r,s) ∧ r.ret < 0 := by
  cases copy with
  | false =>
    refine ⟨⟨-EFAULT,[]⟩,?_,by simp [EFAULT]⟩
    simp [step,ioctl_seekto]
  | true =>
    have hlock : lock = false := by simpa using h
    subst hlock
    refine ⟨⟨-ERESTARTSYS,[]⟩,?_,by simp [ERESTARTSYS]⟩
    simp [step,ioctl_seekto]

/-- The command accepts exactly the stored positions unless its entry number is an alias:
256 or more, with a stored position behind its low eight bits. The device never changes. -/
theorem seekto_accepts_iff {s : Session} (hs : Reachable s.driver) (file : ℕ) (seekto : AesdSeekto) :
    (∀ copy lock, (copy && lock) = false → ∃ r, step fixedSizeLlseek s
      (.ioctl file copy lock (UInt32.ofNat AESDCHAR_IOCSEEKTO) seekto) = .ok (r,s) ∧ r.ret < 0) ∧
    ∃ r s', step fixedSizeLlseek s
        (.ioctl file true true (UInt32.ofNat AESDCHAR_IOCSEEKTO) seekto) = .ok (r,s') ∧
      s'.driver = s.driver ∧
      (((r.ret = 0 ↔ StoredAt s.driver seekto.writeCmd.toNat seekto.writeCmdOffset.toNat) ∧
        (¬ StoredAt s.driver seekto.writeCmd.toNat seekto.writeCmdOffset.toNat →
          r.ret < 0 ∧ s'.fPos = s.fPos)) ↔
      ¬ (256 ≤ seekto.writeCmd.toNat ∧
        StoredAt s.driver (seekto.writeCmd.toNat % 256) seekto.writeCmdOffset.toNat)) := by
  refine ⟨fun copy lock => ioctl_seekto_refused s file seekto,?_⟩
  obtain ⟨tmp,es,hk⟩ := hs.holds
  have hjmp := jmp_neg_iff hk seekto.writeCmd seekto.writeCmdOffset.toNat
  have hten := hk.length_contents
  have hlow : seekto.writeCmd.toNat < 256 → seekto.writeCmd.toNat % 256 = seekto.writeCmd.toNat :=
    Nat.mod_eq_of_lt
  have hhigh : StoredAt s.driver seekto.writeCmd.toNat seekto.writeCmdOffset.toNat →
      seekto.writeCmd.toNat < 256 := fun h => by have := h.1; omega
  have hioctl := ioctl_seekto s.driver (s.fPos file) true true seekto
  rcases hq : aesdUnlockedIoctl true true s.driver (s.fPos file)
    (UInt32.ofNat AESDCHAR_IOCSEEKTO) seekto with ⟨ret,newPos⟩
  simp only [hq,Bool.not_true,Bool.false_eq_true,if_false] at hioctl
  generalize aesdCircularBufferJmpEntryOffset s.driver.dev.circularBuffer
    (UInt8.ofNat seekto.writeCmd.toNat) seekto.writeCmdOffset.toNat = pos at hjmp hioctl
  refine ⟨⟨ret,[]⟩,⟨s.driver,Function.update s.fPos file newPos⟩,by simp only [step,hq],rfl,?_⟩
  by_cases hneg : pos < 0
  · have hno := hjmp.mp hneg
    rw [if_pos hneg,Prod.mk.injEq] at hioctl
    obtain ⟨rfl,rfl⟩ := hioctl
    refine iff_of_true ⟨?_,fun _ => ⟨hneg,Function.update_eq_self _ _⟩⟩ (fun h => hno h.2)
    refine iff_of_false hneg.ne (fun h => hno ?_)
    rwa [hlow (hhigh h)]
  · have hyes : StoredAt s.driver (seekto.writeCmd.toNat % 256) seekto.writeCmdOffset.toNat :=
      not_not.mp (fun h => hneg (hjmp.mpr h))
    rw [if_neg hneg,Prod.mk.injEq] at hioctl
    obtain ⟨rfl,rfl⟩ := hioctl
    constructor
    · rintro ⟨hret,-⟩ ⟨hlarge,-⟩
      have hlt := hhigh (hret.mp rfl)
      omega
    · intro hno
      have hlt : seekto.writeCmd.toNat < 256 := by
        by_contra hge
        exact hno ⟨by omega,hyes⟩
      rw [hlow hlt] at hyes
      exact ⟨iff_of_true rfl hyes,fun h => absurd hyes h⟩

theorem twoLines_seekto : ∃ r s', step boundedLlseek ⟨twoLines,fun _ => 0⟩
    (.ioctl 0 true true (UInt32.ofNat AESDCHAR_IOCSEEKTO) ⟨1,2⟩) = .ok (r,s') ∧ r.ret = 0 := by
  have hcon := twoLines_contents
  obtain ⟨-,r,s',hstep,-,hiff⟩ := @seekto_accepts_iff boundedLlseek
    ⟨twoLines,fun _ => 0⟩ twoLines_reachable 0 ⟨1,2⟩
  obtain ⟨hret,-⟩ := hiff.mpr (fun h => absurd h.1 (by decide))
  refine ⟨r,s',hstep,hret.mpr ?_⟩
  simp only [StoredAt,hcon]
  decide

/-- Entry number 256 is taken for number 0. -/
theorem twoLines_seekto_alias : ¬ StoredAt twoLines 256 0 ∧
    aesdUnlockedIoctl true true twoLines 4 (UInt32.ofNat AESDCHAR_IOCSEEKTO) ⟨256,0⟩ = (0,0) := by
  have hcon := twoLines_contents
  refine ⟨?_,by decide⟩
  simp only [StoredAt,hcon]
  decide

end Aesd.CharDevice
