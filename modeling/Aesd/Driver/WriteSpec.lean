import Aesd.Driver.Ownership

/-! # One call of aesd_write

The only specification of a write that later modules use. A call that is not
stopped by a failed allocation keeps the ownership description; it either fails
without touching the device, or it stores the line taken from its buffer.
-/
namespace Aesd.CharDevice
open Blocks CircularBuffer Kernel Lines LineStore Window

theorem copyLine_spec {h : KHeap} {bs : List Block} {j d : ℕ} {done room src : List UInt8}
    {dataInd size : UInt64} (ho : h.Owns ((j,done ++ room) :: (d,src) :: bs))
    (hsize : size = UInt64.ofNat done.length) (hroom : room.length = dataInd.toNat + 1)
    (hsrc : dataInd.toNat + 1 ≤ src.length) :
    ∃ h', copyLine h (.block j) (.block d) dataInd size =
        .ok (UInt64.ofNat (done ++ src.take (dataInd.toNat + 1)).length,h') ∧
      h'.Owns ((j,done ++ src.take (dataInd.toNat + 1)) :: (d,src) :: bs) := by
  have hfit := ho.sum_le
  simp only [List.map_cons,List.sum_cons,List.length_append,hroom,kernelSpace] at hfit
  have hloop := copyLoop_spec src (dataInd.toNat + 1) 0 done room (by omega) hroom (by omega)
  rw [List.drop_zero] at hloop
  have hlen : (done ++ src.take (dataInd.toNat + 1)).length = (done ++ room).length := by
    simp only [List.length_append,List.length_take,hroom]
    omega
  obtain ⟨h',hput,ho'⟩ := ho.put_same_length hlen
  refine ⟨h',?_,ho'⟩
  have hb := blockBytes_owns ho (b := (j,done ++ room)) (by simp)
  have hd := blockBytes_owns ho (b := (d,src)) (by simp)
  rw [hlen,List.length_append,hroom]
  simp only [copyLine,hb,hd,hsize,hloop,hput,bind,Except.bind]

/-- A full window of live entries is a full buffer, so the entry handed back is the
one that the push drops. -/
theorem Holds.push_cases {k : Driver} {tmp : Option Block} {es : List Block} (hk : Holds k tmp es)
    (e : AesdBufferEntry) (b : Block) :
    ((aesdCircularBufferAddEntry k.dev.circularBuffer e).1 = .null ∧ push 10 es b = es ++ [b]) ∨
    ∃ old rest, es = old :: rest ∧ push 10 es b = rest ++ [b] ∧
      (aesdCircularBufferAddEntry k.dev.circularBuffer e).1 = .block old.1 := by
  have hold := addEntry_oldBuf hk.ring e
  have hlen : (live k.dev.circularBuffer).length = es.length := by rw [hk.liveEq,List.length_map]
  by_cases hten : 10 ≤ es.length
  · have hfull : (live k.dev.circularBuffer).length = 10 :=
      length_live_full hk.ring ((full_iff hk.ring).mpr (by omega))
    cases es with
    | nil => simp at hten
    | cons old rest =>
      refine Or.inr ⟨old,rest,rfl,push_full (by simpa [hlen] using hfull) b,?_⟩
      rw [hold,if_pos (by omega),hk.liveEq]
      rfl
  · refine Or.inl ⟨?_,push_of_lt (by omega) b⟩
    rw [hold,if_neg (by omega)]

theorem pushLine_spec {h : KHeap} {cb : AesdCircularBuffer} {j : ℕ} {size : UInt64}
    {line : List UInt8} {es : List Block}
    (hk : Holds ⟨h,⟨cb,.block j,size⟩⟩ (some (j,line)) es) :
    ∃ k' tmp' es', pushLine h cb (.block j) size = .ok k' ∧ Holds k' tmp' es' ∧
      if line.getLast? = some newline then tmp' = none ∧ es' = push 10 es (j,line)
      else tmp' = some (j,line) ∧ es' = es := by
  have hline : line ≠ [] := hk.nonempty (j,line) (by simp)
  have hpos : 0 < line.length := List.length_pos_iff.mpr hline
  have hsize : size.toNat = line.length := hk.tmpbufSize_toNat
  have hsz : size = UInt64.ofNat line.length := hk.sizeEq
  have hb : blockBytes h (.block j) = .ok line := blockBytes_owns hk.owns (b := (j,line)) (by simp)
  have hind : (size - 1).toNat = line.length - 1 := by
    rw [UInt64.toNat_sub_of_le _ _ (by rw [UInt64.le_iff_toNat_le,hsize]; exact hpos),hsize]
    rfl
  have hlast : (line)[(size - 1).toNat]? = some (line.getLast hline) := by
    rw [hind,← List.getLast?_eq_getElem?,List.getLast?_eq_getLast_of_ne_nil hline]
  simp only [pushLine,hb,hlast,bind,Except.bind,List.getLast?_eq_getLast_of_ne_nil hline,
    Option.some.injEq]
  by_cases hnl : line.getLast hline = newline
  · have howns : h.Owns ((j,line) :: es) := by simpa using hk.owns
    have hentry : (⟨.block j,size⟩ : AesdBufferEntry) = entryOf (j,line) := by
      simp only [entryOf,hsz]
    have hring := valid_addEntry hk.ring (entryOf (j,line))
    have hlive : live (aesdCircularBufferAddEntry cb (entryOf (j,line))).2 =
        (push 10 es (j,line)).map entryOf := by
      rw [live_addEntry hk.ring,hk.liveEq,push,push,map_rtake,List.map_append]
      rfl
    have hne : ∀ b ∈ push 10 es (j,line), b.2 ≠ [] := by
      intro b hb
      have hm : b ∈ es ++ [(j,line)] := (rtake_suffix _ _).subset hb
      exact hk.nonempty b (by simpa [or_comm] using hm)
    simp only [hnl,if_true,hentry]
    rcases hk.push_cases (entryOf (j,line)) (j,line) with ⟨hold,hpush⟩ | ⟨old,rest,hes,hpush,hold⟩
    · simp only [show (aesdCircularBufferAddEntry cb (entryOf (j,line))).1 = .null from hold,if_true]
      refine ⟨_,none,_,rfl,⟨hring,hlive,rfl,rfl,by simpa using hne,?_⟩,rfl,rfl⟩
      rw [hpush]
      exact howns.perm (List.perm_append_singleton (j,line) es).symm
    · subst hes
      obtain ⟨h',hfree,ho⟩ := kfree_owns (howns.perm (List.Perm.swap ..))
      have hold' : (aesdCircularBufferAddEntry cb (entryOf (j,line))).1 = .block old.1 := hold
      simp only [hold',hfree,reduceCtorEq,if_false]
      refine ⟨_,none,_,rfl,⟨hring,hlive,rfl,rfl,by simpa using hne,?_⟩,rfl,rfl⟩
      rw [hpush]
      exact ho.perm (List.perm_append_singleton (j,line) rest).symm
  · simp only [hnl,if_false]
    exact ⟨_,_,_,rfl,hk,rfl,rfl⟩

theorem dataIndex_spec {buf : List UInt8} {count : UInt64} (hcount : count.toNat = buf.length)
    (hbuf : buf ≠ []) :
    (dataIndex count (if newline ∈ buf then some (buf.idxOf newline) else none)).toNat + 1 =
      (takeLine newline buf).length := by
  have hpos := List.length_pos_iff.mpr hbuf
  have hlt := count.toNat_lt
  by_cases hn : newline ∈ buf
  · have hi := List.idxOf_lt_length_of_mem hn
    simp only [if_pos hn,dataIndex,takeLine,List.length_take,UInt64.toNat_ofNat']
    omega
  · have hone : (1 : UInt64) ≤ count := by
      rw [UInt64.le_iff_toNat_le,hcount]
      exact hpos
    rw [if_neg hn,dataIndex,takeLine_of_notMem hn,UInt64.toNat_sub_of_le _ _ hone,hcount]
    change buf.length - 1 + 1 = _
    omega

def storeOf (tmp : Option Block) (es : List Block) : Store UInt8 := (es.map Prod.snd,bytesOf tmp)

/-- Storing the line that ends at data_ind, with the data still allocated beside the
owned blocks; a refused krealloc is written through as NULL. -/
theorem storeData_spec {k : Driver} {tmp : Option Block} {es : List Block} (hk : Holds k tmp es)
    (env : WriteEnv) {buf : List UInt8} {dataInd : UInt64} {d : ℕ} {h : KHeap} (hbuf : buf ≠ [])
    (hind : dataInd.toNat + 1 = (takeLine newline buf).length)
    (ho : h.Owns ((d,buf) :: (tmp.toList ++ es))) :
    (krealloc h k.dev.tmpbuf (k.dev.tmpbufSize + dataInd + 1).toNat env.krealloc env.inPlace env.junk =
        .ok (.null,h) ∧ storeData env k h (.block d) dataInd = .error .nullPtr) ∨
    ∃ k' tmp' es', storeData env k h (.block d) dataInd =
        .ok (((takeLine newline buf).length : ℤ),0,k') ∧
      Holds k' tmp' es' ∧ storeOf tmp' es' = accept newline 10 (storeOf tmp es) (takeLine newline buf) := by
  have htake : buf.take (dataInd.toNat + 1) = takeLine newline buf := by
    rw [hind]
    exact (List.prefix_iff_eq_take.mp (takeLine_isPrefix newline buf)).symm
  have hlpos := length_takeLine_pos newline hbuf
  have hlle : (takeLine newline buf).length ≤ buf.length := (takeLine_isPrefix newline buf).length_le
  -- the pending line and the copy are two live blocks, so no size_t sum wraps
  have hfit : (bytesOf tmp).length + buf.length ≤ kernelSpace := by
    have h := ho.sum_le
    cases tmp <;> simp [bytesOf] at h ⊢ <;> omega
  have hreq : (k.dev.tmpbufSize + dataInd + 1).toNat =
      (bytesOf tmp).length + (takeLine newline buf).length := by
    simp only [UInt64.toNat_add,hk.tmpbufSize_toNat,UInt64.toNat_one,kernelSpace] at hfit ⊢
    omega
  have hret : (dataInd + 1).toNat = (takeLine newline buf).length := by
    simp only [UInt64.toNat_add,UInt64.toNat_one,kernelSpace] at hfit ⊢
    omega
  have ho' : h.Owns (tmp.toList ++ (d,buf) :: es) := ho.perm List.perm_middle.symm
  unfold storeData
  rw [hk.tmpbufEq,hreq,hret]
  rcases krealloc_owns ho' (n := (bytesOf tmp).length + (takeLine newline buf).length) (by omega)
      (by omega) env.krealloc env.inPlace env.junk with hkr | ⟨j,h₁,hkr,ho₁⟩
  · left
    refine ⟨hkr,?_⟩
    simp only [hkr,copyLine,blockBytes,bind,Except.bind]
  · right
    have hroom : (fresh env.junk ((bytesOf tmp).length + (takeLine newline buf).length -
        (bytesOf tmp).length)).length = dataInd.toNat + 1 := by
      rw [length_fresh,hind]
      omega
    obtain ⟨h₂,hline,ho₂⟩ := copyLine_spec ho₁ hk.sizeEq hroom (by omega)
    rw [htake] at hline ho₂
    obtain ⟨h₃,hfree,ho₃⟩ := kfree_owns (ho₂.perm (List.Perm.swap ..))
    have hmid : Holds ⟨h₃,⟨k.dev.circularBuffer,.block j,
        UInt64.ofNat (bytesOf tmp ++ takeLine newline buf).length⟩⟩
        (some (j,bytesOf tmp ++ takeLine newline buf)) es := by
      refine ⟨hk.ring,hk.liveEq,rfl,rfl,?_,by simpa using ho₃⟩
      intro b hb
      rcases List.mem_cons.mp (by simpa using hb : b ∈ (j,bytesOf tmp ++ takeLine newline buf) :: es)
        with rfl | hb
      · intro hnil
        simp only [List.append_eq_nil_iff] at hnil
        simp [hnil.2] at hlpos
      · exact hk.nonempty b (List.mem_append_right _ hb)
    obtain ⟨k',tmp',es',hpush,hk',hres⟩ := pushLine_spec hmid
    refine ⟨k',tmp',es',?_,hk',?_⟩
    · change kfree h₂ (.block d) = _ at hfree
      simp only [hkr,hline,hfree,hpush,bind,Except.bind,pure,Except.pure]
    · have hlast := getLast?_append_takeLine newline hbuf (bytesOf tmp)
      unfold storeOf accept
      by_cases hn : newline ∈ buf
      · rw [if_pos (hlast.mpr hn)] at hres
        rw [if_pos ((mem_takeLine_iff _ _).mpr hn),hres.1,hres.2,push,map_rtake,push]
        simp [bytesOf]
      · rw [if_neg (fun h => hn (hlast.mp h))] at hres
        rw [if_neg (fun h => hn ((mem_takeLine_iff _ _).mp h)),hres.1,hres.2]
        rfl

theorem aesdWrite_scan {k : Driver} {tmp : Option Block} {es : List Block} (hk : Holds k tmp es)
    {env : WriteEnv} {buf : List UInt8} {count : UInt64} (fPos : ℕ)
    (hcount : count.toNat = buf.length) (hbuf : buf ≠ []) (hlock : env.lock = true)
    (hcopy : env.copy = true) :
    aesdWrite env k buf count fPos = .error .nullPtr ∨
    ∃ d h, h.Owns ((d,buf) :: (tmp.toList ++ es)) ∧ aesdWrite env k buf count fPos =
      (findChar (buf ++ env.tail) newline buf.length).bind
        (fun found => storeData env k h (.block d) (dataIndex count found)) := by
  have hne : buf.length ≠ 0 := fun h => hbuf (List.length_eq_zero_iff.mp h)
  rcases kmalloc_owns hk.owns hne env.kmalloc env.junk with hkm | ⟨d,h₁,hkm,ho⟩
  · left
    simp [aesdWrite,hlock,hcount,hkm,copyFromUser,hbuf,bind,Except.bind]
  · right
    obtain ⟨h₂,hdone,ho₂⟩ := copyFromUser_done ho (length_fresh _ _) hne
    have hmem : blockBytes h₂ (.block d) = .ok buf := blockBytes_owns ho₂ (b := (d,buf)) (by simp)
    refine ⟨d,h₂,ho₂,?_⟩
    simp only [aesdWrite,hlock,Bool.not_true,Bool.false_eq_true,if_false,hcount,hkm,hcopy,hdone,hmem,
      bind,Except.bind]

theorem aesdWrite_left {k : Driver} {tmp : Option Block} {es : List Block} (hk : Holds k tmp es)
    (env : WriteEnv) {buf : List UInt8} {count : UInt64} (fPos : ℕ)
    (hcount : count.toNat = buf.length) (hbuf : buf ≠ []) (hlock : env.lock = true)
    (hcopy : env.copy = false) :
    aesdWrite env k buf count fPos = .error .nullPtr ∨
    ∃ h, aesdWrite env k buf count fPos = .ok (-EFAULT,0,{ k with heap := h }) ∧
      h.Owns (tmp.toList ++ es) := by
  have hne : count.toNat ≠ 0 := by
    have := List.length_pos_iff.mpr hbuf
    omega
  rcases kmalloc_owns hk.owns hne env.kmalloc env.junk with hkm | ⟨d,h₁,hkm,ho⟩
  · left
    simp [aesdWrite,hlock,hkm,copyFromUser,hne,bind,Except.bind]
  · right
    have hleft := copyFromUser_left buf ho (length_fresh _ _) hne
    obtain ⟨h₂,hfree,ho₂⟩ := kfree_owns ho
    change kfree h₁ (.block d) = _ at hfree
    refine ⟨h₂,?_,ho₂⟩
    simp [aesdWrite,hlock,hkm,hcopy,hleft,hfree,bind,Except.bind,pure,Except.pure]

/-- Every call of a positive count that no failed allocation stops returns, with the
owned blocks described again. Only a failed lock or copy leaves the line out. -/
theorem aesdWrite_spec {k : Driver} {tmp : Option Block} {es : List Block} (hk : Holds k tmp es)
    (env : WriteEnv) {buf : List UInt8} {count : UInt64} (fPos : ℕ)
    (hcount : count.toNat = buf.length) (hbuf : buf ≠ [])
    (htail : env.copy = true → newline ∈ buf ∨ newline ∈ env.tail ∨ endOfStr ∈ env.tail)
    (halloc : aesdWrite env k buf count fPos ≠ .error .nullPtr) :
    ∃ r pos k' tmp' es', aesdWrite env k buf count fPos = .ok (r,pos,k') ∧ Holds k' tmp' es' ∧
      if env.lock && env.copy then
        r = (takeLine newline buf).length ∧ pos = 0 ∧
          storeOf tmp' es' = accept newline 10 (storeOf tmp es) (takeLine newline buf)
      else r < 0 ∧ tmp' = tmp ∧ es' = es := by
  cases hlock : env.lock with
  | false =>
    refine ⟨-ERESTARTSYS,fPos,k,tmp,es,by simp [aesdWrite,hlock],hk,?_⟩
    simp [ERESTARTSYS]
  | true =>
    cases hcopy : env.copy with
    | false =>
      rcases aesdWrite_left hk env fPos hcount hbuf hlock hcopy with herr | ⟨h,hw,ho⟩
      · exact absurd herr halloc
      · exact ⟨-EFAULT,0,{ k with heap := h },tmp,es,hw,
          ⟨hk.ring,hk.liveEq,hk.tmpbufEq,hk.sizeEq,hk.nonempty,ho⟩,by simp [EFAULT]⟩
    | true =>
      rcases aesdWrite_scan hk fPos hcount hbuf hlock hcopy with herr | ⟨d,h,ho,hscan⟩
      · exact absurd herr halloc
      · rw [findChar_spec (htail hcopy)] at hscan
        simp only [Except.bind] at hscan
        rw [hscan] at halloc ⊢
        rcases storeData_spec hk env hbuf (dataIndex_spec hcount hbuf) ho with
          ⟨-,herr⟩ | ⟨k',tmp',es',hok,hk',hres⟩
        · exact absurd herr halloc
        · exact ⟨_,_,k',tmp',es',hok,hk',by simpa using hres⟩

/-- Whatever the count and whatever stands behind the copy, a call that returns keeps
the ownership description, and one that does not was stopped by a refused
allocation or by its scan; no release ever faults. -/
theorem aesdWrite_outcome {k : Driver} {tmp : Option Block} {es : List Block} (hk : Holds k tmp es)
    (env : WriteEnv) {buf : List UInt8} {count : UInt64} (fPos : ℕ)
    (hcount : count.toNat = buf.length) :
    (∃ r pos k' tmp' es', aesdWrite env k buf count fPos = .ok (r,pos,k') ∧ Holds k' tmp' es') ∨
    aesdWrite env k buf count fPos = .error .nullPtr ∨
    aesdWrite env k buf count fPos = .error .outOfBounds := by
  by_cases hlock : env.lock = true
  · by_cases hnull : aesdWrite env k buf count fPos = .error .nullPtr
    · exact Or.inr (Or.inl hnull)
    · by_cases hbuf : buf = []
      · have hzero : count.toNat = 0 := by simp [hcount,hbuf]
        right; right
        simp [aesdWrite,hlock,hzero,kmalloc,copyFromUser,blockBytes,bind,Except.bind]
      · by_cases htail : env.copy = true →
            newline ∈ buf ∨ newline ∈ env.tail ∨ endOfStr ∈ env.tail
        · obtain ⟨r,pos,k',tmp',es',hw,hk',-⟩ := aesdWrite_spec hk env fPos hcount hbuf htail hnull
          exact Or.inl ⟨r,pos,k',tmp',es',hw,hk'⟩
        · simp only [Classical.not_imp,not_or] at htail
          obtain ⟨hcopy,hb,ht,hz⟩ := htail
          rcases aesdWrite_scan hk fPos hcount hbuf hlock hcopy with herr | ⟨d,h,-,hscan⟩
          · exact absurd herr hnull
          · rw [findChar_overrun hb ht hz] at hscan
            exact Or.inr (Or.inr hscan)
  · left
    exact ⟨-ERESTARTSYS,fPos,k,tmp,es,by simp [aesdWrite,hlock],hk⟩

end Aesd.CharDevice
