import DonsOs.Heap.Ops

/-! `kmalloc`, `kfree` and `heap_init` as a whole: each call returns, keeps the invariant
and changes the list of used payloads by at most one entry. -/
namespace DonsOs
namespace Heap

open Tiling

variable {n size : ℕ} {h h' : HeapState} {bs : List Block} {frames : Frames} {b : Block}

theorem roundUp_spec (hn : n ≤ 9223372036854775808) :
    n ≤ roundUp n ∧ 16 ∣ roundUp n ∧ roundUp n ≤ 9223372036854775808 := by
  have h : u64 (n+15) = n+15 := u64_of_lt (by omega)
  simp only [roundUp,h]
  exact ⟨by omega,Dvd.intro_left _ rfl,by omega⟩

theorem roundUp_dvd (n : ℕ) : 16 ∣ roundUp n := Dvd.intro_left _ rfl

/-! The heap before its first region. -/

/-- `heap_init` found no memory: there is no block yet. -/
structure Unset (h : HeapState) : Prop where
  bounds : Bounds h
  freeList : h.freeList = 0
  mapped : h.mapped = 0
  used : h.usedBytes = 0

/-- A heap with the blocks `bs`, or none while nothing is mapped. -/
def Ready (h : HeapState) (bs : List Block) : Prop := Holds h bs ∨ Unset h ∧ bs = []

theorem Ready.bounds (hr : Ready h bs) : Bounds h := by
  rcases hr with hh | hu
  · exact hh.bounds
  · exact hu.1.bounds

theorem Holds.freeList_ne (hh : Holds h bs) : h.freeList ≠ 0 := by
  have hpos := hh.startPos
  rw [hh.freeList]
  omega

theorem Ready.holds (hr : Ready h bs) (hf : h.freeList ≠ 0) : Holds h bs := by
  rcases hr with hh | hu
  · exact hh
  · exact absurd hu.1.freeList hf

theorem Ready.find (hr : Ready h bs) (n : ℕ) :
    findFreeBlock h n = some (firstFit 48 n h.start bs) := by
  rcases hr with hh | ⟨hu,rfl⟩
  · exact findFreeBlock_holds hh n
  · simp [findFreeBlock,blockLimit,findFrom,hu.freeList,firstFit]

theorem Ready.refused (hr : Ready h bs) (he : Extended h h' 0) :
    Ready h' bs ∧ Private (payloads 48 h.start bs) h.ram h'.ram := by
  rcases hr with hh | ⟨hu,rfl⟩
  · exact ⟨Or.inl (he.holds hh),he.private hh⟩
  · obtain ⟨h1,h2,h3,h4,h5⟩ := hu.bounds
    refine ⟨Or.inr ⟨⟨⟨?_,?_,?_,?_,?_⟩,?_,?_,?_⟩,rfl⟩,⟨⟨[],by simpa using he.log,by simp⟩,by simp [payloads]⟩⟩ <;>
      simp only [he.start,he.brk,he.mapped,he.freeList,he.usedBytes,Nat.add_zero]
    · exact h1
    · exact h2
    · exact h3
    · exact h4
    · exact h5
    · exact hu.freeList
    · exact hu.mapped
    · exact hu.used

theorem Unset.link {m : ℕ} (hu : Unset h) (hm : 48 ≤ m) (hg : 16 ∣ m)
    (hx : Extended h h' m) : ∃ h'', linkRegion h' h.brk = some h'' ∧ h''.start = h.start ∧
      h''.brk = h'.brk ∧ Holds h'' [⟨m-48,false⟩] ∧ Logged (· < h'.brk) h'.ram h''.ram := by
  obtain ⟨h1,h2,h3,-,h5⟩ := hu.bounds
  obtain ⟨hbrk,hstart,hfree,hmap,hused,hcap,-,-⟩ := hx
  rw [hu.mapped] at h3 hmap hcap
  have hsub : sub64 (sub64 h'.brk h.brk) 48 = m-48 := by
    rw [sub64_of_le (a:=h'.brk) (by omega) (by omega),sub64_of_le (by omega) (by omega)]; omega
  have hlink : linkTo h'.brk (h.brk+48+(m-48)) = 0 := by
    rw [show h.brk+48+(m-48) = h'.brk by omega]; simp
  have hhdr := writeHeader_hdr h'.ram h'.brk h.brk (m-48) 0
  rw [hlink] at hhdr
  refine ⟨{ h' with ram := writeHeader h'.ram h.brk (m-48) 0 0, freeList := h.brk },?_,hstart,rfl,
    ⟨?_,?_,?_,by simp,⟨?_,trivial⟩,?_,?_,?_,?_,?_,?_⟩,?_⟩
  · simp only [linkRegion,hsub]
    rw [if_pos (by rw [hfree]; exact hu.freeList)]
  · show 0 < h'.start; omega
  · show 16 ∣ h'.start; rw [hstart]; exact h2
  · show h.brk = h'.start; omega
  · rw [show h'.start = h.brk by omega]; exact hhdr
  · simp only [endOf_cons,endOf_nil]; omega
  · simp only [List.mem_singleton,forall_eq]; exact Nat.dvd_sub hg (by norm_num)
  · show h'.start+h'.mapped = h'.brk; omega
  · show h'.mapped ≤ heapMaxSize; omega
  · show h'.start+heapMaxSize < _; omega
  · show h'.usedBytes = _; rw [hused,hu.used]; simp [payloads]
  · exact (writeHeader_wrote (P:=fun w => w < h.brk+48) fun w _ hw => by omega).logged
      fun w hw => by omega

theorem Ready.link {m : ℕ} (hr : Ready h bs) (hm : 48 ≤ m)
    (hg : 16 ∣ m) (hx : Extended h h' m) : ∃ h'', linkRegion h' h.brk = some h'' ∧
      h''.start = h.start ∧ h''.brk = h'.brk ∧ Holds h'' (bs++[⟨m-48,false⟩]) ∧
      Private (payloads 48 h.start bs) h.ram h''.ram ∧ Logged (· < h'.brk) h.ram h''.ram := by
  rcases hr with hh | ⟨hu,rfl⟩
  · obtain ⟨h'',hl,hst,hbrk,hh'',hp,hlog⟩ := linkRegion_holds hh hm hg hx
    exact ⟨h'',hl,hst,hbrk,hh'',(hx.private hh).trans hp,(Logged.of_eq hx.log).trans hlog⟩
  · obtain ⟨h'',hl,hst,hbrk,hh'',hlog⟩ := hu.link hm hg hx
    obtain ⟨new,hnew,hlt⟩ := (Logged.of_eq hx.log).trans hlog
    exact ⟨h'',hl,hst,hbrk,hh'',⟨⟨new,hnew,by simp [payloads]⟩,by simp [payloads]⟩,new,hnew,hlt⟩

/-! `kmalloc`. -/

theorem serve_holds (hh : Holds h bs) (hg : 16 ∣ n) (hf : firstFit 48 n h.start bs ≠ 0) :
    ∃ h', takeBlock h (firstFit 48 n h.start bs) n = (firstFit 48 n h.start bs+48,h') ∧
      h'.start = h.start ∧ h'.brk = h.brk ∧ Holds h' (serve 48 16 n bs) ∧
      Private (payloads 48 h.start bs) h.ram h'.ram ∧ Logged (· < h.brk) h.ram h'.ram := by
  obtain ⟨xs,b,ys,rfl,hfit,he,hxs⟩ := firstFit_split 48 hf
  rw [serve_append 48 16 n hxs hfit,he]
  simp only [fits,Bool.and_eq_true,Bool.not_eq_true',decide_eq_true_eq] at hfit
  exact takeBlock_holds hh hfit.1 hfit.2 hg

/-- The heap in which `kmalloc` searches again, if it could map more memory. -/
def grow (frames : Frames) (size : ℕ) (h : HeapState) : Option HeapState :=
  let (regionStart,h) := heapExtend frames (u64 (size+48)) h
  if regionStart = 0 then none else (linkRegion h regionStart).bind coalesceBlocks

/-- The extension that a request of `size` bytes asks for is of at least one page, and where the
check against the cap wraps, the frames run out. -/
structure Extensible (frames : Frames) (size : ℕ) (h : HeapState) : Prop where
  pos : 0 < u64 (size+48)
  fits : u64 (size+48)+4095 < 18446744073709551616
  wrap : h.mapped+regionOf (u64 (size+48)) < 18446744073709551616 ∨
    ∃ i < (u64 (size+48)+4095)/4096, frames i = none

theorem extensible (hb : Bounds h)
    (hs : size ≤ 9223372036854775808) : Extensible frames size h := by
  have hu : u64 (size+48) = size+48 := u64_of_lt (by omega)
  have hcap := hb.cap
  have hmax : heapMaxSize = 25165824 := rfl
  constructor <;> simp only [hu,regionOf]
  · omega
  · omega
  · left
    omega

/-- The block list after a region for `size` bytes has been linked and merged. -/
def grownList (size : ℕ) (bs : List Block) : List Block :=
  coalesce 48 (bs++[⟨regionOf (u64 (size+48))-48,false⟩])

theorem grow_cases (hr : Ready h bs) (hx : Extensible frames size h) :
    (∃ h', heapExtend frames (u64 (size+48)) h = (0,h') ∧ Extended h h' 0 ∧
        grow frames size h = none) ∨
      ∃ h₁ h₂ g, heapExtend frames (u64 (size+48)) h = (h.brk,h₁) ∧ h.brk ≠ 0 ∧
        linkRegion h₁ h.brk = some h₂ ∧ coalesceBlocks h₂ = some g ∧ grow frames size h = some g ∧
        g.start = h.start ∧ Holds g (grownList size bs) ∧
        Private (payloads 48 h.start bs) h.ram g.ram ∧ Logged (· < g.brk) h.ram g.ram := by
  have hb := hr.bounds
  have hpos := hx.pos
  have hbrk : h.brk ≠ 0 := by have h1 := hb.startPos; have h2 := hb.mapped; omega
  rcases heapExtend_cases hb frames hx.pos hx.fits hx.wrap with ⟨h',he,hext,-⟩ | ⟨h₁,he,hext,-⟩
  · exact Or.inl ⟨h',he,hext,by simp [grow,he]⟩
  · obtain ⟨h₂,hl,hst₂,hbrk₂,hh₂,hp₂,hlog₂⟩ := hr.link (by simp only [regionOf]; omega)
      ⟨(u64 (size+48)+4095)/4096*256,by simp only [regionOf]; omega⟩ hext
    obtain ⟨g,hc,hst,hbrk',hh,hp,hlog⟩ := coalesceBlocks_holds hh₂
    have hpay : payloads 48 h₂.start (bs++[⟨regionOf (u64 (size+48))-48,false⟩]) =
        payloads 48 h.start bs := by
      rw [hst₂,payloads_append]; simp [payloads]
    rw [hpay] at hp
    rw [hbrk₂] at hlog hbrk'
    refine Or.inr ⟨h₁,h₂,g,he,hbrk,hl,hc,by simp [grow,he,hbrk,hl,hc],hst.trans hst₂,hh,hp₂.trans hp,?_⟩
    rw [hbrk']
    exact hlog₂.trans hlog

/-- The three ways in which `kmalloc` returns: a block fits, no memory can be mapped, or the
search is made again in the grown heap. -/
theorem kmalloc_cases (hr : Ready h bs)
    (h0 : n ≠ 0) (hx : firstFit 48 (roundUp n) h.start bs = 0 → Extensible frames (roundUp n) h) :
    ∃ p h' bs', kmalloc frames n h = some (p,h') ∧ h'.start = h.start ∧ Ready h' bs' ∧
      (h.freeList ≠ 0 → h'.freeList ≠ 0) ∧
      Private (payloads 48 h.start bs) h.ram h'.ram ∧ Logged (· < h'.brk) h.ram h'.ram ∧
      (firstFit 48 (roundUp n) h.start bs ≠ 0 ∧ p = firstFit 48 (roundUp n) h.start bs+48 ∧
          bs' = serve 48 16 (roundUp n) bs ∨
        firstFit 48 (roundUp n) h.start bs = 0 ∧ grow frames (roundUp n) h = none ∧ p = 0 ∧ bs' = bs ∨
        firstFit 48 (roundUp n) h.start bs = 0 ∧ ∃ g, grow frames (roundUp n) h = some g ∧
          g.start = h.start ∧ Holds g (grownList (roundUp n) bs) ∧
          if firstFit 48 (roundUp n) h.start (grownList (roundUp n) bs) = 0 then
            p = 0 ∧ bs' = grownList (roundUp n) bs
          else p = firstFit 48 (roundUp n) h.start (grownList (roundUp n) bs)+48 ∧
            bs' = serve 48 16 (roundUp n) (grownList (roundUp n) bs)) := by
  simp only [kmalloc,if_neg h0,hr.find,Option.bind_some]
  by_cases hf : firstFit 48 (roundUp n) h.start bs = 0
  · simp only [hf,ne_eq,not_true_eq_false,if_false,false_and,true_and,false_or]
    rcases grow_cases hr (hx hf) with ⟨h',he,hext,hg⟩ | ⟨h₁,h₂,g,he,hbrk,hl,hc,hg,hst,hh,hp,hlog⟩
    · obtain ⟨hready,hpriv⟩ := hr.refused hext
      simp only [he,if_true]
      exact ⟨0,h',bs,rfl,hext.start,hready,fun hne => hext.freeList ▸ hne,hpriv,
        Logged.of_eq hext.log,Or.inl ⟨hg,rfl,rfl⟩⟩
    · simp only [he,hbrk,if_false,hl,Option.bind_some,hc,findFreeBlock_holds hh,hst]
      by_cases hf' : firstFit 48 (roundUp n) h.start (grownList (roundUp n) bs) = 0
      · simp only [hf',if_true]
        exact ⟨0,g,_,rfl,hst,Or.inl hh,fun _ => hh.freeList_ne,hp,hlog,Or.inr ⟨g,hg,hst,hh,rfl,rfl⟩⟩
      · have hf'' := hf'
        rw [← hst] at hf''
        obtain ⟨h',ht,hst',hbrk',hh',hp',hlog'⟩ := serve_holds hh (roundUp_dvd n) hf''
        have hpay : payloads 48 h.start (grownList (roundUp n) bs) = payloads 48 h.start bs := by
          rw [grownList,payloads_coalesce,payloads_append]; simp [payloads]
        rw [hst] at ht
        rw [hst,hpay] at hp'
        rw [← hbrk'] at hlog hlog'
        simp only [hf',if_false,ht]
        exact ⟨_,h',_,rfl,hst'.trans hst,Or.inl hh',fun _ => hh'.freeList_ne,hp.trans hp',hlog.trans hlog',
          Or.inr ⟨g,hg,hst,hh,rfl,rfl⟩⟩
  · simp only [ne_eq,hf,not_false_eq_true,if_true,true_and,false_and,or_false]
    rcases hr with hh | ⟨hu,rfl⟩
    · obtain ⟨h',ht,hst,hbrk,hh',hp,hlog⟩ := serve_holds hh (roundUp_dvd n) hf
      rw [← hbrk] at hlog
      exact ⟨_,h',_,by rw [ht],hst,Or.inl hh',fun _ => hh'.freeList_ne,hp,hlog,rfl,rfl⟩
    · exact absurd rfl hf

/-- A region for a request has room for it, also next to a free block at the end. -/
theorem grownList_fits {start : ℕ} (hs : size ≤ 9223372036854775808)
    (h0 : 0 < start) : firstFit 48 size start (grownList size bs) ≠ 0 := by
  have hu : u64 (size+48) = size+48 := u64_of_lt (by omega)
  intro hz
  obtain ⟨b,hb,hbu,hbs⟩ := coalesce_grown 48 bs (regionOf (u64 (size+48))-48)
  have hno := (firstFit_eq_zero 48 h0).mp hz b hb
  simp [fits,hbu] at hno
  rw [hu] at hbs
  simp only [regionOf] at hbs
  omega

theorem payloads_grownList (size a : ℕ) (bs : List Block) :
    payloads 48 a (grownList size bs) = payloads 48 a bs := by
  rw [grownList,payloads_coalesce,payloads_append]
  simp [payloads]

/-- A request for `n` bytes that was answered with `p` changed no allocation or added one of at
least `n` bytes.  It stored into no payload that was in use, and left no two free neighbours if
there were none. -/
structure Allocates (h : HeapState) (bs : List Block) (n p : ℕ) (h' : HeapState)
    (bs' : List Block) : Prop where
  start : h'.start = h.start
  ready : Ready h' bs'
  freeList : h.freeList ≠ 0 → h'.freeList ≠ 0
  merged : Merged bs → Merged bs'
  kept : Private (payloads 48 h.start bs) h.ram h'.ram
  below : Logged (· < h'.brk) h.ram h'.ram
  served : (p = 0 ∧ payloads 48 h.start bs' = payloads 48 h.start bs) ∨
    p ≠ 0 ∧ ∃ ps qs s, n ≤ s ∧ payloads 48 h.start bs = ps++qs ∧
      payloads 48 h.start bs' = ps++(p,s)::qs

theorem Allocates.mono {bs' : List Block} {m p : ℕ}
    (ha : Allocates h bs m p h' bs') (hn : p = 0 ∨ n ≤ m) : Allocates h bs n p h' bs' := by
  obtain ⟨h1,h2,h3,h4,h5,h6,hcase⟩ := ha
  refine ⟨h1,h2,h3,h4,h5,h6,hcase.imp id ?_⟩
  rintro ⟨hne,ps,qs,s,hs,hps⟩
  exact ⟨hne,ps,qs,s,le_trans (hn.resolve_left hne) hs,hps⟩

/-- `kmalloc` returns whenever the extension it may need is one that `heap_extend` handles. -/
theorem kmalloc_allocates (hr : Ready h bs) (h0 : n ≠ 0)
    (hx : firstFit 48 (roundUp n) h.start bs = 0 → Extensible frames (roundUp n) h) :
    ∃ p h' bs', kmalloc frames n h = some (p,h') ∧ Allocates h bs (roundUp n) p h' bs' := by
  obtain ⟨p,h',bs',hk,hst,hr',hfl,hp,hlog,hcase⟩ := kmalloc_cases hr h0 hx
  refine ⟨p,h',bs',hk,hst,hr',hfl,?_,hp,hlog,?_⟩ <;>
    rcases hcase with ⟨hf,rfl,rfl⟩ | ⟨-,-,rfl,rfl⟩ | ⟨-,g,-,-,-,hgrown⟩
  · exact fun hm => hm.serve 48 hf
  · exact id
  · have hm := merged_coalesce 48 (bs++[⟨regionOf (u64 (roundUp n+48))-48,false⟩])
    split_ifs at hgrown with hf
    · exact fun _ => hgrown.2 ▸ hm
    · exact fun _ => hgrown.2 ▸ hm.serve 48 hf
  · obtain ⟨ps,qs,s,hs,hold,hnew⟩ := payloads_serve 48 16 hf
    exact Or.inr ⟨by omega,ps,qs,s,hs,hold,hnew⟩
  · exact Or.inl ⟨rfl,rfl⟩
  · split_ifs at hgrown with hf
    · exact Or.inl ⟨hgrown.1,by rw [hgrown.2,payloads_grownList]⟩
    · obtain ⟨ps,qs,s,hs,hold,hnew⟩ := payloads_serve 48 16 hf
      rw [payloads_grownList] at hold
      rw [← hgrown.1,← hgrown.2] at hnew
      exact Or.inr ⟨by omega,ps,qs,s,hs,hold,hnew⟩

theorem kmalloc_ready (hr : Ready h bs) (frames : Frames) (hn : n ≤ 9223372036854775808) :
    ∃ p h' bs', kmalloc frames n h = some (p,h') ∧ Allocates h bs n p h' bs' := by
  by_cases h0 : n = 0
  · refine ⟨0,h,bs,by simp [kmalloc,h0],rfl,hr,id,id,⟨⟨[],by simp,by simp⟩,fun _ _ _ _ => rfl⟩,
      Logged.of_eq rfl,?_⟩
    exact Or.inl ⟨rfl,rfl⟩
  obtain ⟨hle,-,hmax⟩ := roundUp_spec hn
  obtain ⟨p,h',bs',hk,ha⟩ := kmalloc_allocates hr h0 fun _ => extensible hr.bounds hmax
  exact ⟨p,h',bs',hk,ha.mono (Or.inr hle)⟩

/-! `kfree`. -/

theorem payloads_used (a : ℕ) (xs ys : List Block) (hb : b.used = true) :
    payloads 48 a (xs++b::ys) = payloads 48 a xs++(endOf 48 a xs+48,b.size)::
      payloads 48 (endOf 48 a xs+48+b.size) ys := by
  rw [payloads_append]
  simp [payloads,hb]

theorem payloads_unused (a n : ℕ) (xs ys : List Block) :
    payloads 48 a (xs++⟨n,false⟩::ys) = payloads 48 a xs++payloads 48 (endOf 48 a xs+48+n) ys := by
  rw [payloads_append]
  simp [payloads]

theorem release_holds {xs ys : List Block} (hh : Holds h (xs++b::ys)) (hb : b.used = true) :
    Holds (release h (endOf 48 h.start xs)) (xs++⟨b.size,false⟩::ys) := by
  have hbrk := hh.brk_lt
  have hends := hh.ends
  rw [endOf_append] at hends
  have hsum := sum_payloads_le 48 h.start (xs++b::ys)
  rw [hh.ends] at hsum
  have hub := hh.used
  rw [payloads_used _ _ _ hb] at hub hsum
  simp only [List.map_append,List.map_cons,List.sum_append,List.sum_cons] at hub hsum
  have hsize : h.ram.size (endOf 48 h.start xs) = b.size := (seg_append.mp hh.seg).2.1.size
  constructor
  · exact hh.startPos
  · exact hh.aligned
  · exact hh.freeList
  · simp
  · show Seg (h.ram.store (endOf 48 h.start xs+16) 0) h.brk 0 h.start _
    simpa using hh.seg.setUsed false
  · show endOf 48 h.start _ = h.brk
    rw [endOf_append]
    simpa using hends
  · intro c hc
    simp only [List.mem_append,List.mem_cons] at hc
    rcases hc with hc | rfl | hc
    · exact hh.sizes c (by simp [hc])
    · exact hh.sizes b (by simp)
    · exact hh.sizes c (by simp [hc])
  · exact hh.mapped
  · exact hh.cap
  · exact hh.room
  · show sub64 h.usedBytes (h.ram.size _) = ((payloads 48 h.start _).map Prod.snd).sum
    rw [hsize,payloads_unused,sub64_of_le (by omega) (by omega)]
    simp only [List.map_append,List.sum_append]
    omega

theorem mem_headers_middle (a : ℕ) (xs ys : List Block) (b : Block) :
    endOf 48 a xs ∈ headers 48 a (xs++b::ys) := by
  rw [headers_append]
  simp [headers]

theorem kfree_used {xs ys : List Block} (hh : Holds h (xs++b::ys)) (hb : b.used = true) :
    kfree (endOf 48 h.start xs+48) h = coalesceBlocks (release h (endOf 48 h.start xs)) := by
  have hbrk := hh.brk_lt
  have hends := hh.ends
  have hgt := endOf_gt (endOf 48 h.start xs) b ys
  rw [← endOf_append,hends] at hgt
  have hhd := (seg_append.mp hh.seg).2.1
  have hsub : sub64 (endOf 48 h.start xs+48) 48 = endOf 48 h.start xs := by
    rw [sub64_of_le (by omega) (by omega)]
    omega
  have hused : h.ram.word (endOf 48 h.start xs+16) = 1 := by
    rw [hhd.used]
    simp [hb]
  simp only [kfree,hsub,Ram.magic,hhd.magic,Ram.used,hused]
  rw [if_neg (by omega),if_neg (by simp),if_neg (by omega)]

/-- `kfree` of a used payload removes exactly that allocation. -/
theorem kfree_holds (hh : Holds h bs) {p s : ℕ} (hp : (p,s) ∈ payloads 48 h.start bs) :
    ∃ h' bs' ps qs, kfree p h = some h' ∧ h'.start = h.start ∧ Holds h' bs' ∧ Merged bs' ∧
      Private (ps++qs) h.ram h'.ram ∧
      payloads 48 h.start bs = ps++(p,s)::qs ∧ payloads 48 h.start bs' = ps++qs := by
  obtain ⟨xs,b,ys,rfl,hb,hpe⟩ := payloads_split 48 hp
  simp only [Prod.mk.injEq] at hpe
  obtain ⟨rfl,rfl⟩ := hpe
  have hpays := payloads_used h.start xs ys hb
  have hpays' := payloads_unused h.start b.size xs ys
  obtain ⟨h',hc,hst,-,hh',hp',-⟩ := coalesceBlocks_holds (release_holds hh hb)
  refine ⟨h',_,payloads 48 h.start xs,payloads 48 (endOf 48 h.start xs+48+b.size) ys,
    (kfree_used hh hb).trans hc,hst,hh',merged_coalesce 48 _,?_,hpays,by rw [payloads_coalesce,hpays']⟩
  refine Private.trans (s:=(release h (endOf 48 h.start xs)).ram) ?_ (by rw [← hpays']; exact hp')
  refine Wrote.private ((Wrote.refl (fun w => w = endOf 48 h.start xs+16) h.ram).store 0 rfl) ?_
  rintro w rfl q hq
  have hq' : q ∈ payloads 48 h.start (xs++b::ys) := by
    rw [hpays]
    rcases List.mem_append.mp hq with hq | hq <;> simp [hq]
  exact inHeader_apart ⟨_,mem_headers_middle h.start xs ys b,by omega,by omega⟩ q hq'

/-- The header of a block that `kfree` gave up still says so, wherever the block has gone. -/
theorem kfree_again (hh : Holds h bs) {p s : ℕ}
    (hp : (p,s) ∈ payloads 48 h.start bs) (hk : kfree p h = some h') :
    kfree p h' = some h' := by
  obtain ⟨xs,b,ys,rfl,hb,hpe⟩ := payloads_split 48 hp
  simp only [Prod.mk.injEq] at hpe
  obtain ⟨rfl,rfl⟩ := hpe
  rw [kfree_used hh hb] at hk
  have hbrk := hh.brk_lt
  have hgt := endOf_gt (endOf 48 h.start xs) b ys
  rw [← endOf_append,hh.ends] at hgt
  have hsub : sub64 (endOf 48 h.start xs+48) 48 = endOf 48 h.start xs := by
    rw [sub64_of_le (by omega) (by omega)]
    omega
  have hmem := mem_headers_middle h.start xs ys ⟨b.size,false⟩
  have hused := coalesceBlocks_used (release_holds hh hb) hk hmem
  have hfree : h'.ram.used (endOf 48 h.start xs) = 0 := hused.trans (by simp [release])
  simp only [kfree,hsub,hfree]
  rw [if_neg (by omega)]
  split <;> rfl

/-- `heap_init` leaves one free block over the whole region, or no heap. -/
theorem heapInit_cases (frames : Frames) {start : ℕ} (r : Ram) (hpos : 0 < start)
    (hal : 16 ∣ start) (hroom : start+heapMaxSize < 18446744073709551616)
    (hsize : size < 18446744073709551616) :
    Unset (heapInit frames start size r) ∨
      ∃ n, Holds (heapInit frames start size r) [⟨n,false⟩] := by
  have hmax : heapMaxSize = 25165824 := rfl
  generalize hp : (if size/4096 = 0 then 1 else size/4096) = pages
  have hpages : 1 ≤ pages ∧ pages*4096 < 18446744073709551616 := by
    split at hp <;> omega
  have hi : u64 (pages*4096) = pages*4096 := u64_of_lt hpages.2
  have hround : regionOf (pages*4096) = pages*4096 := by
    simp only [regionOf]; omega
  have hb : Bounds ⟨r,start,start,0,0,0⟩ := ⟨hpos,hal,rfl,by simp,hroom⟩
  rcases heapExtend_cases hb frames (n:=pages*4096) (by omega) (by omega)
    (Or.inl (by simp only [hround]; omega)) with ⟨h',he,hx,-⟩ | ⟨h',he,hx,-⟩
  · have hrun : heapInit frames start size r = h' := by
      simp only [heapInit,hp,hi,he,if_true]
    rw [hrun]
    obtain ⟨hbrk,hstart,hfree,hmap,hused,-,-,-⟩ := hx
    simp only [Nat.add_zero] at hbrk hstart hfree hmap hused
    exact Or.inl ⟨⟨by omega,by rw [hstart]; exact hal,by omega,by omega,by omega⟩,hfree,hmap,hused⟩
  · obtain ⟨hbrk,hstart,hfree,hmap,hused,hcap,-,-⟩ := hx
    simp only [hround,Nat.zero_add] at hbrk hstart hmap hcap hused
    have hs : sub64 (pages*4096) 48 = pages*4096-48 := sub64_of_le (by omega) hpages.2
    have hrun : heapInit frames start size r =
        { h' with ram := writeHeader h'.ram start (pages*4096-48) 0 0, freeList := start } := by
      simp only [heapInit,hp,hi,he,hs,hstart]
      rw [if_neg (by omega)]
    have hlink : linkTo h'.brk (start+48+(pages*4096-48)) = 0 := by
      rw [show start+48+(pages*4096-48) = h'.brk by omega]; simp
    have hhdr := writeHeader_hdr h'.ram h'.brk start (pages*4096-48) 0
    rw [hlink] at hhdr
    rw [hrun]
    refine Or.inr ⟨pages*4096-48,?_,?_,?_,by simp,⟨?_,trivial⟩,?_,?_,?_,?_,?_,?_⟩
    · show 0 < h'.start; omega
    · show 16 ∣ h'.start; rw [hstart]; exact hal
    · exact hstart.symm
    · rw [hstart]; exact hhdr
    · simp only [endOf_cons,endOf_nil]; omega
    · simp only [List.mem_singleton,forall_eq]; omega
    · show h'.start+h'.mapped = h'.brk; omega
    · show h'.mapped ≤ heapMaxSize; omega
    · show h'.start+heapMaxSize < _; omega
    · simp [payloads,hused]

/-- A successful `heap_init` leaves one free block over the whole region. -/
theorem heapInit_holds {start : ℕ} {r : Ram} (hpos : 0 < start)
    (hal : 16 ∣ start) (hroom : start+heapMaxSize < 18446744073709551616)
    (hsize : size < 18446744073709551616) (hok : (heapInit frames start size r).freeList ≠ 0) :
    ∃ b, b.used = false ∧ Holds (heapInit frames start size r) [b] := by
  rcases heapInit_cases frames r hpos hal hroom hsize with hu | ⟨n,hh⟩
  · exact absurd hu.freeList hok
  · exact ⟨⟨n,false⟩,rfl,hh⟩

end Heap
end DonsOs
