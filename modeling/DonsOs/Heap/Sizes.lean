import DonsOs.Heap.Complete

/-! `kmalloc` for every 64-bit size.
Rounding, the header, the pages and the check against the cap are four additions, and each wraps
for other sizes: the request becomes one for no bytes, the header is written past the region, or
the cap is passed over.  `Handles` says for which requests none of this shows. -/
namespace DonsOs
namespace Heap

open Tiling Run

/-- The pages that the loop of `heap_extend` maps before the frames run out. -/
def granted (frames : Frames) : ℕ → ℕ → ℕ
  | 0, _ => 0
  | n+1, i =>
    match frames i with
    | none => 0
    | some _ => granted frames n (i+1)+1

theorem granted_le (frames : Frames) (n i : ℕ) : granted frames n i ≤ n := by
  induction n generalizing i with
  | zero => simp [granted]
  | succ n ih =>
    have h := ih (i+1)
    simp only [granted]
    split <;> omega

theorem granted_lt {frames : Frames} {n i : ℕ} (h : granted frames n i < n) :
    ∃ j < n, frames (i+j) = none := by
  induction n generalizing i with
  | zero => omega
  | succ n ih =>
    cases hf : frames i with
    | none => exact ⟨0,by omega,hf⟩
    | some c =>
      simp only [granted,hf] at h
      obtain ⟨j,hj,hnone⟩ := ih (i:=i+1) (by omega)
      exact ⟨j+1,by omega,by rw [← hnone]; congr 1; omega⟩

/-- The bytes that `heap_extend` maps, whether or not it succeeds. -/
def extendMapped (frames : Frames) (bytes : ℕ) (h : HeapState) : ℕ :=
  let pages := u64 (bytes+4095)/4096
  if bytes = 0 ∨ heapMaxSize < u64 (h.mapped+u64 (pages*4096)) then 0 else
  4096*granted frames pages 0

/-- The bytes that `kmalloc` maps. -/
def kmallocMapped (frames : Frames) (n : ℕ) (h : HeapState) : ℕ :=
  if findFreeBlock h (roundUp n) = some 0 then extendMapped frames (u64 (roundUp n+48)) h else 0

/-- The request is answered with `NULL` or a payload of its size, no more than the cap is mapped,
and every header stays below `heap_brk`. -/
def Safe (frames : Frames) (n : ℕ) (h : HeapState) : Prop :=
  ∃ p h', kmalloc frames n h = some (p,h') ∧ (p = 0 ∨ n ≤ (payloadOf h' p).2) ∧
    h.mapped+kmallocMapped frames n h ≤ heapMaxSize ∧ Logged (· < h'.brk) h.ram h'.ram

/-- The requests that `kmalloc` serves or refuses as it should.  Up to `2^64-4144` bytes only the
check against the cap can wrap, and then the frames must run out in time.  Above that the pages
wrap, from `2^64-47` on the header does, and the last fifteen sizes are rounded to nothing. -/
def Handles (frames : Frames) (n : ℕ) (h : HeapState) : Prop :=
  if n ≤ 18446744073709547472 then
    18446744073709551616 ≤ h.mapped+regionOf (roundUp n+48) →
      h.mapped+4096*granted frames (regionOf (roundUp n+48)/4096) 0 ≤ heapMaxSize
  else if n ≤ 18446744073709551568 then False
  else if n ≤ 18446744073709551600 then True
  else (∀ b, ¬Sufficient h 0 b) ∧ (heapMaxSize < h.mapped+4096 ∨ frames 0 = none)

/-! Requests whose extension does not wrap. -/

theorem roundUp_of_le {n : ℕ} (hn : n ≤ 18446744073709551600) : roundUp n = (n+15)/16*16 := by
  rw [roundUp,u64_of_lt (by omega)]

theorem roundUp_of_gt {n : ℕ} (hn : 18446744073709551600 < n) (hlt : n < 18446744073709551616) :
    roundUp n = 0 := by
  simp only [roundUp,u64]
  omega

theorem Ready.end {h : HeapState} {bs : List Block} (hr : Ready h bs) :
    endOf 48 h.start bs = h.start+h.mapped := by
  rcases hr with hh | ⟨hu,rfl⟩
  · rw [hh.ends,hh.mapped]
  · rw [hu.mapped]
    rfl

theorem Ready.size_le {h : HeapState} {bs : List Block} (hr : Ready h bs) {b : Block} (hb : b ∈ bs) :
    b.size ≤ heapMaxSize := by
  have hend := hr.end
  have hcap := hr.bounds.cap
  obtain ⟨xs,ys,rfl⟩ := List.append_of_mem hb
  rw [endOf_append,endOf_cons] at hend
  have h1 := le_endOf 48 h.start xs
  have h2 := le_endOf 48 (endOf 48 h.start xs+48+b.size) ys
  omega

theorem firstFit_huge {h : HeapState} {bs : List Block} (hr : Ready h bs) {size : ℕ}
    (hs : heapMaxSize < size) : firstFit 48 size h.start bs = 0 := by
  rw [firstFit_eq_zero 48 hr.bounds.startPos]
  intro b hb
  have hle := hr.size_le hb
  simp only [fits,Bool.and_eq_false_iff,decide_eq_false_iff_not]
  right
  omega

theorem Allocates.answer {h h' : HeapState} {bs bs' : List Block} {n p : ℕ}
    (ha : Allocates h bs n p h' bs') :
    p = 0 ∨ n ≤ (payloadOf h' p).2 ∧ (payloadOf h' p).2 ≤ heapMaxSize := by
  refine ha.served.imp And.left ?_
  rintro ⟨-,ps,qs,s,hs,-,hnew⟩
  have hmem : (p,s) ∈ payloads 48 h'.start bs' := by
    rw [ha.start,hnew]
    simp
  have hh : Holds h' bs' := by
    rcases ha.ready with hh | ⟨-,rfl⟩
    · exact hh
    · simp [payloads] at hmem
  obtain ⟨xs,b,ys,rfl,-,hb⟩ := payloads_split 48 hmem
  rw [payloadOf_holds hh hmem]
  exact ⟨hs,(Prod.mk.inj hb).2 ▸ ha.ready.size_le (by simp)⟩

theorem extendMapped_le {h : HeapState} (hb : Bounds h) {frames : Frames} {bytes : ℕ}
    (hn : bytes+4095 < 18446744073709551616)
    (hcap : 18446744073709551616 ≤ h.mapped+regionOf bytes →
      h.mapped+4096*granted frames (regionOf bytes/4096) 0 ≤ heapMaxSize) :
    h.mapped+extendMapped frames bytes h ≤ heapMaxSize := by
  have hle := hb.cap
  have hg := granted_le frames ((bytes+4095)/4096) 0
  have hpages : regionOf bytes/4096 = (bytes+4095)/4096 := by
    simp only [regionOf]
    omega
  rw [hpages] at hcap
  simp only [extendMapped,u64_of_lt hn]
  rw [u64_of_lt (show (bytes+4095)/4096*4096 < 18446744073709551616 by omega)]
  split_ifs with hno
  · exact hle
  · by_cases hw : 18446744073709551616 ≤ h.mapped+regionOf bytes
    · exact hcap hw
    · simp only [regionOf] at hw
      rw [u64_of_lt (by omega)] at hno
      omega

theorem kmallocMapped_le {h : HeapState} (hb : Bounds h) {frames : Frames} {n : ℕ}
    (hle : h.mapped+extendMapped frames (u64 (roundUp n+48)) h ≤ heapMaxSize) :
    h.mapped+kmallocMapped frames n h ≤ heapMaxSize := by
  simp only [kmallocMapped]
  split_ifs
  · exact hle
  · exact hb.cap

/-! Requests whose pages wrap to none. -/

theorem Logged.store {P : ℕ → Prop} {r s : Ram} (h : Logged P r s) {a : ℕ} (v : ℕ) (ha : P a) :
    Logged P r (s.store a v) :=
  h.trans ⟨[a],by simp,by simpa using ha⟩

theorem Logged.header {r s : Ram} (h : Logged (fun _ => True) r s) (b size next prev : ℕ) :
    Logged (fun _ => True) r (writeHeader s b size next prev) :=
  (((((h.store _ trivial).store _ trivial).store _ trivial).store _ trivial).store _ trivial).store _
    trivial

theorem splitBlock_logged (r : Ram) (block size : ℕ) :
    Logged (fun _ => True) r (splitBlock r block size) := by
  simp only [splitBlock]
  split_ifs
  · exact Logged.of_eq rfl
  · exact ((((Logged.of_eq rfl).header _ _ _ _).store _ trivial).store _ trivial).store _ trivial
  · exact (((Logged.of_eq rfl).header _ _ _ _).store _ trivial).store _ trivial

theorem coalesceFrom_logged {fuel cur : ℕ} {r r' : Ram} (h : coalesceFrom fuel cur r = some r') :
    Logged (fun _ => True) r r' := by
  induction fuel generalizing cur r with
  | zero => simp [coalesceFrom] at h
  | succ fuel ih =>
    simp only [coalesceFrom] at h
    split_ifs at h with h0 hm hn
    · cases h
      exact Logged.of_eq rfl
    · exact ((((Logged.of_eq rfl).store _ trivial).store _ trivial).store _ trivial).trans (ih h)
    · exact (((Logged.of_eq rfl).store _ trivial).store _ trivial).trans (ih h)
    · exact ih h

theorem linkRegion_stores {h h' : HeapState} {x : ℕ} (hl : linkRegion h x = some h') :
    h'.brk = h.brk ∧ ∃ new, h'.ram.log = new++h.ram.log ∧ x ∈ new := by
  simp only [linkRegion] at hl
  split_ifs at hl with hf
  · cases hl
    exact ⟨rfl,[x+40,x+32,x+24,x+16,x+8,x],rfl,by simp⟩
  · obtain ⟨cur,-,rfl⟩ := Option.map_eq_some_iff.mp hl
    exact ⟨rfl,[x+32,cur+24,x+40,x+32,x+24,x+16,x+8,x],rfl,by simp⟩

/-- When `heap_extend` maps nothing but reports the old `heap_brk`, a header is written there. -/
theorem kmalloc_stores_brk {h : HeapState} {bs : List Block} (hr : Ready h bs) {frames : Frames}
    {n p : ℕ} {h' : HeapState} (h0 : n ≠ 0) (hf : firstFit 48 (roundUp n) h.start bs = 0)
    (he : heapExtend frames (u64 (roundUp n+48)) h = (h.brk,h))
    (hk : kmalloc frames n h = some (p,h')) : ¬Logged (· < h'.brk) h.ram h'.ram := by
  have hbrk : h.brk ≠ 0 := by have h1 := hr.bounds.startPos; have h2 := hr.bounds.mapped; omega
  simp only [kmalloc,if_neg h0,hr.find,hf,Option.bind_some,ne_eq,not_true_eq_false,if_false,he,hbrk,
    Option.bind_eq_some_iff] at hk
  obtain ⟨h₁,hl,h₂,hc,block,-,hk⟩ := hk
  obtain ⟨hbrk₁,new,hlog,hmem⟩ := linkRegion_stores hl
  obtain ⟨r,hcr,rfl⟩ := Option.map_eq_some_iff.mp hc
  have hrest : h'.brk = h₁.brk ∧ Logged (fun _ => True) h₁.ram h'.ram := by
    have hc' := coalesceFrom_logged hcr
    split_ifs at hk with hb
    · cases hk
      exact ⟨rfl,hc'⟩
    · cases hk
      exact ⟨rfl,(hc'.store _ trivial).trans (splitBlock_logged _ _ _)⟩
  obtain ⟨hbrk',more,hmore,-⟩ := hrest
  rintro ⟨all,hall,hlt⟩
  rw [hmore,hlog,← List.append_assoc] at hall
  have hsame := List.append_cancel_right hall
  have hlast := hlt h.brk (hsame ▸ List.mem_append_right _ hmem)
  omega

theorem heapExtend_nothing {h : HeapState} (hb : Bounds h) (frames : Frames) {bytes : ℕ}
    (hp : bytes = 0 ∨ u64 (bytes+4095) < 4096) : heapExtend frames bytes h = (h.brk,h) := by
  have hcap := hb.cap
  have hmap := hb.mapped
  have hroom := hb.room
  have hmax : heapMaxSize = 25165824 := rfl
  have hm : u64 h.mapped = h.mapped := u64_of_lt (by omega)
  have hk : u64 h.brk = h.brk := u64_of_lt (by omega)
  by_cases h0 : bytes = 0
  · simp [heapExtend,h0]
  · have hz : u64 (bytes+4095)/4096 = 0 := Nat.div_eq_of_lt (hp.resolve_left h0)
    have hz' : u64 0 = 0 := rfl
    simp only [heapExtend,if_neg h0,hz,Nat.zero_mul,hz',Nat.add_zero,hm,hk,mapPages,
      if_neg (Nat.not_lt.mpr hcap)]

/-! The four ranges. -/

section Ranges
variable {h : HeapState} {bs : List Block} {frames : Frames} {n : ℕ}

theorem extendMapped_wraps (hb : Bounds h) {bytes : ℕ}
    (hn : bytes+4095 < 18446744073709551616) (hw : 18446744073709551616 ≤ h.mapped+regionOf bytes) :
    extendMapped frames bytes h = 4096*granted frames (regionOf bytes/4096) 0 := by
  have hcap := hb.cap
  have hmax : heapMaxSize = 25165824 := rfl
  have hpages : regionOf bytes/4096 = (bytes+4095)/4096 := by
    simp only [regionOf]
    omega
  simp only [regionOf] at hw
  simp only [extendMapped,u64_of_lt hn]
  rw [u64_of_lt (show (bytes+4095)/4096*4096 < 18446744073709551616 by omega),hpages]
  apply if_neg
  simp only [u64]
  omega

/-- What a request that is handled asks of `heap_extend`. -/
theorem Handles.extensible (hb : Bounds h) (hok : Handles frames n h)
    (hn : n < 18446744073709551616) : Extensible frames (roundUp n) h ∧
      (18446744073709551616 ≤ h.mapped+regionOf (u64 (roundUp n+48)) →
        h.mapped+4096*granted frames (regionOf (u64 (roundUp n+48))/4096) 0 ≤ heapMaxSize) := by
  have hcap := hb.cap
  have hmax : heapMaxSize = 25165824 := rfl
  simp only [Handles] at hok
  split_ifs at hok with h₁ h₂ h₃
  · have hru := roundUp_of_le (show n ≤ 18446744073709551600 by omega)
    have hu : u64 (roundUp n+48) = roundUp n+48 := u64_of_lt (by omega)
    rw [hu]
    refine ⟨⟨?_,?_,?_⟩,hok⟩
    · omega
    · omega
    · rw [hu]
      refine (Nat.lt_or_ge _ _).imp id fun hw => ?_
      -- the cap stops the loop before the last page
      have hlt := hok hw
      have hpages : regionOf (roundUp n+48)/4096 = (roundUp n+48+4095)/4096 := by
        simp only [regionOf]
        omega
      rw [hpages] at hlt
      simp only [regionOf] at hw
      have hshort : granted frames ((roundUp n+48+4095)/4096) 0 < (roundUp n+48+4095)/4096 := by
        omega
      obtain ⟨j,hj,hnone⟩ := granted_lt hshort
      exact ⟨j,hj,by simpa using hnone⟩
  · have hru := roundUp_of_le h₃
    have hpos : 0 < u64 (roundUp n+48) := by simp only [u64]; omega
    have hle : u64 (roundUp n+48) ≤ 32 := by simp only [u64]; omega
    refine ⟨⟨hpos,by omega,Or.inl ?_⟩,fun hw => absurd hw ?_⟩ <;> simp only [regionOf] <;> omega
  · rw [roundUp_of_gt (by omega) hn]
    refine ⟨Heap.extensible hb (by omega),fun hw => absurd hw ?_⟩
    simp only [regionOf,u64]
    omega

/-- Sizes that are rounded to nothing are answered with a block unless there is none to be had. -/
theorem kmalloc_null_zero (hr : Ready h bs) (hn : roundUp n = 0) (h0 : n ≠ 0) {p : ℕ}
    {h' : HeapState} (hk : kmalloc frames n h = some (p,h')) :
    p = 0 ↔ (∀ b, ¬Sufficient h 0 b) ∧ (heapMaxSize < h.mapped+4096 ∨ frames 0 = none) := by
  have hregion : regionOf (0+48) = 4096 := rfl
  rw [kmalloc_null_iff hr h0 (by omega) hk,hn,
    extend_fails_iff hr.bounds frames (by omega) (by omega),hregion]
  simp

theorem kmalloc_handled (hr : Ready h bs) (hn : n < 18446744073709551616)
    (hok : n = 0 ∨ Handles frames n h) :
    ∃ p h' bs', kmalloc frames n h = some (p,h') ∧ Allocates h bs n p h' bs' := by
  by_cases h0 : n = 0
  · exact kmalloc_ready hr frames (by omega)
  have hok := hok.resolve_left h0
  obtain ⟨p,h',bs',hk,ha⟩ := kmalloc_allocates hr h0 fun _ => (hok.extensible hr.bounds hn).1
  refine ⟨p,h',bs',hk,ha.mono ?_⟩
  by_cases hbig : n ≤ 18446744073709551600
  · have hru := roundUp_of_le hbig
    right
    omega
  · left
    rw [kmalloc_null_zero hr (roundUp_of_gt (by omega) hn) h0 hk]
    simpa only [Handles,if_neg (show ¬n ≤ 18446744073709547472 by omega),
      if_neg (show ¬n ≤ 18446744073709551568 by omega),if_neg hbig] using hok

theorem Handles.safe (hr : Ready h bs) (hn : n < 18446744073709551616)
    (hok : Handles frames n h) : Safe frames n h := by
  obtain ⟨hx,hcap⟩ := hok.extensible hr.bounds hn
  obtain ⟨p,h',bs',hk,ha⟩ := kmalloc_handled hr hn (Or.inr hok)
  exact ⟨p,h',hk,ha.answer.imp id And.left,
    kmallocMapped_le hr.bounds (extendMapped_le hr.bounds hx.fits hcap),ha.below⟩

theorem Safe.handles (hr : Ready h bs) (h0 : 0 < n) (hn : n < 18446744073709551616)
    (hs : Safe frames n h) : Handles frames n h := by
  have hb := hr.bounds
  have hcap := hb.cap
  have hmax : heapMaxSize = 25165824 := rfl
  obtain ⟨p,h',hk,henough,hmapped,hbelow⟩ := hs
  simp only [Handles]
  split_ifs with h₁ h₂ h₃
  · intro hw
    have hru := roundUp_of_le (show n ≤ 18446744073709551600 by omega)
    have hu : u64 (roundUp n+48) = roundUp n+48 := u64_of_lt (by omega)
    have hbig : heapMaxSize < roundUp n := by
      simp only [regionOf] at hw
      omega
    rw [kmallocMapped,if_pos (by rw [hr.find,firstFit_huge hr hbig]),hu,
      extendMapped_wraps hb (by omega) hw] at hmapped
    exact hmapped
  · -- the pages wrap to none
    have hru := roundUp_of_le (show n ≤ 18446744073709551600 by omega)
    refine kmalloc_stores_brk hr (by omega) (firstFit_huge hr (by omega))
      (heapExtend_nothing hb frames ?_) hk hbelow
    simp only [u64]
    omega
  · have hz := roundUp_of_gt (show 18446744073709551600 < n by omega) hn
    have hx : Extensible frames (roundUp n) h := Heap.extensible hb (by omega)
    obtain ⟨p',h'',bs',hk',ha⟩ := kmalloc_allocates hr (by omega) fun _ => hx
    obtain ⟨rfl,rfl⟩ := Prod.mk.inj (Option.some.inj (hk'.symm.trans hk))
    rw [← kmalloc_null_zero hr hz (by omega) hk]
    rcases ha.answer with hp | ⟨-,hle⟩
    · exact hp
    · exact henough.resolve_right (by omega)

end Ranges

/-! Runs. -/

/-- Clients that ask for sizes `kmalloc` handles, free what they hold and write to the bytes they
asked for. -/
def Client.Prudent (c : Client) : Call → Prop
  | .kmalloc n frames => n < 18446744073709551616 ∧ (n = 0 ∨ Handles frames n c.heap)
  | e => c.Allowed e

theorem Client.Settled.prudent {c : Client} {e : Call} (hc : c.Settled) (hok : c.Prudent e) :
    ∃ c', c.step e = some c' ∧ c'.Settled := by
  cases e with
  | kmalloc n frames => exact hc.allocates fun bs hr => kmalloc_handled hr hok.1 hok.2
  | kfree ptr => exact hc.access hok (by simp)
  | store a v => exact hc.access hok (by simp)

/-- In every state that such clients reach, a request is safe exactly if its size is one that
`kmalloc` handles. -/
theorem kmalloc_safe_iff {frames₀ : Frames} {start size : ℕ} {r : Ram} (hreg : Region start size)
    (calls : List Call)
    (hcalls : Admits Client.step Client.Prudent ⟨heapInit frames₀ start size r,[]⟩ calls) :
    ∃ c, run Client.step ⟨heapInit frames₀ start size r,[]⟩ calls = some c ∧
      ∀ n frames, 0 < n → n < 18446744073709551616 →
        (Safe frames n c.heap ↔ Handles frames n c.heap) := by
  obtain ⟨c,hrun,hc⟩ := run_total Client.Settled (fun _ _ => Client.Settled.prudent)
    (heapInit_settled frames₀ r hreg) hcalls
  obtain ⟨bs,hr,-,-⟩ := hc.ready
  exact ⟨c,hrun,fun n frames h0 hn => ⟨Safe.handles hr h0 hn,Handles.safe hr hn⟩⟩

theorem kmalloc_safe_iff_sample :
    ∃ c, run Client.step smallHeap [.kmalloc 18446744073709551584 fun _ => none] = some c ∧
      Safe (fun _ => none) 18446744073709551600 c.heap := by
  obtain ⟨c,hr,hall⟩ :=
    @kmalloc_safe_iff (fun _ => some fun _ => 0) heapStartAddr 4096 ⟨fun _ => 0,[]⟩ smallHeap_region
      [.kmalloc 18446744073709551584 fun _ => none]
      ⟨⟨by decide,Or.inr (by simp [Handles])⟩,fun _ _ => trivial⟩
  exact ⟨c,hr,(hall _ _ (by decide) (by decide)).mpr (by simp [Handles])⟩

/-- The largest size is rounded to nothing, and answered with a payload of no bytes. -/
theorem kmalloc_max_short : ¬Safe (fun _ => none) 18446744073709551615 smallHeap.heap := by
  have hk : (kmalloc (fun _ => none) 18446744073709551615 smallHeap.heap).map
      (fun q => (q.1,(payloadOf q.2 q.1).2)) = some (heapStartAddr+48,0) := by decide +kernel
  rintro ⟨p,h',he,henough,-⟩
  rw [he,Option.map_some,Option.some.injEq,Prod.mk.injEq] at hk
  rcases henough with hp | hn
  · simp [hp,heapStartAddr] at hk
  · rw [hk.2] at hn
    omega

end Heap
end DonsOs
