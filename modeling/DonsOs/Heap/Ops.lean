import DonsOs.Heap.Layout

/-! What `kmalloc` and `kfree` do to the block list.
`Holds h bs` is the allocator's invariant: the region from `heap_start` to
`heap_brk` is tiled by the blocks `bs`, and every header word says so.  Each
operation is described once, as a list operation together with the stores it makes. -/
namespace DonsOs
namespace Heap

open Tiling

structure Holds (h : HeapState) (bs : List Block) : Prop where
  startPos : 0 < h.start
  aligned : 16 ∣ h.start
  freeList : h.freeList = h.start
  nonempty : bs ≠ []
  seg : Seg h.ram h.brk 0 h.start bs
  ends : endOf 48 h.start bs = h.brk
  sizes : ∀ b ∈ bs, 16 ∣ b.size
  mapped : h.start+h.mapped = h.brk
  cap : h.mapped ≤ heapMaxSize
  room : h.start+heapMaxSize < 18446744073709551616
  used : h.usedBytes = ((payloads 48 h.start bs).map Prod.snd).sum

variable {h h' : HeapState} {bs ys : List Block} {r s : Ram} {ps : List (ℕ × ℕ)} {a n : ℕ}

theorem Holds.brk_lt (hh : Holds h bs) : h.brk < 18446744073709551616 := by
  have h1 := hh.mapped; have h2 := hh.cap; have h3 := hh.room
  omega

theorem Holds.length_lt (hh : Holds h bs) : bs.length < blockLimit h := by
  have he := le_endOf 48 h.start bs
  rw [hh.ends] at he
  unfold blockLimit
  omega

theorem Holds.link (hh : Holds h bs) : linkTo h.brk h.start = h.freeList := by
  rw [hh.freeList]
  apply linkTo_of_ne
  have hne := hh.nonempty
  cases bs with
  | nil => exact absurd rfl hne
  | cons b bs =>
    have h1 := endOf_gt h.start b bs
    rw [hh.ends] at h1
    omega

theorem findFreeBlock_holds (hh : Holds h bs) (n : ℕ) :
    findFreeBlock h n = some (firstFit 48 n h.start bs) := by
  rw [findFreeBlock,← hh.link]
  exact findFrom_seg hh.seg hh.ends hh.startPos hh.length_lt

theorem heapValidate_holds (hh : Holds h bs) : heapValidate h = some 0 := by
  have h0 := hh.startPos
  have h1 := hh.mapped
  have hf := hh.freeList
  unfold heapValidate
  rw [if_neg (by omega),if_neg (by omega),if_neg (by omega),← hh.link]
  exact validateFrom_seg hh.seg hh.ends hh.startPos le_rfl hh.brk_lt hh.length_lt

/-- The stores between two memories touch no byte of the ranges `ps`, and the ranges
keep their contents. -/
structure Private (ps : List (ℕ × ℕ)) (r r' : Ram) : Prop where
  stores : ∃ new, r'.log = new++r.log ∧ ∀ w ∈ new, ∀ p ∈ ps, Apart (w,8) p
  kept : ∀ p ∈ ps, ∀ w, Within w p → r'.word w = r.word w

theorem Private.trans {t : Ram} (h : Private ps r s) (k : Private ps s t) : Private ps r t := by
  obtain ⟨⟨n,hn,hp⟩,hk⟩ := h
  obtain ⟨⟨m,hm,hq⟩,kk⟩ := k
  refine ⟨⟨m++n,by simp [hm,hn],?_⟩,?_⟩
  · intro w hw
    rcases List.mem_append.mp hw with hw | hw
    · exact hq w hw
    · exact hp w hw
  · intro p hmem w hw
    rw [kk p hmem w hw,hk p hmem w hw]

theorem Private.mono {qs : List (ℕ × ℕ)} (h : Private ps r s)
    (hsub : ∀ q ∈ qs, q ∈ ps) : Private qs r s := by
  obtain ⟨⟨n,hn,hp⟩,hk⟩ := h
  exact ⟨⟨n,hn,fun w hw q hq => hp w hw q (hsub q hq)⟩,fun q hq => hk q (hsub q hq)⟩

theorem Wrote.private {P : ℕ → Prop} (h : Wrote P r s)
    (hp : ∀ w, P w → ∀ p ∈ ps, Apart (w,8) p) : Private ps r s := by
  obtain ⟨new,hl,hP,hw⟩ := h
  refine ⟨⟨new,hl,fun w hm => hp w (hP w hm)⟩,?_⟩
  intro p hmem w hwin
  apply hw
  intro hm
  have ha := hp w (hP w hm) p hmem
  simp only [Apart,Within] at ha hwin
  omega

theorem inHeader_apart {w : ℕ} (hw : InHeader (headers 48 a bs) w) :
    ∀ p ∈ payloads 48 a bs, Apart (w,8) p := by
  obtain ⟨h,hh,h1,h2⟩ := hw
  intro p hp
  have ha := headers_apart 48 hh hp
  simp only [Apart] at ha ⊢
  omega

theorem inHeader_lt {w brk : ℕ} (he : endOf 48 a bs = brk)
    (hw : InHeader (headers 48 a bs) w) : w < brk := by
  obtain ⟨x,hx,h1,h2⟩ := hw
  have hb := headers_bounds 48 hx
  omega

/-! Marking, splitting and merging. -/

theorem Seg.setUsed {brk prev : ℕ} {xs : List Block} {b : Block}
    (h : Seg r brk prev a (xs++b::ys)) (u : Bool) :
    Seg (r.store (endOf 48 a xs+16) (if u then 1 else 0)) brk prev a (xs++⟨b.size,u⟩::ys) := by
  rw [seg_append] at h ⊢
  obtain ⟨hx,hb,hy⟩ := h
  refine ⟨hx.frame ?_,⟨by simpa using hb.magic,by simpa using hb.size,by simp,
    by simpa using hb.next,by simpa using hb.prev⟩,hy.frame ?_⟩
  · intro w _ hw
    rw [store_word,if_neg (by omega)]
  · intro w hw _
    rw [store_word,if_neg (by omega)]

theorem writeHeader_outside {b s p w : ℕ} (hw : w < b ∨ b+48 ≤ w) :
    (writeHeader r b s n p).word w = r.word w := by
  simp only [writeHeader,store_word]
  repeat rw [if_neg (by omega)]

theorem writeHeader_hdr (r : Ram) (brk a s prev : ℕ) :
    Hdr (writeHeader r a s (linkTo brk (a+48+s)) prev) brk a prev ⟨s,false⟩ := by
  constructor <;> simp [writeHeader]

theorem writeHeader_wrote {b s p : ℕ} {P : ℕ → Prop}
    (hP : ∀ w, b ≤ w → w+8 ≤ b+48 → P w) : Wrote P r (writeHeader r b s n p) := by
  have h (k : ℕ) (hk : k+8 ≤ 48) : P (b+k) := hP _ (by omega) (by omega)
  exact (((((((Wrote.refl P r).store _ (hP b le_rfl (by omega))).store _ (h 8 (by omega))).store _
    (h 16 (by omega))).store _ (h 24 (by omega))).store _ (h 32 (by omega))).store _
    (h 40 (by omega)))

theorem splitBlock_seg {brk prev s : ℕ}
    (hs : Seg r brk prev a (⟨s,true⟩::ys)) (he : endOf 48 a (⟨s,true⟩::ys) = brk)
    (hbrk : brk < 18446744073709551616) (hn : n+64 < 18446744073709551616) :
    Seg (splitBlock r a n) brk prev a (carve 48 16 n ⟨s,true⟩++ys) ∧
      Wrote (fun w => InHeader (headers 48 a (⟨s,true⟩::ys)) w ∨ a+48 ≤ w ∧ w+8 ≤ a+48+s)
        r (splitBlock r a n) := by
  obtain ⟨hb,hy⟩ := hs
  have hgt := endOf_gt a ⟨s,true⟩ ys
  rw [he] at hgt
  simp only [endOf_cons] at he hgt
  have hsize : r.word (a+8) = s := hb.size
  have hnext : r.word (a+24) = linkTo brk (a+48+s) := hb.next
  have hu : u64 (n+48+16) = n+48+16 := u64_of_lt (by omega)
  by_cases hc : s ≤ n+48+16
  · have hsp : splitBlock r a n = r := by simp [splitBlock,hsize,hu,hc]
    rw [hsp]
    exact ⟨by simpa [carve,hc] using ⟨hb,hy⟩,Wrote.refl _ r⟩
  · have hnew : u64 (a+48+n) = a+48+n := u64_of_lt (by omega)
    have hrem : sub64 (sub64 s n) 48 = s-n-48 := by
      rw [sub64_of_le (a:=s) (by omega) (by omega),sub64_of_le (by omega) (by omega)]
    have hend : a+48+n+48+(s-n-48) = a+48+s := by omega
    set r₁ := writeHeader r (a+48+n) (s-n-48) (linkTo brk (a+48+s)) a with hr₁
    have hout : ∀ w, w < a+48+n ∨ a+48+n+48 ≤ w → r₁.word w = r.word w :=
      fun w hw => writeHeader_outside hw
    have hw₁ : Wrote (fun w => InHeader (headers 48 a (⟨s,true⟩::ys)) w ∨
        a+48 ≤ w ∧ w+8 ≤ a+48+s) r r₁ :=
      writeHeader_wrote fun w h1 h2 => Or.inr ⟨by omega,by omega⟩
    have hin (k : ℕ) (hk : k+8 ≤ 48) : InHeader (headers 48 a (⟨s,true⟩::ys)) (a+k) :=
      ⟨a,by simp [headers],by omega,by omega⟩
    have hhd : Hdr r₁ brk (a+48+n) a ⟨s-n-48,false⟩ := by
      have h := writeHeader_hdr r brk (a+48+n) (s-n-48) a
      rwa [hend] at h
    have hn₁ : r₁.word (a+24) = linkTo brk (a+48+s) := by rw [hout _ (by omega),hnext]
    have hcarve : carve 48 16 n ⟨s,true⟩++ys = ⟨n,true⟩::⟨s-n-48,false⟩::ys := by
      simp [carve,hc]
    rw [hcarve]
    cases ys with
    | nil =>
      have hbr : a+48+s = brk := by simpa using he
      have hsp : splitBlock r a n = (r₁.store (a+24) (a+48+n)).store (a+8) n := by
        simp only [splitBlock,Ram.size,hsize,hu,hc,if_false,hrem,hnew,Ram.next,hnext,← hr₁,hn₁]
        simp [hbr]
      rw [hsp]
      refine ⟨⟨⟨?_,by simp,?_,?_,?_⟩,hhd.congr ?_,trivial⟩,
        (hw₁.store _ (Or.inl (hin 24 (by omega)))).store _ (Or.inl (hin 8 (by omega)))⟩
      · simpa [hout a (by omega)] using hb.magic
      · simpa [hout (a+16) (by omega)] using hb.used
      · simp [linkTo_of_ne (show a+48+n ≠ brk by omega)]
      · simpa [hout (a+32) (by omega)] using hb.prev
      · intro w _ _
        simp only [store_word]; rw [if_neg (by omega),if_neg (by omega)]
    | cons c ys =>
      have hgt' := endOf_gt (a+48+s) c ys
      have hne : a+48+s ≠ brk := by omega
      have hsp : splitBlock r a n =
          ((r₁.store (a+48+s+32) (a+48+n)).store (a+24) (a+48+n)).store (a+8) n := by
        simp only [splitBlock,Ram.size,hsize,hu,hc,if_false,hrem,hnew,Ram.next,hnext,← hr₁,hn₁]
        rw [linkTo_of_ne hne,if_pos (by omega)]
      rw [hsp]
      refine ⟨⟨⟨?_,by simp,?_,?_,?_⟩,hhd.congr ?_,?_⟩,
        ((hw₁.store _ (Or.inl ⟨a+48+s,by simp [headers],by omega,by omega⟩)).store _
          (Or.inl (hin 24 (by omega)))).store _ (Or.inl (hin 8 (by omega)))⟩
      · simp only [store_word]; repeat rw [if_neg (by omega)]
        rw [hout a (by omega)]; exact hb.magic
      · simp only [store_word]; repeat rw [if_neg (by omega)]
        rw [hout _ (by omega)]; exact hb.used
      · simp only [store_word]
        rw [if_neg (by omega),if_pos trivial,linkTo_of_ne (by omega)]
      · simp only [store_word]; repeat rw [if_neg (by omega)]
        rw [hout _ (by omega)]; exact hb.prev
      · intro w _ _
        simp only [store_word]; repeat rw [if_neg (by omega)]
      · simp only [hend]
        have hset : Seg (r₁.store (a+48+s+32) (a+48+n)) brk (a+48+n) (a+48+s) (c::ys) := by
          refine Seg.setPrev (p:=a) ?_ (by simp)
          apply hy.frame
          intro w hw _
          exact hout w (Or.inr (by simp only at hw; omega))
        apply hset.frame
        intro w hw _
        simp only [store_word]; rw [if_neg (by omega),if_neg (by omega)]

theorem carve_flag (n : ℕ) (b : Block) : carve 48 16 n ⟨b.size,true⟩ = carve 48 16 n b := by
  simp [carve]

theorem takeBlock_holds {xs : List Block} {b : Block}
    (hh : Holds h (xs++b::ys)) (hb : b.used = false) (hn : n ≤ b.size) (hg : 16 ∣ n) :
    ∃ h', takeBlock h (endOf 48 h.start xs) n = (endOf 48 h.start xs+48,h') ∧
      h'.start = h.start ∧ h'.brk = h.brk ∧ Holds h' (xs++carve 48 16 n b++ys) ∧
      Private (payloads 48 h.start (xs++b::ys)) h.ram h'.ram ∧
      Logged (· < h.brk) h.ram h'.ram := by
  have hcap := hh.cap
  have hmap := hh.mapped
  have hroom := hh.room
  have hmax : heapMaxSize = 25165824 := rfl
  have hxa := le_endOf 48 h.start xs
  have he := hh.ends
  rw [endOf_append] at he
  have hgt := endOf_gt (endOf 48 h.start xs) b ys
  rw [he] at hgt
  set a := endOf 48 h.start xs with ha
  have hused := hh.seg.setUsed true
  rw [← ha] at hused
  simp only [if_true] at hused
  have hused' := seg_append.mp hused
  rw [← ha] at hused'
  have he' : endOf 48 a (⟨b.size,true⟩::ys) = h.brk := by simpa using he
  obtain ⟨hseg,hwr⟩ := splitBlock_seg hused'.2 he' hh.brk_lt (n:=n) (by omega)
  rw [carve_flag] at hseg
  set r₁ := h.ram.store (a+16) 1 with hr₁
  set r₂ := splitBlock r₁ a n with hr₂
  have hcarved : r₂.word (a+8) = carved 48 16 n b := by
    have h8 : ∀ bs, Seg r₂ h.brk (lastOf 48 0 h.start xs) a (carve 48 16 n b++bs) →
        r₂.word (a+8) = carved 48 16 n b := by
      intro bs hbs
      unfold carve at hbs
      unfold carved
      split at hbs <;> rename_i hc
      · rw [if_pos hc]; exact hbs.1.size
      · rw [if_neg hc]; exact hbs.1.size
    exact h8 ys hseg
  have hpay := payloads_take 48 16 n h.start xs ys hb
  rw [← ha] at hpay
  have hsum : ((payloads 48 h.start (xs++b::ys)).map Prod.snd).sum+carved 48 16 n b =
      ((payloads 48 h.start (xs++carve 48 16 n b++ys)).map Prod.snd).sum := by
    rw [hpay.1,hpay.2]
    simp only [List.map_append,List.sum_append,List.map_cons,List.sum_cons]
    omega
  have hends' : endOf 48 h.start (xs++carve 48 16 n b++ys) = h.brk := by
    rw [List.append_assoc,endOf_append,← ha,endOf_append,carve_endOf]
    simpa using he
  have htotal := sum_payloads_le 48 h.start (xs++carve 48 16 n b++ys)
  rw [hends'] at htotal
  have hub := hh.used
  refine ⟨account (split (setUsed h a) a n) a,?_,rfl,rfl,?_,?_,?_⟩
  · show (u64 (a+48),_) = _
    rw [u64_of_lt (by omega)]
  · constructor
    · exact hh.startPos
    · exact hh.aligned
    · exact hh.freeList
    · simp [carve]; split <;> simp
    · show Seg r₂ h.brk 0 h.start _
      rw [List.append_assoc,seg_append,← ha]
      refine ⟨?_,hseg⟩
      apply hused'.1.frame
      intro w _ hw
      rw [← ha] at hw
      apply hwr.word
      rintro (⟨x,hx,h1,h2⟩ | h1)
      · have := headers_bounds 48 hx; omega
      · omega
    · exact hends'
    · intro c hc
      simp only [List.append_assoc,List.mem_append] at hc
      rcases hc with hc | hc | hc
      · exact hh.sizes c (by simp [hc])
      · exact carve_dvd 48 (by norm_num) (hh.sizes b (by simp)) hg c hc
      · exact hh.sizes c (by simp [hc])
    · exact hmap
    · exact hcap
    · exact hroom
    · show u64 (h.usedBytes+r₂.word (a+8)) = _
      rw [hcarved,hub,hsum,u64_of_lt (by omega)]
      rfl
  · show Private _ h.ram r₂
    have hfree := fun {p} => free_block_apart 48 h.start xs ys b hb (p:=p)
    have hin : ∀ w, InHeader (headers 48 a (⟨b.size,true⟩::ys)) w ∨
        a+48 ≤ w ∧ w+8 ≤ a+48+b.size →
        ∀ p ∈ payloads 48 h.start (xs++b::ys), Apart (w,8) p := by
      rintro w (⟨x,hx,h1,h2⟩ | hw) p hp
      · refine inHeader_apart ?_ p hp
        refine ⟨x,?_,h1,h2⟩
        rw [headers_append,← ha]
        exact List.mem_append_right _ (by simpa [headers] using hx)
      · have hap := hfree hp
        rw [← ha] at hap
        simp only [Apart] at hap ⊢
        omega
    refine Private.trans (s:=r₁) ?_ (hwr.private hin)
    refine Wrote.private ((Wrote.refl (fun w => w = a+16) h.ram).store 1 rfl) ?_
    rintro w rfl p hp
    exact inHeader_apart
      ⟨a,by rw [headers_append,← ha]; simp [headers],by omega,by omega⟩ p hp
  · show Logged _ h.ram r₂
    refine Logged.trans (s:=r₁) (Wrote.logged ((Wrote.refl (· = a+16) h.ram).store 1 rfl)
      fun w hw => by omega) (hwr.logged ?_)
    rintro w (hw | hw)
    · exact inHeader_lt he' hw
    · omega

theorem coalesceBlocks_holds (hh : Holds h bs) :
    ∃ h', coalesceBlocks h = some h' ∧ h'.start = h.start ∧ h'.brk = h.brk ∧
      Holds h' (coalesce 48 bs) ∧ Private (payloads 48 h.start bs) h.ram h'.ram ∧
      Logged (· < h.brk) h.ram h'.ram := by
  have hl := hh.length_lt
  obtain ⟨r,hr,hseg,hwr⟩ := coalesceFrom_seg (f:=2*blockLimit h) hh.seg hh.ends hh.startPos
    hh.brk_lt (by omega)
  rw [hh.link] at hr
  refine ⟨{ h with ram := r },by simp [coalesceBlocks,hr],rfl,rfl,?_,
    hwr.private fun w hw => inHeader_apart hw.inHeader,
    hwr.logged fun w hw => inHeader_lt hh.ends hw.inHeader⟩
  exact ⟨hh.startPos,hh.aligned,hh.freeList,coalesce_ne_nil 48 hh.nonempty,hseg,
    by simpa using hh.ends,coalesce_dvd 48 (by norm_num) hh.sizes,hh.mapped,hh.cap,hh.room,
    by simpa using hh.used⟩

/-- Merging stores to no used flag, also not to that of a header which leaves the list. -/
theorem coalesceBlocks_used (hh : Holds h bs)
    (hc : coalesceBlocks h = some h') {x : ℕ} (hx : x ∈ headers 48 h.start bs) :
    h'.ram.used x = h.ram.used x := by
  have hl := hh.length_lt
  obtain ⟨r,hr,-,hwr⟩ := coalesceFrom_seg (f:=2*blockLimit h) hh.seg hh.ends hh.startPos
    hh.brk_lt (by omega)
  rw [hh.link] at hr
  simp only [coalesceBlocks,hr,Option.map_some,Option.some.injEq] at hc
  subst hc
  refine hwr.word ?_
  rintro ⟨y,hy,hw⟩
  rcases headers_eq_or_apart 48 hx hy with rfl | hap | hap <;> omega

/-! Growing the region. -/

theorem mapPages_ram (frames : Frames) (s : ℕ) (n i : ℕ) (r : Ram) :
    (mapPages frames s n i r).2.log = r.log ∧
      ∀ w < s, (mapPages frames s n i r).2.word w = r.word w := by
  induction n generalizing i r with
  | zero => simp [mapPages]
  | succ n ih =>
    simp only [mapPages]
    split
    · simp
    · rename_i c _
      have h := ih (i+1) (r.mapPage (s+i*4096) c)
      refine ⟨h.1,fun w hw => ?_⟩
      rw [h.2 w hw]
      simp only [Ram.mapPage]
      rw [if_neg (by omega)]

/-- The loop comes to its end exactly if there is a frame for every page. -/
theorem mapPages_fails (frames : Frames) (s : ℕ) (n i : ℕ) (r : Ram) :
    (mapPages frames s n i r).1 = false ↔ ∃ j < n, frames (i+j) = none := by
  induction n generalizing i r with
  | zero => simp [mapPages]
  | succ n ih =>
    simp only [mapPages]
    split <;> rename_i hf
    · simp only [true_iff]
      exact ⟨0,by omega,hf⟩
    · rw [ih,Nat.exists_lt_succ_left]
      simp only [Nat.add_zero,hf,reduceCtorEq,false_or,Nat.add_assoc,Nat.add_comm 1]

/-- What the statics and the addresses of a heap always satisfy. -/
structure Bounds (h : HeapState) : Prop where
  startPos : 0 < h.start
  aligned : 16 ∣ h.start
  mapped : h.start+h.mapped = h.brk
  cap : h.mapped ≤ heapMaxSize
  room : h.start+heapMaxSize < 18446744073709551616

theorem Holds.bounds (hh : Holds h bs) : Bounds h :=
  ⟨hh.startPos,hh.aligned,hh.mapped,hh.cap,hh.room⟩

/-- The region has grown by `m` bytes; everything below the old end is as it was. -/
structure Extended (h h' : HeapState) (m : ℕ) : Prop where
  brk : h'.brk = h.brk+m
  start : h'.start = h.start
  freeList : h'.freeList = h.freeList
  mapped : h'.mapped = h.mapped+m
  usedBytes : h'.usedBytes = h.usedBytes
  cap : h.mapped+m ≤ heapMaxSize
  log : h'.ram.log = h.ram.log
  below : ∀ w < h.brk, h'.ram.word w = h.ram.word w

/-- The bytes of the pages that an extension by `n` bytes takes. -/
def regionOf (n : ℕ) : ℕ := (n+4095)/4096*4096

/-- `heap_extend` refuses, with at most some pages mapped past `heap_brk`, or moves `heap_brk` up
by whole pages.  When the sum of the check wraps, it must run out of frames. -/
theorem heapExtend_cases (hb : Bounds h) (frames : Frames) (h0 : 0 < n)
    (hn : n+4095 < 18446744073709551616)
    (hwrap : h.mapped+regionOf n < 18446744073709551616 ∨ ∃ i < (n+4095)/4096, frames i = none) :
    (∃ h', heapExtend frames n h = (0,h') ∧ Extended h h' 0 ∧
        (heapMaxSize < h.mapped+regionOf n ∨ ∃ i < (n+4095)/4096, frames i = none)) ∨
      ∃ h', heapExtend frames n h = (h.brk,h') ∧ Extended h h' (regionOf n) ∧
        ∀ i < (n+4095)/4096, frames i ≠ none := by
  have hcap := hb.cap
  have hmap := hb.mapped
  have hroom := hb.room
  have hmax : heapMaxSize = 25165824 := rfl
  have hu : u64 (n+4095) = n+4095 := u64_of_lt hn
  have hp : u64 ((n+4095)/4096*4096) = (n+4095)/4096*4096 := u64_of_lt (by omega)
  have hram := mapPages_ram frames h.brk ((n+4095)/4096) 0 h.ram
  have hfails := mapPages_fails frames h.brk ((n+4095)/4096) 0 h.ram
  simp only [Nat.zero_add] at hfails
  simp only [heapExtend,hu,hp,regionOf] at hwrap ⊢
  rw [if_neg (by omega)]
  by_cases hc : heapMaxSize < u64 (h.mapped+(n+4095)/4096*4096)
  · rw [if_pos hc]
    refine Or.inl ⟨h,rfl,⟨rfl,rfl,rfl,rfl,rfl,hcap,rfl,fun _ _ => rfl⟩,Or.inl ?_⟩
    exact lt_of_lt_of_le hc (Nat.mod_le _ _)
  · rw [if_neg hc]
    generalize mapPages frames h.brk ((n+4095)/4096) 0 h.ram = res at hram hfails
    obtain ⟨ok,r⟩ := res
    cases ok with
    | false =>
      exact Or.inl ⟨_,rfl,⟨rfl,rfl,rfl,rfl,rfl,hcap,hram.1,hram.2⟩,Or.inr (hfails.mp rfl)⟩
    | true =>
      -- every page got its frame, so that the sum did not wrap
      have hall : ∀ i < (n+4095)/4096, frames i ≠ none := fun i hi hnone =>
        absurd (hfails.mpr ⟨i,hi,hnone⟩) (by simp)
      have hlt : h.mapped+(n+4095)/4096*4096 < 18446744073709551616 :=
        hwrap.resolve_right fun hx => by
          obtain ⟨i,hi,hnone⟩ := hx
          exact hall i hi hnone
      rw [u64_of_lt hlt] at hc
      refine Or.inr ⟨_,rfl,⟨u64_of_lt (by omega),rfl,rfl,u64_of_lt hlt,rfl,by omega,hram.1,hram.2⟩,hall⟩

theorem Extended.seg {m : ℕ} (he : Extended h h' m)
    (hh : Holds h bs) : Seg h'.ram h.brk 0 h.start bs := by
  apply hh.seg.frame
  intro w _ hw
  rw [hh.ends] at hw
  exact he.below w hw

theorem Extended.private {m : ℕ} (he : Extended h h' m)
    (hh : Holds h bs) : Private (payloads 48 h.start bs) h.ram h'.ram := by
  refine ⟨⟨[],by simpa using he.log,by simp⟩,?_⟩
  intro p hp w hw
  have hb := payloads_bounds 48 hp
  rw [hh.ends] at hb
  apply he.below
  simp only [Within] at hw; omega

theorem Extended.holds (he : Extended h h' 0) (hh : Holds h bs) : Holds h' bs := by
  have hseg := he.seg hh
  obtain ⟨hbrk,hstart,hfree,hmap,hused,-,-,-⟩ := he
  rw [Nat.add_zero] at hbrk hmap
  constructor
  · rw [hstart]; exact hh.startPos
  · rw [hstart]; exact hh.aligned
  · rw [hfree,hstart]; exact hh.freeList
  · exact hh.nonempty
  · rw [hbrk,hstart]; exact hseg
  · rw [hbrk,hstart]; exact hh.ends
  · exact hh.sizes
  · rw [hbrk,hstart,hmap]; exact hh.mapped
  · rw [hmap]; exact hh.cap
  · rw [hstart]; exact hh.room
  · rw [hused,hstart]; exact hh.used

theorem linkRegion_holds {m : ℕ} (hh : Holds h bs)
    (hm : 48 ≤ m) (hg : 16 ∣ m) (hx : Extended h h' m) :
    ∃ h'', linkRegion h' h.brk = some h'' ∧ h''.start = h.start ∧ h''.brk = h'.brk ∧
      Holds h'' (bs++[⟨m-48,false⟩]) ∧ Private (payloads 48 h.start bs) h'.ram h''.ram ∧
      Logged (· < h'.brk) h'.ram h''.ram := by
  have hseg := hx.seg hh
  obtain ⟨hbrk,hstart,hfree,hmap,hused,hcap,-,-⟩ := hx
  have hstart0 := hh.startPos
  have hmap0 := hh.mapped
  have hroom := hh.room
  have hlen := hh.length_lt
  have hsub : sub64 (sub64 h'.brk h.brk) 48 = m-48 := by
    rw [sub64_of_le (a:=h'.brk) (by omega) (by omega),sub64_of_le (by omega) (by omega)]; omega
  obtain ⟨b,cs,hbs⟩ : ∃ b cs, bs = b::cs := by
    have hne := hh.nonempty
    cases bs with
    | nil => exact absurd rfl hne
    | cons b cs => exact ⟨b,cs,rfl⟩
  set r₁ := writeHeader h'.ram h.brk (m-48) 0 0 with hr₁
  have hseg₁ : Seg r₁ h.brk 0 h.start bs := by
    apply hseg.frame
    intro w _ hw
    rw [hh.ends] at hw
    exact writeHeader_outside (Or.inl hw)
  have htail : tailFrom r₁ (blockLimit h') h'.freeList = some (lastOf 48 0 h.start bs) := by
    rw [hfree,hh.freeList]
    have he := hh.ends
    rw [hbs] at hseg₁ he ⊢
    apply tailFrom_seg hseg₁ he
    have hl : blockLimit h ≤ blockLimit h' := by unfold blockLimit; rw [hstart]; omega
    rw [hbs] at hlen
    simp only [List.length_cons] at hlen
    omega
  -- the last block is split off, because its forward link is the one that changes
  obtain ⟨init,z,hz⟩ : ∃ init z, bs = init++[z] :=
    ⟨bs.dropLast,bs.getLast hh.nonempty,(List.dropLast_append_getLast hh.nonempty).symm⟩
  have hzlast : lastOf 48 0 h.start bs = endOf 48 h.start init := by
    rw [hz,lastOf_append]; rfl
  have hzend : endOf 48 h.start init+48+z.size = h.brk := by
    have he := hh.ends
    rw [hz,endOf_append] at he
    simpa using he
  set c := endOf 48 h.start init with hc
  set r₂ := (r₁.store (c+24) h.brk).store (h.brk+32) c with hr₂
  refine ⟨{ h' with ram := r₂ },?_,hstart,rfl,?_,?_,?_⟩
  · have h0 : h'.freeList ≠ 0 := by rw [hfree,hh.freeList]; omega
    simp only [linkRegion,hsub,← hr₁]
    rw [if_neg h0,htail,hzlast]
    rfl
  · have hpay : payloads 48 h.start (bs++[⟨m-48,false⟩]) = payloads 48 h.start bs := by
      rw [payloads_append]; simp [payloads]
    have hends : endOf 48 h.start (bs++[⟨m-48,false⟩]) = h'.brk := by
      rw [endOf_append,hh.ends,hbrk]
      simp only [endOf_cons,endOf_nil]; omega
    constructor
    · show 0 < h'.start; omega
    · show 16 ∣ h'.start; rw [hstart]; exact hh.aligned
    · show h'.freeList = h'.start; rw [hfree,hstart]; exact hh.freeList
    · simp
    · show Seg r₂ h'.brk 0 h'.start _
      rw [hstart,hz,List.append_assoc,seg_append,← hc]
      rw [hz,seg_append,← hc] at hseg₁
      obtain ⟨hi,hzh,_⟩ := hseg₁
      have hlow : ∀ w < c, r₂.word w = r₁.word w := by
        intro w hw
        simp only [hr₂,store_word]; rw [if_neg (by omega),if_neg (by omega)]
      refine ⟨seg_brk (hi.frame fun w _ hw => hlow w hw) (by rw [← hc]; omega)
        (by rw [← hc]; omega),⟨?_,?_,?_,?_,?_⟩,?_,trivial⟩
      · simp only [hr₂,store_word]; repeat rw [if_neg (by omega)]
        exact hzh.magic
      · simp only [hr₂,store_word]; repeat rw [if_neg (by omega)]
        exact hzh.size
      · simp only [hr₂,store_word]; repeat rw [if_neg (by omega)]
        exact hzh.used
      · simp only [hr₂,store_word]
        rw [if_neg (by omega),if_pos trivial,hzend,linkTo_of_ne (by omega)]
      · simp only [hr₂,store_word]; repeat rw [if_neg (by omega)]
        exact hzh.prev
      · rw [hzend]
        have hl : linkTo h'.brk (h.brk+48+(m-48)) = 0 := by
          rw [show h.brk+48+(m-48) = h'.brk by omega]; simp
        have hhd := writeHeader_hdr h'.ram h'.brk h.brk (m-48) 0
        rw [hl,← hr₁] at hhd
        constructor
        · simp only [hr₂,store_word]; repeat rw [if_neg (by omega)]
          exact hhd.magic
        · simp only [hr₂,store_word]; repeat rw [if_neg (by omega)]
          exact hhd.size
        · simp only [hr₂,store_word]; repeat rw [if_neg (by omega)]
          exact hhd.used
        · simp only [hr₂,store_word]; repeat rw [if_neg (by omega)]
          exact hhd.next
        · simp [hr₂]
    · show endOf 48 h'.start _ = h'.brk; rw [hstart]; exact hends
    · intro d hd
      rcases List.mem_append.mp hd with hd | hd
      · exact hh.sizes d hd
      · simp only [List.mem_singleton] at hd
        subst hd
        exact Nat.dvd_sub hg (by norm_num)
    · show h'.start+h'.mapped = h'.brk; omega
    · show h'.mapped ≤ heapMaxSize; omega
    · show h'.start+heapMaxSize < _; omega
    · show h'.usedBytes = _
      rw [hused,hstart,hpay]; exact hh.used
  · have hpb : ∀ p ∈ payloads 48 h.start bs, _ := fun p hp => payloads_bounds 48 hp
    refine Private.trans (s:=r₁) ?_ ?_
    · refine (writeHeader_wrote (P:=fun w => h.brk ≤ w) fun w hw _ => hw).private ?_
      intro w hw p hp
      have hb := hpb p hp
      rw [hh.ends] at hb
      simp only [Apart]; omega
    · refine Wrote.private (P:=fun w => w = c+24 ∨ h.brk ≤ w)
        (((Wrote.refl _ r₁).store h.brk (Or.inl rfl)).store c (Or.inr (by omega))) ?_
      rintro w (rfl | hw) p hp
      · refine inHeader_apart ⟨c,?_,by omega,by omega⟩ p hp
        rw [hz,headers_append,← hc]; simp [headers]
      · have hb := hpb p hp
        rw [hh.ends] at hb
        simp only [Apart]; omega
  · refine Logged.trans (s:=r₁) ((writeHeader_wrote (P:=fun w => w < h.brk+48) fun w _ hw =>
      by omega).logged fun w hw => by omega) ?_
    exact Wrote.logged (((Wrote.refl (fun w => w = c+24 ∨ w = h.brk+32) r₁).store h.brk
      (Or.inl rfl)).store c (Or.inr rfl)) fun w hw => by omega

end Heap
end DonsOs
