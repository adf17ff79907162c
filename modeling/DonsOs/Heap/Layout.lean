import DonsOs.Lib.Tiling
import DonsOs.Heap.Model

/-! Block lists in memory.
`Seg` says that a stretch of memory holds the headers of a list of blocks; every
loop of the allocator is then a function of that list.  `Wrote` records which
stores led from one memory to another, so that each operation has a footprint. -/
namespace DonsOs
namespace Heap

open Tiling

@[simp] theorem store_word (r : Ram) (a v w : ℕ) :
    (r.store a v).word w = if w = a then v else r.word w := by
  simp [Ram.store,Function.update_apply]
@[simp] theorem store_log (r : Ram) (a v : ℕ) : (r.store a v).log = a::r.log := rfl

theorem u64_of_lt {n : ℕ} (h : n < 18446744073709551616) : u64 n = n := Nat.mod_eq_of_lt h

variable {a brk prev f : ℕ} {r s : Ram} {P : ℕ → Prop} {bs : List Block}

theorem sub64_of_le {b : ℕ} (h : b ≤ a) (ha : a < 18446744073709551616) : sub64 a b = a-b := by
  unfold sub64; omega

/-- `r'` arises from `r` by stores to addresses satisfying `P`. -/
def Wrote (P : ℕ → Prop) (r r' : Ram) : Prop :=
  ∃ new, r'.log = new++r.log ∧ (∀ w ∈ new, P w) ∧ ∀ w, w ∉ new → r'.word w = r.word w

theorem Wrote.refl (P : ℕ → Prop) (r : Ram) : Wrote P r r := ⟨[],by simp⟩

theorem Wrote.store {r' : Ram} (h : Wrote P r r') (v : ℕ) (ha : P a) :
    Wrote P r (r'.store a v) := by
  obtain ⟨new,hl,hp,hw⟩ := h
  refine ⟨a::new,by simp [hl],?_,?_⟩
  · intro w hm
    rcases List.mem_cons.mp hm with rfl | hm
    · exact ha
    · exact hp w hm
  · intro w hm
    simp only [List.mem_cons,not_or] at hm
    simp [hm.1,hw w hm.2]

theorem Wrote.trans {t : Ram} (h : Wrote P r s) (k : Wrote P s t) : Wrote P r t := by
  obtain ⟨n,hl,hp,hw⟩ := h
  obtain ⟨m,kl,kp,kw⟩ := k
  refine ⟨m++n,by simp [kl,hl],?_,?_⟩
  · intro w hm
    rcases List.mem_append.mp hm with hm | hm
    · exact kp w hm
    · exact hp w hm
  · intro w hm
    simp only [List.mem_append,not_or] at hm
    rw [kw w hm.1,hw w hm.2]

theorem Wrote.mono {Q : ℕ → Prop} (h : Wrote P r s) (hpq : ∀ w, P w → Q w) : Wrote Q r s := by
  obtain ⟨n,hl,hp,hw⟩ := h
  exact ⟨n,hl,fun w hm => hpq w (hp w hm),hw⟩

theorem Wrote.word (h : Wrote P r s) {w : ℕ} (hw : ¬P w) : s.word w = r.word w := by
  obtain ⟨n,_,hp,he⟩ := h
  exact he w fun hm => hw (hp w hm)

/-- The stores between two memories go to addresses with `P`; the words may also change because
frames appear. -/
def Logged (P : ℕ → Prop) (r r' : Ram) : Prop := ∃ new, r'.log = new++r.log ∧ ∀ w ∈ new, P w

theorem Wrote.logged {Q : ℕ → Prop} (h : Wrote P r s) (hpq : ∀ w, P w → Q w) : Logged Q r s := by
  obtain ⟨n,hl,hp,-⟩ := h
  exact ⟨n,hl,fun w hm => hpq w (hp w hm)⟩

theorem Logged.of_eq (h : s.log = r.log) : Logged P r s :=
  ⟨[],by simpa using h,by simp⟩

theorem Logged.trans {t : Ram} (h : Logged P r s) (k : Logged P s t) : Logged P r t := by
  obtain ⟨n,hl,hp⟩ := h
  obtain ⟨m,kl,kp⟩ := k
  refine ⟨m++n,by simp [kl,hl],fun w hm => ?_⟩
  rcases List.mem_append.mp hm with hm | hm
  · exact kp w hm
  · exact hp w hm

/-- Pointer to the block at `x`, `NULL` at the end of the region. -/
def linkTo (brk x : ℕ) : ℕ := if x = brk then 0 else x

theorem linkTo_of_ne {x : ℕ} (h : x ≠ brk) : linkTo brk x = x := by simp [linkTo,h]
@[simp] theorem linkTo_self (x : ℕ) : linkTo x x = 0 := by simp [linkTo]

/-- The header at `a` describes block `b`, with back link `prev`. -/
structure Hdr (r : Ram) (brk a prev : ℕ) (b : Block) : Prop where
  magic : r.word a = heapMagic
  size : r.word (a+8) = b.size
  used : r.word (a+16) = if b.used then 1 else 0
  next : r.word (a+24) = linkTo brk (a+48+b.size)
  prev : r.word (a+32) = prev

def Seg (r : Ram) (brk : ℕ) : ℕ → ℕ → List Block → Prop
  | _, _, [] => True
  | prev, a, b::bs => Hdr r brk a prev b ∧ Seg r brk a (a+48+b.size) bs

theorem seg_append {xs ys : List Block} : Seg r brk prev a (xs++ys) ↔
      Seg r brk prev a xs ∧ Seg r brk (lastOf 48 prev a xs) (endOf 48 a xs) ys := by
  induction xs generalizing prev a with
  | nil => simp [Seg]
  | cons x xs ih => simp [Seg,ih,and_assoc]

/-- Address `w` is a word of one of the headers `hs`. -/
def InHeader (hs : List ℕ) (w : ℕ) : Prop := ∃ h ∈ hs, h ≤ w ∧ w+8 ≤ h+48

/-- Address `w` is a word of one of the headers `hs` that a merge may store to: the size, or one of
the two links. -/
def InLinks (hs : List ℕ) (w : ℕ) : Prop := ∃ h ∈ hs, w = h+8 ∨ w = h+24 ∨ w = h+32

theorem InLinks.inHeader {hs : List ℕ} {w : ℕ} (h : InLinks hs w) : InHeader hs w := by
  obtain ⟨x,hx,hw⟩ := h
  exact ⟨x,hx,by omega,by omega⟩

theorem Hdr.congr {b : Block} (h : Hdr r brk a prev b)
    (he : ∀ w, a ≤ w → w < a+40 → s.word w = r.word w) : Hdr s brk a prev b :=
  ⟨by rw [he _ (by omega) (by omega)]; exact h.magic,
   by rw [he _ (by omega) (by omega)]; exact h.size,
   by rw [he _ (by omega) (by omega)]; exact h.used,
   by rw [he _ (by omega) (by omega)]; exact h.next,
   by rw [he _ (by omega) (by omega)]; exact h.prev⟩

theorem Seg.congr (h : Seg r brk prev a bs)
    (he : ∀ x ∈ headers 48 a bs, ∀ w, x ≤ w → w < x+40 → s.word w = r.word w) :
    Seg s brk prev a bs := by
  induction bs generalizing prev a with
  | nil => trivial
  | cons b bs ih =>
    refine ⟨h.1.congr (he a (by simp [headers])),ih h.2 ?_⟩
    intro x hx
    exact he x (by simp [headers,hx])

theorem Seg.frame (h : Seg r brk prev a bs)
    (he : ∀ w, a ≤ w → w < endOf 48 a bs → s.word w = r.word w) : Seg s brk prev a bs := by
  apply h.congr
  intro x hx w hw hw'
  have hb := headers_bounds 48 hx
  exact he w (by omega) (by omega)

/-- The end of the region matters only to a block that reaches it. -/
theorem seg_brk {brk' : ℕ} (h : Seg r brk prev a bs)
    (he : endOf 48 a bs < brk) (he' : endOf 48 a bs < brk') : Seg r brk' prev a bs := by
  induction bs generalizing prev a with
  | nil => trivial
  | cons b bs ih =>
    have hle := le_endOf 48 (a+48+b.size) bs
    simp only [endOf_cons] at he he'
    refine ⟨⟨h.1.magic,h.1.size,h.1.used,?_,h.1.prev⟩,ih h.2 he he'⟩
    rw [h.1.next,linkTo_of_ne (by omega),linkTo_of_ne (by omega)]

/-! One lemma for each loop. -/

theorem endOf_gt (a : ℕ) (b : Block) (bs : List Block) : a+48+b.size ≤ endOf 48 a (b::bs) := by
  have h := le_endOf 48 (a+48+b.size) bs
  simp only [endOf_cons]; omega

theorem findFrom_seg {n : ℕ}
    (hs : Seg r brk prev a bs) (he : endOf 48 a bs = brk) (ha : 0 < a) (hf : bs.length < f) :
    findFrom r n f (linkTo brk a) = some (firstFit 48 n a bs) := by
  induction bs generalizing prev a f with
  | nil =>
    obtain ⟨f,rfl⟩ : ∃ k, f = k+1 := ⟨f-1,by simp at hf; omega⟩
    simp only [endOf_nil] at he
    simp [findFrom,firstFit,he]
  | cons b bs ih =>
    obtain ⟨f,rfl⟩ : ∃ k, f = k+1 := ⟨f-1,by simp at hf; omega⟩
    have hgt := endOf_gt a b bs
    obtain ⟨hh,ht⟩ := hs
    have hl : linkTo brk a = a := linkTo_of_ne (by omega)
    have hrest := ih ht (by simpa using he) (by omega) (f:=f) (by simpa using hf)
    simp only [findFrom,hl,firstFit,hh.used,hh.size,hh.next,hrest]
    rw [if_neg (by omega)]
    rcases b with ⟨size,used⟩
    by_cases hn : n ≤ size <;> cases used <;> simp [fits,hn]

theorem tailFrom_seg {b : Block}
    (hs : Seg r brk prev a (b::bs)) (he : endOf 48 a (b::bs) = brk) (hf : bs.length < f) :
    tailFrom r f a = some (lastOf 48 prev a (b::bs)) := by
  induction bs generalizing prev a b f with
  | nil =>
    obtain ⟨f,rfl⟩ : ∃ k, f = k+1 := ⟨f-1,by simp at hf; omega⟩
    have hn := hs.1.next
    simp only [endOf_cons,endOf_nil] at he
    rw [he] at hn
    simp [tailFrom,hn]
  | cons c bs ih =>
    obtain ⟨f,rfl⟩ : ∃ k, f = k+1 := ⟨f-1,by simp at hf; omega⟩
    have hgt := endOf_gt (a+48+b.size) c bs
    have hl : r.word (a+24) = a+48+b.size := by
      rw [hs.1.next,linkTo_of_ne]
      simp only [endOf_cons] at he hgt; omega
    have hrest := ih hs.2 (by simpa using he) (f:=f) (by simpa using hf)
    simp only [tailFrom,hl,hrest]
    simp

theorem validateFrom_seg {h : HeapState}
    (hs : Seg h.ram h.brk prev a bs) (he : endOf 48 a bs = h.brk) (ha : 0 < a)
    (hstart : h.start ≤ a) (hbrk : h.brk < 18446744073709551616) (hf : bs.length < f) :
    validateFrom h f prev (linkTo h.brk a) = some 0 := by
  induction bs generalizing prev a f with
  | nil =>
    obtain ⟨f,rfl⟩ : ∃ k, f = k+1 := ⟨f-1,by simp at hf; omega⟩
    simp only [endOf_nil] at he
    simp [validateFrom,he]
  | cons b bs ih =>
    obtain ⟨f,rfl⟩ : ∃ k, f = k+1 := ⟨f-1,by simp at hf; omega⟩
    have hgt := endOf_gt a b bs
    rw [he] at hgt
    obtain ⟨hh,ht⟩ := hs
    have hl : linkTo h.brk a = a := linkTo_of_ne (by omega)
    have hrest := ih ht (by simpa using he) (by omega) (by omega) (f:=f) (by simpa using hf)
    have hu : u64 (a+48) = a+48 := u64_of_lt (by omega)
    have hend : u64 (a+48+b.size) = a+48+b.size := u64_of_lt (by omega)
    have hsub : sub64 (sub64 h.brk a) 48 = h.brk-a-48 := by
      rw [sub64_of_le (by omega) hbrk,sub64_of_le (by omega) (by omega)]
    have hused : ¬((if b.used then 1 else 0) ≠ 0 ∧ (if b.used then 1 else 0) ≠ 1) := by
      cases b.used <;> simp
    simp only [validateFrom,hl,hh.magic,hh.used,hh.size,hh.prev,hh.next,hu,hend,hsub,hrest]
    rw [if_neg (by omega),if_neg (by simp),if_neg hused,if_neg (by omega),if_neg (by omega),
      if_neg (by omega),if_neg (by simp)]
    cases bs with
    | nil =>
      have hb : a+48+b.size = h.brk := by simpa using he
      simp [hb]
    | cons c bs =>
      have hgt' := endOf_gt (a+48+b.size) c bs
      have hne : a+48+b.size ≠ h.brk := by simp only [endOf_cons] at he hgt'; omega
      have hp : h.ram.word (a+48+b.size+32) = a := ht.1.prev
      simp [linkTo_of_ne hne,hp]

theorem Seg.setPrev {p q : ℕ} (h : Seg r brk p a bs)
    (hne : bs ≠ []) : Seg (r.store (a+32) q) brk q a bs := by
  cases bs with
  | nil => exact absurd rfl hne
  | cons b bs =>
    obtain ⟨hh,ht⟩ := h
    refine ⟨⟨by simpa using hh.magic,by simpa using hh.size,by simpa using hh.used,
      by simpa using hh.next,by simp⟩,?_⟩
    apply ht.frame
    intro w hw _
    rw [store_word,if_neg (by omega)]

/-- The stores of one merge: the block at `cur` absorbs the block at `next`. -/
def mergeStores (r : Ram) (cur next : ℕ) : Ram :=
  let r := r.store (cur+8) (u64 (r.size cur+48+r.size next))
  let r := r.store (cur+24) (r.next next)
  if r.next cur ≠ 0 then r.store (r.next cur+32) cur else r

theorem mergeStores_seg {x y : Block}
    (hs : Seg r brk prev a (x::y::bs)) (he : endOf 48 a (x::y::bs) = brk)
    (hbrk : brk < 18446744073709551616) :
    Seg (mergeStores r a (a+48+x.size)) brk prev a (⟨x.size+48+y.size,x.used⟩::bs) ∧
      Wrote (InLinks (headers 48 a (x::y::bs))) r (mergeStores r a (a+48+x.size)) := by
  obtain ⟨hx,hy,ht⟩ := hs
  have hgt := le_endOf 48 (a+48+x.size+48+y.size) bs
  simp only [endOf_cons] at he
  have hu : u64 (x.size+48+y.size) = x.size+48+y.size := u64_of_lt (by omega)
  have heq : a+48+(x.size+48+y.size) = a+48+x.size+48+y.size := by omega
  have hin : InLinks (headers 48 a (x::y::bs)) (a+8) := ⟨a,by simp [headers],by omega⟩
  have hin' : InLinks (headers 48 a (x::y::bs)) (a+24) := ⟨a,by simp [headers],by omega⟩
  have hw := ((Wrote.refl _ r).store (u64 (r.size a+48+r.size (a+48+x.size))) hin).store
    (linkTo brk (a+48+x.size+48+y.size)) hin'
  have hn : (r.store (a+8) (u64 (r.size a+48+r.size (a+48+x.size)))).next (a+48+x.size) =
      linkTo brk (a+48+x.size+48+y.size) := by
    simp only [Ram.next,store_word]
    rw [if_neg (by omega)]
    exact hy.next
  simp only [mergeStores,hn]
  simp only [Ram.size,hx.size,hy.size,hu] at hw ⊢
  cases bs with
  | nil =>
    simp only [endOf_nil] at he
    simp only [he,linkTo_self] at hw ⊢
    refine ⟨⟨⟨by simpa using hx.magic,by simp,by simpa using hx.used,by simp [heq,he],
      by simpa using hx.prev⟩,trivial⟩,?_⟩
    simpa using hw
  | cons z bs =>
    have hgt' := endOf_gt (a+48+x.size+48+y.size) z bs
    have hne : a+48+x.size+48+y.size ≠ brk := by simp only [endOf_cons] at he hgt'; omega
    rw [linkTo_of_ne hne] at hw ⊢
    simp only [Ram.next,store_word]
    rw [if_pos (by simp)]
    simp only [if_true]
    constructor
    · refine ⟨⟨?_,?_,?_,?_,?_⟩,?_⟩
      · simp only [store_word]; repeat rw [if_neg (by omega)]
        exact hx.magic
      · simp only [store_word]; rw [if_neg (by omega),if_neg (by omega),if_pos trivial]
      · simp only [store_word]; repeat rw [if_neg (by omega)]
        exact hx.used
      · simp only [store_word]; rw [if_neg (by omega),if_pos trivial,heq,linkTo_of_ne hne]
      · simp only [store_word]; repeat rw [if_neg (by omega)]
        exact hx.prev
      · simp only [heq]
        refine Seg.setPrev (p:=a+48+x.size) ?_ (by simp)
        apply ht.frame
        intro w hw _
        simp only [store_word]; rw [if_neg (by omega),if_neg (by omega)]
    · exact hw.store _ ⟨a+48+x.size+48+y.size,by simp [headers],by omega⟩

theorem coalesceFrom_seg (hs : Seg r brk prev a bs) (he : endOf 48 a bs = brk) (ha : 0 < a)
    (hbrk : brk < 18446744073709551616) (hf : 2*bs.length < f) :
    ∃ r', coalesceFrom f (linkTo brk a) r = some r' ∧ Seg r' brk prev a (coalesce 48 bs) ∧
      Wrote (InLinks (headers 48 a bs)) r r' := by
  fun_induction coalesce 48 bs generalizing r prev a f with
  | case1 x y bs hxy ih =>
    -- both free: one merge, then the same position again with a shorter list
    obtain ⟨f,rfl⟩ : ∃ k, f = k+1 := ⟨f-1,by simp at hf; omega⟩
    simp only [Bool.and_eq_true,Bool.not_eq_true'] at hxy
    obtain ⟨hseg,hwr⟩ := mergeStores_seg hs he hbrk
    rw [hxy.1] at hseg
    have heq : a+48+(x.size+48+y.size) = a+48+x.size+48+y.size := by omega
    obtain ⟨r',hr,hseg',hwr'⟩ := ih hseg (by simpa [heq] using he) ha (f:=f)
      (by simp only [List.length_cons] at hf ⊢; omega)
    refine ⟨r',?_,hseg',hwr.trans (hwr'.mono ?_)⟩
    · have hgt := endOf_gt a x (y::bs)
      have hgt' := endOf_gt (a+48+x.size) y bs
      simp only [endOf_cons] at he hgt hgt'
      have hl : linkTo brk a = a := linkTo_of_ne (by omega)
      have hnext : r.word (a+24) = a+48+x.size := by
        rw [hs.1.next,linkTo_of_ne (by omega)]
      have hu : u64 (a+48+x.size) = a+48+x.size := u64_of_lt (by omega)
      rw [hl] at hr ⊢
      rw [← hr]
      simp only [coalesceFrom,Ram.next,Ram.used,Ram.size,hnext,hs.1.used,hs.2.1.used,hs.1.size,hu,
        hxy.1,hxy.2,mergeStores]
      rw [if_neg (by omega),if_pos (by simp)]
    · rintro w ⟨h,hh,hw⟩
      refine ⟨h,?_,hw⟩
      simp only [headers,heq,List.mem_cons] at hh ⊢
      tauto
  | case2 x y bs hxy ih =>
    -- one of the two is in use: the loop moves on and keeps the first header
    obtain ⟨f,rfl⟩ : ∃ k, f = k+1 := ⟨f-1,by simp at hf; omega⟩
    have hgt := endOf_gt a x (y::bs)
    have hgt' := endOf_gt (a+48+x.size) y bs
    obtain ⟨r',hr,hseg,hwr⟩ := ih hs.2 (by simpa using he) (by omega) (f:=f)
      (by simp only [List.length_cons] at hf ⊢; omega)
    simp only [endOf_cons] at he hgt hgt'
    have hl : linkTo brk a = a := linkTo_of_ne (by omega)
    refine ⟨r',?_,⟨?_,hseg⟩,hwr.mono ?_⟩
    · have hc : ¬(r.used a = 0 ∧ r.next a ≠ 0 ∧ r.used (r.next a) = 0 ∧
          u64 (a+48+r.size a) = r.next a) := by
        rintro ⟨h0,_,h1,_⟩
        have hnext : r.word (a+24) = a+48+x.size := by
          rw [hs.1.next,linkTo_of_ne (by omega)]
        simp only [Ram.next,hnext,Ram.used,hs.1.used,hs.2.1.used] at h0 h1
        apply hxy
        cases hxu : x.used <;> cases hyu : y.used <;> simp_all
      rw [hl,coalesceFrom,if_neg (by omega)]
      simp only [if_neg hc]
      rw [← hr]
      simp only [Ram.next,hs.1.next]
    · apply hs.1.congr
      intro w _ hw
      apply hwr.word
      rintro ⟨h,hh,hw'⟩
      have hb := headers_bounds 48 hh
      omega
    · rintro w ⟨h,hh,hw⟩
      exact ⟨h,by simp only [headers,List.mem_cons] at hh ⊢; tauto,hw⟩
  | case3 bs hbs =>
    refine ⟨r,?_,hs,Wrote.refl _ r⟩
    obtain ⟨f,rfl⟩ : ∃ k, f = k+1 := ⟨f-1,by omega⟩
    rcases bs with _ | ⟨b,_ | ⟨c,bs⟩⟩
    · simp only [endOf_nil] at he
      simp [coalesceFrom,he]
    · -- a single block has no successor
      obtain ⟨f,rfl⟩ : ∃ k, f = k+1 := ⟨f-1,by simp at hf; omega⟩
      have hgt := endOf_gt a b []
      simp only [endOf_cons,endOf_nil] at he hgt
      have hl : linkTo brk a = a := linkTo_of_ne (by omega)
      have hn : r.word (a+24) = 0 := by rw [hs.1.next,he,linkTo_self]
      simp [coalesceFrom,hl,hn]
    · exact absurd rfl (hbs b c bs)

end Heap
end DonsOs
