import DonsOs.Heap.Ops

/-! `heap_validate` on a heap of any content.
The checks of one block put its end between its header and `heap_brk`, so the walk moves up
and ends, whatever the words say; and it answers 0 only for a list of blocks as the heap should
have it.  One word is read too early: the back link of the next block, before anything is known
about that block's place. -/
namespace DonsOs
namespace Heap

open Tiling

variable {h : HeapState} {prev cur n : ℕ}

/-- The block passes the checks on its own fields. -/
structure Passes (h : HeapState) (prev cur : ℕ) : Prop where
  magic : h.ram.magic cur = heapMagic
  used : h.ram.used cur = 0 ∨ h.ram.used cur = 1
  low : h.start ≤ cur
  fits : cur+48+h.ram.size cur ≤ h.brk
  prev : h.ram.prev cur = prev

/-- The walk goes on from the block: `next` is the end of the block, and the block there points
back. -/
structure Follows (h : HeapState) (cur : ℕ) : Prop where
  set : h.ram.next cur ≠ 0
  next : h.ram.next cur = cur+48+h.ram.size cur
  back : h.ram.prev (h.ram.next cur) = cur

/-- The block is the last one. -/
structure Closes (h : HeapState) (cur : ℕ) : Prop where
  next : h.ram.next cur = 0
  ends : cur+48+h.ram.size cur = h.brk

/-- What one turn can do: name the block as bad, or go on behind it. -/
theorem validateFrom_cases (hcur : cur ≠ 0) (hle : cur ≤ h.brk)
    (hbrk : h.brk+48 < 18446744073709551616) :
    (∀ n, validateFrom h (n+1) prev cur = some cur) ∨
      (Passes h prev cur ∧ (Follows h cur ∨ Closes h cur) ∧
        ∀ n, validateFrom h (n+1) prev cur = validateFrom h n cur (h.ram.next cur)) := by
  have hhead : u64 (cur+48) = cur+48 := u64_of_lt (by omega)
  have hsub : h.brk < cur+48 ∨ sub64 (sub64 h.brk cur) 48 = h.brk-cur-48 := by
    rcases Nat.lt_or_ge h.brk (cur+48) with hlt | hge
    · exact Or.inl hlt
    · have hlow : sub64 h.brk cur = h.brk-cur := sub64_of_le hle (by omega)
      rw [hlow,sub64_of_le (by omega) (by omega)]
      exact Or.inr rfl
  simp only [validateFrom,hcur,hhead,if_false]
  by_cases hmagic : h.ram.magic cur ≠ heapMagic
  · exact Or.inl fun n => if_pos hmagic
  by_cases hused : h.ram.used cur ≠ 0 ∧ h.ram.used cur ≠ 1
  · exact Or.inl fun n => by rw [if_neg hmagic,if_pos hused]
  by_cases hlow : cur < h.start
  · exact Or.inl fun n => by rw [if_neg hmagic,if_neg hused,if_pos hlow]
  by_cases hfit : h.brk < cur+48
  · exact Or.inl fun n => by rw [if_neg hmagic,if_neg hused,if_neg hlow,if_pos hfit]
  rw [hsub.resolve_left hfit]
  by_cases hsize : h.brk-cur-48 < h.ram.size cur
  · exact Or.inl fun n => by rw [if_neg hmagic,if_neg hused,if_neg hlow,if_neg hfit,if_pos hsize]
  have hend : u64 (cur+48+h.ram.size cur) = cur+48+h.ram.size cur := u64_of_lt (by omega)
  by_cases hprev : h.ram.prev cur ≠ prev
  · exact Or.inl fun n => by
      rw [if_neg hmagic,if_neg hused,if_neg hlow,if_neg hfit,if_neg hsize,if_pos hprev]
  simp only [hmagic,hused,hlow,hfit,hsize,hprev,hend,if_false]
  have hpasses : Passes h prev cur := ⟨not_not.mp hmagic,by omega,by omega,by omega,not_not.mp hprev⟩
  by_cases hset : h.ram.next cur ≠ 0
  · by_cases hnext : h.ram.next cur ≠ cur+48+h.ram.size cur
    · exact Or.inl fun n => by rw [if_pos hset,if_pos hnext]
    · by_cases hback : h.ram.prev (h.ram.next cur) ≠ cur
      · exact Or.inl fun n => by rw [if_pos hset,if_neg hnext,if_pos hback]
      · exact Or.inr ⟨hpasses,Or.inl ⟨hset,not_not.mp hnext,not_not.mp hback⟩,fun n => by
          rw [if_pos hset,if_neg hnext,if_neg hback]⟩
  · by_cases hends : cur+48+h.ram.size cur ≠ h.brk
    · exact Or.inl fun n => by rw [if_neg hset,if_pos hends]
    · exact Or.inr ⟨hpasses,Or.inr ⟨not_not.mp hset,not_not.mp hends⟩,fun n => by
        rw [if_neg hset,if_neg hends]⟩

/-- The block that the words of a header describe. -/
def blockAt (h : HeapState) (cur : ℕ) : Block := ⟨h.ram.size cur,h.ram.used cur = 1⟩

theorem Passes.hdr (hp : Passes h prev cur)
    (hnext : h.ram.next cur = linkTo h.brk (cur+48+h.ram.size cur)) :
    Hdr h.ram h.brk cur prev (blockAt h cur) := by
  have hused : h.ram.used cur = if (blockAt h cur).used then 1 else 0 := by
    simp only [blockAt,decide_eq_true_eq]
    split_ifs with hu
    · exact hu
    · exact hp.used.resolve_right hu
  exact ⟨hp.magic,rfl,hused,hnext,hp.prev⟩

/-- The walk ends within one turn for every header that fits in, and one more; if it answers 0 it
has seen a list of blocks that fills the region. -/
theorem validateFrom_decides (hcur : cur ≠ 0) (hle : cur ≤ h.brk)
    (hbrk : h.brk+48 < 18446744073709551616) :
    ∃ v, (∀ n, (h.brk-cur)/48+1 ≤ n → validateFrom h n prev cur = some v) ∧
      (v = 0 → ∃ bs, bs ≠ [] ∧ Seg h.ram h.brk prev cur bs ∧ endOf 48 cur bs = h.brk) := by
  -- every block passed moves the walk up by its header at least
  induction hd : h.brk-cur using Nat.strong_induction_on generalizing prev cur with
  | _ d ih =>
    subst hd
    rcases @validateFrom_cases h prev cur hcur hle hbrk with hbad | ⟨hp,hnext,heq⟩
    · refine ⟨cur,fun n hn => ?_,fun hv => absurd hv hcur⟩
      obtain ⟨n,rfl⟩ : ∃ k, n = k+1 := ⟨n-1,by omega⟩
      exact hbad n
    · have hfits := hp.fits
      rcases hnext with hf | hc
      · have hlink := hf.next
        obtain ⟨v,hv,hseg⟩ := @ih (h.brk-h.ram.next cur) (by omega) cur _ hf.set (by omega) rfl
        refine ⟨v,fun n hn => ?_,fun hzero => ?_⟩
        · obtain ⟨n,rfl⟩ : ∃ k, n = k+1 := ⟨n-1,by omega⟩
          rw [heq]
          exact hv n (by omega)
        · obtain ⟨bs,hne,hs,he⟩ := hseg hzero
          -- another block follows, so this one does not reach the end
          obtain ⟨b,bs,rfl⟩ := List.exists_cons_of_ne_nil hne
          have hgt := endOf_gt (h.ram.next cur) b bs
          have hhdr := hp.hdr (hlink.trans (linkTo_of_ne (by omega)).symm)
          rw [hlink] at hs he
          exact ⟨blockAt h cur::b::bs,List.cons_ne_nil _ _,⟨hhdr,hs⟩,he⟩
      · have hends := hc.ends
        have hhdr := hp.hdr (by rw [hc.next,hends,linkTo_self])
        refine ⟨0,fun n hn => ?_,fun _ => ⟨[blockAt h cur],List.cons_ne_nil _ _,⟨hhdr,trivial⟩,hends⟩⟩
        obtain ⟨n,rfl⟩ : ∃ k, n = k+2 := ⟨n-2,by omega⟩
        rw [heq,hc.next,validateFrom,if_pos rfl]

theorem seg_length {bs : List Block} (he : endOf 48 h.start bs = h.brk) :
    bs.length ≤ (h.brk-h.start)/48 := by
  have hle := le_endOf 48 h.start bs
  omega

theorem heapValidate_walk (hstart : 0 < h.start) (hle : h.start ≤ h.brk) (hfree : h.freeList = h.start) :
    heapValidate h = validateFrom h (blockLimit h) 0 h.start := by
  rw [heapValidate,if_neg (by omega),if_neg (by omega),if_neg (not_not.mpr hfree),hfree]

/-- `heap_validate` answers after at most one turn for each header that fits into the region and
one more, and it answers 0 exactly for a heap in order. -/
theorem heapValidate_decides (hstart : 0 < h.start) (hle : h.start ≤ h.brk)
    (hbrk : h.brk+48 < 18446744073709551616) :
    (∃ v, heapValidate h = some v ∧ (h.freeList = h.start →
      ∀ n, (h.brk-h.start)/48+1 ≤ n → validateFrom h n 0 h.freeList = some v)) ∧
    (heapValidate h = some 0 ↔ h.freeList = h.start ∧
      ∃ bs, bs ≠ [] ∧ Seg h.ram h.brk 0 h.start bs ∧ endOf 48 h.start bs = h.brk) := by
  by_cases hfree : h.freeList = h.start
  · have hcall := heapValidate_walk hstart hle hfree
    obtain ⟨v,hv,hseg⟩ := @validateFrom_decides h 0 h.start (by omega) hle hbrk
    have hanswer : heapValidate h = some v := hcall.trans (hv (blockLimit h) (by
      rw [blockLimit]
      omega))
    refine ⟨⟨v,hanswer,fun _ n hn => hfree ▸ hv n hn⟩,?_⟩
    constructor
    · intro hzero
      exact ⟨hfree,hseg (Option.some.inj (hanswer.symm.trans hzero))⟩
    · rintro ⟨-,bs,hne,hs,he⟩
      obtain ⟨b,bs,rfl⟩ := List.exists_cons_of_ne_nil hne
      have hgt := endOf_gt h.start b bs
      have hlen := seg_length he
      have hzero := validateFrom_seg (f:=blockLimit h) hs he hstart le_rfl (by omega) (by
        rw [blockLimit]
        omega)
      rw [linkTo_of_ne (by omega)] at hzero
      exact hcall.trans hzero
  · have hanswer : ∃ v, v ≠ 0 ∧ heapValidate h = some v := by
      rw [heapValidate,if_neg (by omega)]
      split_ifs with hnull
      · exact ⟨h.start,by omega,rfl⟩
      · exact ⟨h.freeList,hnull,rfl⟩
    obtain ⟨v,hv,hanswer⟩ := hanswer
    refine ⟨⟨v,hanswer,fun hf => absurd hf hfree⟩,?_⟩
    constructor
    · intro hzero
      exact absurd (Option.some.inj (hanswer.symm.trans hzero)) hv
    · exact fun hs => absurd hs.1 hfree

/-! The words it reads. -/

/-- The word at `a` is read before what follows. -/
def look (a : ℕ) (r : List ℕ × Option ℕ) : List ℕ × Option ℕ := (a::r.1,r.2)

/-- `validateFrom` with the addresses of the words read, in their order. -/
def validateLogged (h : HeapState) : ℕ → ℕ → ℕ → List ℕ × Option ℕ
  | 0, _, _ => ([],none)
  | fuel+1, prev, cur =>
    if cur = 0 then ([],some 0)
    else look cur (if h.ram.magic cur ≠ heapMagic then ([],some cur)
    else look (cur+16) (if h.ram.used cur ≠ 0 ∧ h.ram.used cur ≠ 1 then ([],some cur)
    else if cur < h.start then ([],some cur)
    else if h.brk < u64 (cur+48) then ([],some cur)
    else look (cur+8) (if sub64 (sub64 h.brk cur) 48 < h.ram.size cur then ([],some cur)
    else look (cur+32) (if h.ram.prev cur ≠ prev then ([],some cur)
    else look (cur+24) (
      if h.ram.next cur ≠ 0 then
        if h.ram.next cur ≠ u64 (cur+48+h.ram.size cur) then ([],some cur)
        else look (h.ram.next cur+32) (if h.ram.prev (h.ram.next cur) ≠ cur then ([],some cur)
        else validateLogged h fuel cur (h.ram.next cur))
      else if u64 (cur+48+h.ram.size cur) ≠ h.brk then ([],some cur)
      else validateLogged h fuel cur (h.ram.next cur))))))

def heapValidateLogged (h : HeapState) : List ℕ × Option ℕ :=
  if h.start = 0 ∨ h.brk = 0 then ([],some 0)
  else if h.freeList = 0 then ([],some h.start)
  else if h.freeList ≠ h.start then ([],some h.freeList)
  else validateLogged h (blockLimit h) 0 h.freeList

theorem look_fst (a : ℕ) (r : List ℕ × Option ℕ) : (look a r).1 = a::r.1 := rfl

theorem look_answer {r : List ℕ × Option ℕ} {v : Option ℕ} (hr : r.2 = v) (a : ℕ) : (look a r).2 = v := hr

theorem ite_answer {c : Prop} [Decidable c] {r s : List ℕ × Option ℕ} {v w : Option ℕ} (hr : r.2 = v)
    (hs : s.2 = w) : (if c then r else s).2 = if c then v else w := by
  rw [apply_ite Prod.snd,hr,hs]

theorem validateLogged_answer (h : HeapState) (n prev cur : ℕ) :
    (validateLogged h n prev cur).2 = validateFrom h n prev cur := by
  induction n generalizing prev cur with
  | zero => rfl
  | succ n ih =>
    have hrest := ih cur (h.ram.next cur)
    rw [validateLogged,validateFrom]
    -- the same checks on both sides, from the outermost in
    apply ite_answer rfl
    apply look_answer
    apply ite_answer rfl
    apply look_answer
    apply ite_answer rfl
    apply ite_answer rfl
    apply ite_answer rfl
    apply look_answer
    apply ite_answer rfl
    apply look_answer
    apply ite_answer rfl
    apply look_answer
    apply ite_answer
    · apply ite_answer rfl
      apply look_answer
      exact ite_answer rfl hrest
    · exact ite_answer rfl hrest

theorem heapValidateLogged_answer (h : HeapState) : (heapValidateLogged h).2 = heapValidate h := by
  rw [heapValidateLogged,heapValidate]
  apply ite_answer rfl
  apply ite_answer rfl
  apply ite_answer rfl
  exact validateLogged_answer h _ _ _

/-- The word at `a` is in the region. -/
def Inside (h : HeapState) (a : ℕ) : Prop := h.start ≤ a ∧ a+8 ≤ h.brk

/-- The walk comes to the block at `cur`, from the one at `prev`. -/
inductive Reached (h : HeapState) : ℕ → ℕ → Prop where
  | first : Reached h 0 h.start
  | next {prev cur : ℕ} (hcur : Reached h prev cur) (hp : Passes h prev cur) (hf : Follows h cur) :
      Reached h cur (h.ram.next cur)

/-- A block that passes its own checks claims a next block of which less than its links is left
in the region. -/
def Overruns (h : HeapState) : Prop :=
  ∃ prev cur, Reached h prev cur ∧ Passes h prev cur ∧ h.ram.next cur ≠ 0 ∧
    h.ram.next cur = cur+48+h.ram.size cur ∧ h.brk < h.ram.next cur+40

theorem Passes.guards (hp : Passes h prev cur) (hbrk : h.brk+48 < 18446744073709551616) :
    ¬(h.ram.used cur ≠ 0 ∧ h.ram.used cur ≠ 1) ∧ ¬h.brk < u64 (cur+48) ∧
      ¬sub64 (sub64 h.brk cur) 48 < h.ram.size cur ∧
      u64 (cur+48+h.ram.size cur) = cur+48+h.ram.size cur := by
  have hfits := hp.fits
  have hused := hp.used
  have hlow : sub64 h.brk cur = h.brk-cur := sub64_of_le (by omega) (by omega)
  rw [hlow,sub64_of_le (by omega) (by omega),u64_of_lt (by omega),u64_of_lt (by omega)]
  omega

theorem logged_passes (hp : Passes h prev cur) (hcur : cur ≠ 0)
    (hbrk : h.brk+48 < 18446744073709551616) (hset : h.ram.next cur ≠ 0)
    (hnext : h.ram.next cur = cur+48+h.ram.size cur) (n : ℕ) :
    (validateLogged h (n+1) prev cur).1 = [cur,cur+16,cur+8,cur+32,cur+24,h.ram.next cur+32]++
      if h.ram.prev (h.ram.next cur) = cur then (validateLogged h n cur (h.ram.next cur)).1 else [] := by
  obtain ⟨hused,hfit,hsize,hend⟩ := hp.guards hbrk
  have hlow := hp.low
  rw [validateLogged,if_neg hcur,if_neg (not_not.mpr hp.magic),if_neg hused,if_neg (by omega),if_neg hfit,
    if_neg hsize,if_neg (not_not.mpr hp.prev),if_pos hset,hend,if_neg (not_not.mpr hnext)]
  by_cases hback : h.ram.prev (h.ram.next cur) = cur
  · rw [if_neg (not_not.mpr hback),if_pos hback]
    rfl
  · rw [if_pos hback,if_neg hback]
    rfl

theorem logged_ends (h : HeapState) (n prev : ℕ) : (validateLogged h n prev 0).1 = [] := by
  cases n <;> rfl

/-- What a turn reads: words of the header, the later ones only if it lies in the region, and the
back link behind the block only if the block has passed its checks. -/
theorem logged_turn (hcur : cur ≠ 0) (hle : cur ≤ h.brk) (hbrk : h.brk+48 < 18446744073709551616)
    {a : ℕ} (ha : a ∈ (validateLogged h (n+1) prev cur).1) :
    (a = cur ∨ a = cur+16) ∨ (cur+48 ≤ h.brk ∧ (a = cur+8 ∨ a = cur+32 ∨ a = cur+24)) ∨
      (Passes h prev cur ∧ h.ram.next cur ≠ 0 ∧ h.ram.next cur = cur+48+h.ram.size cur ∧
        (a = h.ram.next cur+32 ∨
          (Follows h cur ∧ a ∈ (validateLogged h n cur (h.ram.next cur)).1))) := by
  by_cases hgoes : Passes h prev cur ∧ h.ram.next cur ≠ 0 ∧ h.ram.next cur = cur+48+h.ram.size cur
  · obtain ⟨hp,hset,hnext⟩ := hgoes
    have hfits := hp.fits
    rw [logged_passes hp hcur hbrk hset hnext,List.mem_append] at ha
    rcases ha with ha | ha
    · simp only [List.mem_cons,List.not_mem_nil,or_false] at ha
      rcases ha with ha | ha | ha | ha | ha | ha
      · exact Or.inl (Or.inl ha)
      · exact Or.inl (Or.inr ha)
      · exact Or.inr (Or.inl ⟨by omega,Or.inl ha⟩)
      · exact Or.inr (Or.inl ⟨by omega,Or.inr (Or.inl ha)⟩)
      · exact Or.inr (Or.inl ⟨by omega,Or.inr (Or.inr ha)⟩)
      · exact Or.inr (Or.inr ⟨hp,hset,hnext,Or.inl ha⟩)
    · split_ifs at ha with hback
      · exact Or.inr (Or.inr ⟨hp,hset,hnext,Or.inr ⟨⟨hset,hnext,hback⟩,ha⟩⟩)
      · exact absurd ha (by simp)
  · -- the walk does not go on from here
    have hhead : u64 (cur+48) = cur+48 := u64_of_lt (by omega)
    rw [validateLogged,if_neg hcur,hhead,look_fst,List.mem_cons] at ha
    rcases ha with ha | ha
    · exact Or.inl (Or.inl ha)
    by_cases hmagic : h.ram.magic cur ≠ heapMagic
    · rw [if_pos hmagic] at ha
      exact absurd ha List.not_mem_nil
    rw [if_neg hmagic,look_fst,List.mem_cons] at ha
    rcases ha with ha | ha
    · exact Or.inl (Or.inr ha)
    by_cases hused : h.ram.used cur ≠ 0 ∧ h.ram.used cur ≠ 1
    · rw [if_pos hused] at ha
      exact absurd ha List.not_mem_nil
    by_cases hlow : cur < h.start
    · rw [if_neg hused,if_pos hlow] at ha
      exact absurd ha List.not_mem_nil
    by_cases hfit : h.brk < cur+48
    · rw [if_neg hused,if_neg hlow,if_pos hfit] at ha
      exact absurd ha List.not_mem_nil
    rw [if_neg hused,if_neg hlow,if_neg hfit,look_fst,List.mem_cons] at ha
    refine Or.inr (Or.inl ⟨by omega,?_⟩)
    rcases ha with ha | ha
    · exact Or.inl ha
    have hlow' : sub64 h.brk cur = h.brk-cur := sub64_of_le hle (by omega)
    rw [hlow',sub64_of_le (by omega) (by omega)] at ha
    by_cases hsize : h.brk-cur-48 < h.ram.size cur
    · rw [if_pos hsize] at ha
      exact absurd ha List.not_mem_nil
    rw [if_neg hsize,look_fst,List.mem_cons] at ha
    rcases ha with ha | ha
    · exact Or.inr (Or.inl ha)
    by_cases hprev : h.ram.prev cur ≠ prev
    · rw [if_pos hprev] at ha
      exact absurd ha List.not_mem_nil
    rw [if_neg hprev,look_fst,List.mem_cons] at ha
    rcases ha with ha | ha
    · exact Or.inr (Or.inr ha)
    have hpasses : Passes h prev cur := ⟨not_not.mp hmagic,by omega,by omega,by omega,not_not.mp hprev⟩
    rw [u64_of_lt (show cur+48+h.ram.size cur < 18446744073709551616 by omega)] at ha
    by_cases hset : h.ram.next cur ≠ 0
    · by_cases hnext : h.ram.next cur ≠ cur+48+h.ram.size cur
      · rw [if_pos hset,if_pos hnext] at ha
        exact absurd ha List.not_mem_nil
      · exact absurd ⟨hpasses,hset,not_not.mp hnext⟩ hgoes
    · rw [if_neg hset,not_not.mp hset,apply_ite Prod.fst,logged_ends,ite_self] at ha
      exact absurd ha List.not_mem_nil

/-- A walk that stays clear of such a block reads words of the region only. -/
theorem logged_inside (hover : ¬Overruns h) (hbrk : h.brk+48 < 18446744073709551616)
    (hcur : Reached h prev cur) (hpos : cur ≠ 0) (hlow : h.start ≤ cur) (hroom : cur+40 ≤ h.brk) :
    ∀ a ∈ (validateLogged h n prev cur).1, Inside h a := by
  induction n generalizing prev cur with
  | zero => exact fun a ha => absurd ha List.not_mem_nil
  | succ n ih =>
    intro a ha
    rcases logged_turn hpos (by omega) hbrk ha with ha | ⟨hhead,ha⟩ | ⟨hp,hset,hnext,ha⟩
    · exact ⟨by omega,by omega⟩
    · exact ⟨by omega,by omega⟩
    · have hclear : h.ram.next cur+40 ≤ h.brk := by
        by_contra hlt
        exact hover ⟨prev,cur,hcur,hp,hset,hnext,by omega⟩
      rcases ha with ha | ⟨hf,ha⟩
      · exact ⟨by omega,by omega⟩
      · exact ih (hcur.next hp hf) hset (by omega) hclear a ha

/-- Whatever block the walk comes to, its turn is part of the log. -/
theorem Reached.logged (hcur : Reached h prev cur) (hstart : 0 < h.start)
    (hbrk : h.brk+48 < 18446744073709551616) {N : ℕ} (hN : (h.brk-h.start)/48+1 ≤ N) :
    cur ≠ 0 ∧ ∃ n, (h.brk-cur)/48+1 ≤ n ∧
      ∀ a ∈ (validateLogged h n prev cur).1, a ∈ (validateLogged h N 0 h.start).1 := by
  induction hcur with
  | first => exact ⟨by omega,N,hN,fun a ha => ha⟩
  | @next prev cur _ hp hf ih =>
    obtain ⟨hpos,n,hn,hsub⟩ := ih
    have hfits := hp.fits
    have hnext := hf.next
    obtain ⟨n,rfl⟩ : ∃ k, n = k+1 := ⟨n-1,by omega⟩
    refine ⟨hf.set,n,by omega,fun a ha => hsub a ?_⟩
    rw [logged_passes hp hpos hbrk hf.set hnext,if_pos hf.back]
    exact List.mem_append_right _ ha

/-- Every word that `heap_validate` reads is in the region exactly when the walk never comes to a
block that passes its checks and claims a next block too close to the end. -/
theorem heapValidate_reads (hstart : 0 < h.start) (hpage : h.start+4096 ≤ h.brk)
    (hbrk : h.brk+48 < 18446744073709551616) (hfree : h.freeList = h.start) :
    (∀ a ∈ (heapValidateLogged h).1, Inside h a) ↔ ¬Overruns h := by
  have hcall : heapValidateLogged h = validateLogged h (blockLimit h) 0 h.start := by
    rw [heapValidateLogged,if_neg (by omega),if_neg (by omega),if_neg (not_not.mpr hfree),hfree]
  rw [hcall]
  constructor
  · rintro hinside ⟨prev,cur,hcur,hp,hset,hnext,hover⟩
    obtain ⟨hpos,n,hn,hsub⟩ := hcur.logged hstart hbrk (N:=blockLimit h) (by
      rw [blockLimit]
      omega)
    obtain ⟨n,rfl⟩ : ∃ k, n = k+1 := ⟨n-1,by omega⟩
    have hread : h.ram.next cur+32 ∈ (validateLogged h (n+1) prev cur).1 := by
      rw [logged_passes hp hpos hbrk hset hnext]
      exact List.mem_append_left _ (by simp)
    have hin := hinside _ (hsub _ hread)
    have hhigh := hin.2
    omega
  · exact fun hover => logged_inside hover hbrk Reached.first (by omega) le_rfl (by omega)

/-! A heap of one page. -/

/-- A single free block over the page, but for its `next`. -/
def pageHeap (next : ℕ) : HeapState :=
  ⟨⟨fun a =>
      if a = heapStartAddr then heapMagic
      else if a = heapStartAddr+8 then 4048
      else if a = heapStartAddr+24 then next
      else 0,[]⟩,heapStartAddr,heapStartAddr+4096,heapStartAddr,4096,0⟩

theorem heapValidate_decides_page :
    heapValidate (pageHeap 0) = some 0 ∧ (pageHeap 0).freeList = (pageHeap 0).start := by
  have h := heapValidate_decides (h:=pageHeap 0) (by decide) (by decide) (by decide)
  have hanswer : heapValidate (pageHeap 0) = some 0 := by decide +kernel
  exact ⟨hanswer,(h.2.mp hanswer).1⟩

/-- The block fills the page and claims a next block where the region ends: its back link is read
behind the end. -/
theorem heapValidate_reads_outside :
    heapStartAddr+4096+32 ∈ (heapValidateLogged (pageHeap (heapStartAddr+4096))).1 ∧
      ¬Inside (pageHeap (heapStartAddr+4096)) (heapStartAddr+4096+32) := by
  constructor
  · decide +kernel
  · rintro ⟨-,hhigh⟩
    exact absurd hhigh (by decide)

theorem heapValidate_reads_page : (heapValidateLogged (pageHeap 0)).1 ≠ [] ∧
    ∀ a ∈ (heapValidateLogged (pageHeap 0)).1, Inside (pageHeap 0) a := by
  have hnext : (pageHeap 0).ram.next heapStartAddr = 0 := by decide
  have hfirst : ∀ prev cur, Reached (pageHeap 0) prev cur → cur = heapStartAddr := by
    intro prev cur hcur
    induction hcur with
    | first => rfl
    | next _ _ hf ih => exact absurd (by rw [ih]; exact hnext) hf.set
  refine ⟨by decide +kernel,?_⟩
  apply (heapValidate_reads (by decide) (by decide) (by decide) (by decide)).mpr
  rintro ⟨prev,cur,hcur,-,hset,-,-⟩
  rw [hfirst prev cur hcur] at hset
  exact hset hnext

end Heap
end DonsOs
