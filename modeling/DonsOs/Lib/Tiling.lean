import Mathlib.Data.List.Basic
import Mathlib.Data.List.Pairwise
import Mathlib.Tactic

/-! Tilings of an address range by headed blocks.
A block is a header of fixed length followed by its payload; a list of blocks laid
end to end covers a range without gaps.  Nothing here refers to a memory: the
addresses are computed from the sizes, and the allocator's edits (taking a free
block, splitting it, merging neighbours, growing at the end) are list operations. -/
namespace DonsOs
namespace Tiling

structure Block where
  size : ℕ
  used : Bool
  deriving DecidableEq, Repr

variable (hdr : ℕ)

/-- First address after the blocks laid out from `a`. -/
def endOf : ℕ → List Block → ℕ
  | a, [] => a
  | a, b::bs => endOf (a+hdr+b.size) bs

/-- Header address of the last block, or `prev` when there is none. -/
def lastOf : ℕ → ℕ → List Block → ℕ
  | prev, _, [] => prev
  | _, a, b::bs => lastOf a (a+hdr+b.size) bs

/-- Header addresses, in order. -/
def headers : ℕ → List Block → List ℕ
  | _, [] => []
  | a, b::bs => a :: headers (a+hdr+b.size) bs

/-- Payload address and size of every used block, in order. -/
def payloads : ℕ → List Block → List (ℕ × ℕ)
  | _, [] => []
  | a, b::bs =>
    if b.used then (a+hdr,b.size) :: payloads (a+hdr+b.size) bs
    else payloads (a+hdr+b.size) bs

/-- Merge every run of adjacent free blocks into its first block. -/
def coalesce : List Block → List Block
  | a::b::bs =>
    if !a.used && !b.used then coalesce (⟨a.size+hdr+b.size,false⟩::bs)
    else a :: coalesce (b::bs)
  | bs => bs
termination_by bs => bs.length

/-- A block that can serve a request of `n` bytes. -/
def fits (n : ℕ) (b : Block) : Bool := !b.used && decide (n ≤ b.size)

/-- Header address of the first block that fits, `0` when none does. -/
def firstFit (n : ℕ) : ℕ → List Block → ℕ
  | _, [] => 0
  | a, b::bs => if fits n b then a else firstFit n (a+hdr+b.size) bs

/-- Serve `n` bytes from a block: the rest becomes a free block when it is worth a
header and more than `slack` bytes of payload. -/
def carve (slack n : ℕ) (b : Block) : List Block :=
  if b.size ≤ n+hdr+slack then [⟨b.size,true⟩]
  else [⟨n,true⟩,⟨b.size-n-hdr,false⟩]

/-- Serve `n` bytes from the first block that fits. -/
def serve (slack n : ℕ) : List Block → List Block
  | [] => []
  | b::bs => if fits n b then carve hdr slack n b++bs else b::serve slack n bs

/-- No two neighbours are free. -/
def Merged (bs : List Block) : Prop := bs.IsChain fun a b => a.used = true ∨ b.used = true

/-- Two ranges `(address, size)` share no address. -/
def Apart (p q : ℕ × ℕ) : Prop := p.1+p.2 ≤ q.1 ∨ q.1+q.2 ≤ p.1

/-- Address `w` lies in the range `p`. -/
def Within (w : ℕ) (p : ℕ × ℕ) : Prop := p.1 ≤ w ∧ w < p.1+p.2

@[simp] theorem endOf_nil (a : ℕ) : endOf hdr a [] = a := rfl
@[simp] theorem endOf_cons (a : ℕ) (b : Block) (bs : List Block) :
    endOf hdr a (b::bs) = endOf hdr (a+hdr+b.size) bs := rfl
@[simp] theorem lastOf_nil (prev a : ℕ) : lastOf hdr prev a [] = prev := rfl
@[simp] theorem lastOf_cons (prev a : ℕ) (b : Block) (bs : List Block) :
    lastOf hdr prev a (b::bs) = lastOf hdr a (a+hdr+b.size) bs := rfl

theorem endOf_append (a : ℕ) (xs ys : List Block) :
    endOf hdr a (xs++ys) = endOf hdr (endOf hdr a xs) ys := by
  induction xs generalizing a with
  | nil => rfl
  | cons x xs ih => simp [ih]

theorem lastOf_append (prev a : ℕ) (xs ys : List Block) :
    lastOf hdr prev a (xs++ys) = lastOf hdr (lastOf hdr prev a xs) (endOf hdr a xs) ys := by
  induction xs generalizing prev a with
  | nil => rfl
  | cons x xs ih => simp [ih]

theorem payloads_append (a : ℕ) (xs ys : List Block) :
    payloads hdr a (xs++ys) = payloads hdr a xs ++ payloads hdr (endOf hdr a xs) ys := by
  induction xs generalizing a with
  | nil => rfl
  | cons x xs ih => by_cases h : x.used <;> simp [payloads,h,ih]

theorem headers_append (a : ℕ) (xs ys : List Block) :
    headers hdr a (xs++ys) = headers hdr a xs ++ headers hdr (endOf hdr a xs) ys := by
  induction xs generalizing a with
  | nil => rfl
  | cons x xs ih => simp [headers,ih]

theorem le_endOf (a : ℕ) (bs : List Block) : a + hdr*bs.length ≤ endOf hdr a bs := by
  induction bs generalizing a with
  | nil => simp
  | cons b bs ih =>
    have h := ih (a+hdr+b.size)
    simp only [endOf_cons,List.length_cons,Nat.mul_succ]
    omega

variable {bs : List Block} {a w n : ℕ} {p : ℕ × ℕ} {b : Block}

theorem headers_bounds (hw : w ∈ headers hdr a bs) : a ≤ w ∧ w+hdr ≤ endOf hdr a bs := by
  induction bs generalizing a with
  | nil => simp [headers] at hw
  | cons b bs ih =>
    have hend := le_endOf hdr (a+hdr+b.size) bs
    rcases List.mem_cons.mp hw with rfl | hw
    · simp only [endOf_cons]; omega
    · have h := ih hw
      simp only [endOf_cons]; omega

/-- Two headers are the same or do not overlap. -/
theorem headers_eq_or_apart {v : ℕ} (hv : v ∈ headers hdr a bs)
    (hw : w ∈ headers hdr a bs) : v = w ∨ v+hdr ≤ w ∨ w+hdr ≤ v := by
  induction bs generalizing a with
  | nil => simp [headers] at hv
  | cons b bs ih =>
    simp only [headers,List.mem_cons] at hv hw
    rcases hv with rfl | hv <;> rcases hw with rfl | hw
    · exact Or.inl rfl
    · have := headers_bounds hdr hw
      omega
    · have := headers_bounds hdr hv
      omega
    · exact ih hv hw

theorem payloads_bounds (hp : p ∈ payloads hdr a bs) : a+hdr ≤ p.1 ∧ p.1+p.2 ≤ endOf hdr a bs := by
  induction bs generalizing a with
  | nil => simp [payloads] at hp
  | cons b bs ih =>
    have hend := le_endOf hdr (a+hdr+b.size) bs
    simp only [payloads] at hp
    split at hp
    · rcases List.mem_cons.mp hp with rfl | hp
      · simp only [endOf_cons]; omega
      · have h := ih hp
        simp only [endOf_cons]; omega
    · have h := ih hp
      simp only [endOf_cons]; omega

/-- The used bytes fit into the range. -/
theorem sum_payloads_le (a : ℕ) (bs : List Block) :
    a + ((payloads hdr a bs).map Prod.snd).sum ≤ endOf hdr a bs := by
  induction bs generalizing a with
  | nil => simp [payloads]
  | cons b bs ih =>
    have h := ih (a+hdr+b.size)
    simp only [payloads,endOf_cons]
    split
    · simp only [List.map_cons,List.sum_cons]; omega
    · omega

theorem payloads_apart (a : ℕ) (bs : List Block) : (payloads hdr a bs).Pairwise Apart := by
  induction bs generalizing a with
  | nil => simp [payloads]
  | cons b bs ih =>
    simp only [payloads]
    split
    · refine List.pairwise_cons.mpr ⟨?_,ih _⟩
      intro q hq
      have h := payloads_bounds hdr hq
      left; simp only; omega
    · exact ih _

theorem payloads_increasing (hpos : 0 < hdr) (a : ℕ) (bs : List Block) :
    ((payloads hdr a bs).map Prod.fst).Pairwise (· < ·) := by
  induction bs generalizing a with
  | nil => simp [payloads]
  | cons b bs ih =>
    simp only [payloads]
    split
    · refine List.pairwise_cons.mpr ⟨?_,ih _⟩
      intro x hx
      obtain ⟨q,hq,rfl⟩ := List.mem_map.mp hx
      have h := payloads_bounds hdr hq
      omega
    · exact ih _

/-- No header byte belongs to a used payload. -/
theorem headers_apart
    (hw : w ∈ headers hdr a bs) (hp : p ∈ payloads hdr a bs) : Apart (w,hdr) p := by
  induction bs generalizing a with
  | nil => simp [payloads] at hp
  | cons b bs ih =>
    simp only [payloads] at hp
    rcases List.mem_cons.mp hw with rfl | hw
    · left
      split at hp
      · rcases List.mem_cons.mp hp with rfl | hp
        · simp
        · have h := payloads_bounds hdr hp
          simp only; omega
      · have h := payloads_bounds hdr hp
        simp only; omega
    · have hb := headers_bounds hdr hw
      split at hp
      · rcases List.mem_cons.mp hp with rfl | hp
        · right; simp only; omega
        · exact ih hw hp
      · exact ih hw hp

/-- A free block's own bytes belong to no used payload. -/
theorem free_block_apart (a : ℕ) (xs ys : List Block) (b : Block) (hb : b.used = false) (hp : p ∈ payloads hdr a (xs++b::ys)) :
    Apart (endOf hdr a xs,hdr+b.size) p := by
  rw [payloads_append] at hp
  rcases List.mem_append.mp hp with hp | hp
  · have h := payloads_bounds hdr hp
    right; simp only; omega
  · simp only [payloads,hb,Bool.false_eq_true,if_false] at hp
    have h := payloads_bounds hdr hp
    left; simp only; omega

/-! Merging. -/

@[simp] theorem coalesce_nil : coalesce hdr [] = [] := by simp [coalesce]

theorem coalesce_ne_nil (h : bs ≠ []) : coalesce hdr bs ≠ [] := by
  fun_induction coalesce hdr bs with
  | case1 a b bs hab ih => exact ih (by simp)
  | case2 a b bs hab ih => simp
  | case3 bs hbs => exact h

@[simp] theorem endOf_coalesce (a : ℕ) (bs : List Block) :
    endOf hdr a (coalesce hdr bs) = endOf hdr a bs := by
  fun_induction coalesce hdr bs generalizing a with
  | case1 x y bs hxy ih =>
    rw [ih]
    simp only [endOf_cons]
    congr 1; omega
  | case2 x y bs hxy ih => simp [ih]
  | case3 bs hbs => rfl

/-- Merging free blocks neither moves nor resizes a used one. -/
@[simp] theorem payloads_coalesce (a : ℕ) (bs : List Block) :
    payloads hdr a (coalesce hdr bs) = payloads hdr a bs := by
  fun_induction coalesce hdr bs generalizing a with
  | case1 x y bs hxy ih =>
    simp only [Bool.and_eq_true,Bool.not_eq_true'] at hxy
    rw [ih]
    simp only [payloads,hxy.1,hxy.2,Bool.false_eq_true,if_false]
    congr 1; omega
  | case2 x y bs hxy ih => simp only [payloads] at ih ⊢; simp [ih]
  | case3 bs hbs => rfl

/-- Sizes stay multiples of `g` when headers are. -/
theorem coalesce_dvd {g : ℕ} (hg : g ∣ hdr) (h : ∀ b ∈ bs, g ∣ b.size) :
    ∀ b ∈ coalesce hdr bs, g ∣ b.size := by
  fun_induction coalesce hdr bs with
  | case1 x y bs hxy ih =>
    apply ih
    intro b hb
    rcases List.mem_cons.mp hb with rfl | hb
    · exact Nat.dvd_add (Nat.dvd_add (h x (by simp)) hg) (h y (by simp))
    · exact h b (by simp [hb])
  | case2 x y bs hxy ih =>
    intro b hb
    rcases List.mem_cons.mp hb with rfl | hb
    · exact h b (by simp)
    · exact ih (fun b hb => h b (by simp [hb])) b hb
  | case3 bs hbs => exact h

theorem dvd_endOf {g : ℕ} (hg : g ∣ hdr) (ha : g ∣ a)
    (h : ∀ b ∈ bs, g ∣ b.size) : g ∣ endOf hdr a bs := by
  induction bs generalizing a with
  | nil => exact ha
  | cons b bs ih =>
    exact ih (Nat.dvd_add (Nat.dvd_add ha hg) (h b (by simp))) (fun c hc => h c (by simp [hc]))

/-- After growing by a free block, merging leaves a free block at least as large. -/
theorem coalesce_grown (bs : List Block) (m : ℕ) :
    ∃ b ∈ coalesce hdr (bs++[⟨m,false⟩]), b.used = false ∧ m ≤ b.size := by
  generalize hc : bs++[⟨m,false⟩] = cs
  fun_induction coalesce hdr cs generalizing bs m with
  | case1 x y cs hxy ih =>
    simp only [Bool.and_eq_true,Bool.not_eq_true'] at hxy
    match bs, hc with
    | [x'], hc =>
      simp only [List.cons_append,List.nil_append,List.cons.injEq] at hc
      obtain ⟨rfl,rfl,rfl⟩ := hc
      obtain ⟨b,hb,hu,hm⟩ := ih [] _ rfl
      exact ⟨b,hb,hu,by simp only at hm; omega⟩
    | x'::y'::bs, hc =>
      simp only [List.cons_append,List.cons.injEq] at hc
      obtain ⟨rfl,rfl,rfl⟩ := hc
      exact ih (⟨x'.size+hdr+y'.size,false⟩::bs) m rfl
  | case2 x y cs hxy ih =>
    match bs, hc with
    | x'::bs, hc =>
      simp only [List.cons_append,List.cons.injEq] at hc
      obtain ⟨b,hb,h⟩ := ih bs m hc.2
      exact ⟨b,List.mem_cons_of_mem _ hb,h⟩
  | case3 cs hcs =>
    subst hc
    exact ⟨⟨m,false⟩,by simp,rfl,le_rfl⟩

/-- A merged list begins with a block that is in use as the first one was. -/
theorem coalesce_head (b : Block) (bs : List Block) :
    ∃ c cs, coalesce hdr (b::bs) = c::cs ∧ c.used = b.used := by
  generalize hl : b::bs = l
  fun_induction coalesce hdr l generalizing b bs with
  | case1 x y l hxy ih =>
    obtain ⟨rfl,rfl⟩ := List.cons.inj hl
    obtain ⟨c,cs,hc,hu⟩ := ih ⟨b.size+hdr+y.size,false⟩ l rfl
    simp only [Bool.and_eq_true,Bool.not_eq_true'] at hxy
    exact ⟨c,cs,hc,hu.trans hxy.1.symm⟩
  | case2 x y l hxy ih => exact ⟨x,_,rfl,by rw [(List.cons.inj hl).1]⟩
  | case3 l hl' => exact ⟨b,bs,hl.symm,rfl⟩

theorem merged_coalesce (bs : List Block) : Merged (coalesce hdr bs) := by
  fun_induction coalesce hdr bs with
  | case1 x y bs hxy ih => exact ih
  | case2 x y bs hxy ih =>
    obtain ⟨c,cs,hc,hu⟩ := coalesce_head hdr y bs
    rw [hc] at ih ⊢
    refine List.isChain_cons_cons.mpr ⟨?_,ih⟩
    rw [hu]
    cases hx : x.used <;> cases hy : y.used <;> simp [hx,hy] at hxy ⊢
  | case3 bs hbs =>
    rcases bs with _ | ⟨b,_ | ⟨c,bs⟩⟩
    · exact .nil
    · exact .singleton b
    · exact absurd rfl (hbs b c bs)

/-- A list without used blocks, merged, is one block at most. -/
theorem Merged.single (h : Merged bs) (hp : payloads hdr a bs = []) :
    bs = [] ∨ ∃ n, bs = [⟨n,false⟩] := by
  have hfree : ∀ (a : ℕ) (b : Block) bs, payloads hdr a (b::bs) = [] →
      b.used = false ∧ payloads hdr (a+hdr+b.size) bs = [] := by
    intro a b bs hp
    cases hb : b.used with
    | true => simp [payloads,hb] at hp
    | false => simpa [payloads,hb] using hp
  rcases bs with _ | ⟨b,_ | ⟨c,bs⟩⟩
  · exact Or.inl rfl
  · obtain ⟨hb,-⟩ := hfree a b [] hp
    exact Or.inr ⟨b.size,by rw [← hb]⟩
  · obtain ⟨hb,hp⟩ := hfree a b (c::bs) hp
    obtain ⟨hc,-⟩ := hfree _ c bs hp
    have hbc := (List.isChain_cons_cons.mp h).1
    simp [hb,hc] at hbc

/-! Searching and carving. -/

theorem firstFit_eq_zero (ha : 0 < a) : firstFit hdr n a bs = 0 ↔ ∀ b ∈ bs, fits n b = false := by
  induction bs generalizing a with
  | nil => simp [firstFit]
  | cons b bs ih =>
    by_cases h : fits n b = true
    · simp [firstFit,h]; omega
    · simp [firstFit,h,ih (a:=a+hdr+b.size) (by omega)]

/-- A successful search splits the list at the block found. -/
theorem firstFit_split (h : firstFit hdr n a bs ≠ 0) :
    ∃ xs b ys, bs = xs++b::ys ∧ fits n b = true ∧ firstFit hdr n a bs = endOf hdr a xs ∧
      ∀ c ∈ xs, fits n c = false := by
  induction bs generalizing a with
  | nil => simp [firstFit] at h
  | cons b bs ih =>
    by_cases hb : fits n b = true
    · exact ⟨[],b,bs,rfl,hb,by simp [firstFit,hb],by simp⟩
    · simp only [firstFit,hb] at h ⊢
      obtain ⟨xs,c,ys,rfl,hc,he,hxs⟩ := ih h
      refine ⟨b::xs,c,ys,rfl,hc,?_,?_⟩
      · simpa using he
      · intro d hd
        rcases List.mem_cons.mp hd with rfl | hd
        · simpa using hb
        · exact hxs d hd

theorem carve_endOf (slack n a : ℕ) (b : Block) :
    endOf hdr a (carve hdr slack n b) = a+hdr+b.size := by
  unfold carve
  split
  · rfl
  · simp only [endOf_cons,endOf_nil]; omega

theorem carve_dvd {g slack : ℕ} (hg : g ∣ hdr) (hb : g ∣ b.size) (hn : g ∣ n) :
    ∀ c ∈ carve hdr slack n b, g ∣ c.size := by
  unfold carve
  split
  · simpa using hb
  · intro c hc
    simp only [List.mem_cons,List.not_mem_nil,or_false] at hc
    rcases hc with rfl | rfl
    · exact hn
    · exact Nat.dvd_sub (Nat.dvd_sub hb hn) hg

/-- Size of the block handed out by `carve`. -/
def carved (slack n : ℕ) (b : Block) : ℕ := if b.size ≤ n+hdr+slack then b.size else n

theorem le_carved (slack : ℕ) (hn : n ≤ b.size) : n ≤ carved hdr slack n b := by
  unfold carved; split <;> omega

theorem payloads_carve (slack n a : ℕ) (b : Block) :
    payloads hdr a (carve hdr slack n b) = [(a+hdr,carved hdr slack n b)] := by
  unfold carve carved
  split <;> simp [payloads]

theorem payloads_take (slack n a : ℕ) (xs ys : List Block) (hb : b.used = false) :
    payloads hdr a (xs++carve hdr slack n b++ys) =
        payloads hdr a xs ++ (endOf hdr a xs+hdr,carved hdr slack n b) ::
          payloads hdr (endOf hdr a xs+hdr+b.size) ys ∧
      payloads hdr a (xs++b::ys) =
        payloads hdr a xs ++ payloads hdr (endOf hdr a xs+hdr+b.size) ys := by
  constructor
  · rw [List.append_assoc,payloads_append,payloads_append,payloads_carve,carve_endOf]
    rfl
  · rw [payloads_append]; simp [payloads,hb]

theorem serve_append (slack n : ℕ) {xs ys : List Block} (hxs : ∀ c ∈ xs, fits n c = false)
    (hb : fits n b = true) : serve hdr slack n (xs++b::ys) = xs++carve hdr slack n b++ys := by
  induction xs with
  | nil => simp [serve,hb]
  | cons x xs ih =>
    simp only [List.mem_cons,forall_eq_or_imp] at hxs
    simp [serve,hxs.1,ih hxs.2]

/-- Serving a request adds exactly one payload, at the first block that fits. -/
theorem payloads_serve (slack : ℕ) (hf : firstFit hdr n a bs ≠ 0) :
    ∃ ps qs s, n ≤ s ∧ payloads hdr a bs = ps++qs ∧
      payloads hdr a (serve hdr slack n bs) = ps++(firstFit hdr n a bs+hdr,s)::qs := by
  obtain ⟨xs,b,ys,rfl,hb,he,hxs⟩ := firstFit_split hdr hf
  rw [serve_append hdr slack n hxs hb,he]
  simp only [fits,Bool.and_eq_true,Bool.not_eq_true',decide_eq_true_eq] at hb
  obtain ⟨hnew,hold⟩ := payloads_take hdr slack n a xs ys hb.1
  exact ⟨_,_,_,le_carved hdr slack hb.2,hold,hnew⟩

/-- What is left of a block that was carved has a used block in front of it, and one behind it,
as the block had. -/
theorem Merged.carve {slack : ℕ} {xs ys : List Block} (h : Merged (xs++b::ys))
    (hb : b.used = false) : Merged (xs++carve hdr slack n b++ys) := by
  obtain ⟨hx,hy,-⟩ := List.isChain_append.mp h
  obtain ⟨hnext,hys⟩ := List.isChain_cons.mp hy
  rw [hb] at hnext
  have hused : ∀ c ∈ ys.head?, c.used = true := fun c hc => by simpa using hnext c hc
  rw [List.append_assoc]
  refine List.isChain_append.mpr ⟨hx,?_,fun x _ y hy => Or.inr ?_⟩ <;> unfold Tiling.carve at *
  · split_ifs
    · exact List.isChain_cons.mpr ⟨fun c _ => Or.inl rfl,hys⟩
    · exact List.isChain_cons_cons.mpr ⟨Or.inl rfl,
        List.isChain_cons.mpr ⟨fun c hc => Or.inr (hused c hc),hys⟩⟩
  · split_ifs at hy <;> simp at hy <;> simp [← hy]

theorem Merged.serve {slack : ℕ} (h : Merged bs)
    (hf : firstFit hdr n a bs ≠ 0) : Merged (serve hdr slack n bs) := by
  obtain ⟨xs,b,ys,rfl,hb,-,hxs⟩ := firstFit_split hdr hf
  rw [serve_append hdr slack n hxs hb]
  simp only [fits,Bool.and_eq_true,Bool.not_eq_true'] at hb
  exact h.carve hdr hb.1

theorem headers_split (hw : w ∈ headers hdr a bs) :
    ∃ xs b ys, bs = xs++b::ys ∧ w = endOf hdr a xs := by
  induction bs generalizing a with
  | nil => simp [headers] at hw
  | cons b bs ih =>
    rcases List.mem_cons.mp hw with rfl | hw
    · exact ⟨[],b,bs,rfl,rfl⟩
    · obtain ⟨xs,c,ys,rfl,he⟩ := ih hw
      exact ⟨b::xs,c,ys,rfl,by simpa using he⟩

theorem payloads_split (hp : p ∈ payloads hdr a bs) :
    ∃ xs b ys, bs = xs++b::ys ∧ b.used = true ∧ p = (endOf hdr a xs+hdr,b.size) := by
  induction bs generalizing a with
  | nil => simp [payloads] at hp
  | cons b bs ih =>
    simp only [payloads] at hp
    by_cases hb : b.used = true
    · simp only [hb,if_true] at hp
      rcases List.mem_cons.mp hp with rfl | hp
      · exact ⟨[],b,bs,rfl,hb,rfl⟩
      · obtain ⟨xs,c,ys,rfl,hc,he⟩ := ih hp
        exact ⟨b::xs,c,ys,rfl,hc,by simpa using he⟩
    · simp only [hb] at hp
      obtain ⟨xs,c,ys,rfl,hc,he⟩ := ih hp
      exact ⟨b::xs,c,ys,rfl,hc,by simpa using he⟩

end Tiling
end DonsOs
