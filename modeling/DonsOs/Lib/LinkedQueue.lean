import Mathlib.Data.List.Nodup
import Mathlib.Tactic

/-! Queues linked through their nodes.
The nodes carry `next` and `prev` fields and two pointers mark the ends; `none` is the
null pointer.  `ofList xs` is the unique state in which the queue holds `xs` and all
other nodes are unlinked, and the pointer operations act on it as list operations. -/
namespace DonsOs
namespace LinkedQueue

@[ext] structure Links (α : Type) where
  next : α → Option α
  prev : α → Option α
  head : Option α
  tail : Option α

variable {α : Type} [DecidableEq α]

/-- Append a node at the tail. -/
def Links.add (q : Links α) (p : α) : Links α :=
  let q := { q with next := Function.update q.next p none, prev := Function.update q.prev p q.tail }
  let q := match q.tail with
    | some t => { q with next := Function.update q.next t (some p) }
    | none => { q with head := some p }
  { q with tail := some p }

/-- Unlink a node; one without links that is not the head is left alone. -/
def Links.remove (q : Links α) (p : α) : Links α :=
  if q.prev p = none ∧ q.next p = none ∧ q.head ≠ some p then q else
  let q := match q.prev p with
    | some a => { q with next := Function.update q.next a (q.next p) }
    | none => { q with head := q.next p }
  let q := match q.next p with
    | some b => { q with prev := Function.update q.prev b (q.prev p) }
    | none => { q with tail := q.prev p }
  { q with next := Function.update q.next p none, prev := Function.update q.prev p none }

/-- Unlink and return the head. -/
def Links.pop (q : Links α) : Option α × Links α :=
  match q.head with
  | none => (none,q)
  | some p =>
    let q := { q with head := q.next p }
    let q := match q.head with
      | some b => { q with prev := Function.update q.prev b none }
      | none => { q with tail := none }
    (some p,{ q with next := Function.update q.next p none, prev := Function.update q.prev p none })

/-- The nodes met from `o` in `n` steps along `next`. -/
def walkFrom (next : α → Option α) : ℕ → Option α → List α
  | 0, _ => []
  | _, none => []
  | n+1, some p => p::walkFrom next n (next p)

def Links.walk (q : Links α) (n : ℕ) : List α := walkFrom q.next n q.head

/-- Drop both end pointers. -/
def Links.reset (q : Links α) : Links α := { q with head := none, tail := none }

/-- Overwrite a node with null links, whatever the queue says. -/
def Links.wipe (q : Links α) (p : α) : Links α :=
  { q with next := Function.update q.next p none, prev := Function.update q.prev p none }

def nextIn : List α → α → Option α
  | [], _ => none
  | x::xs, p => if x = p then xs.head? else nextIn xs p

/-- The predecessor of `p`, where `o` stands in front of the list. -/
def prevIn : Option α → List α → α → Option α
  | _, [], _ => none
  | o, x::xs, p => if x = p then o else prevIn (some x) xs p

def ofList (xs : List α) : Links α := ⟨nextIn xs,prevIn none xs,xs.head?,xs.getLast?⟩

theorem nextIn_of_not_mem {xs : List α} {p : α} (h : p ∉ xs) : nextIn xs p = none := by
  induction xs with
  | nil => rfl
  | cons x xs ih =>
    simp only [List.mem_cons,not_or] at h
    simp [nextIn,Ne.symm h.1,ih h.2]

theorem prevIn_of_not_mem {xs : List α} {p : α} (o : Option α) (h : p ∉ xs) :
    prevIn o xs p = none := by
  induction xs generalizing o with
  | nil => rfl
  | cons x xs ih =>
    simp only [List.mem_cons,not_or] at h
    simp [prevIn,Ne.symm h.1,ih _ h.2]

theorem nextIn_append (xs ys : List α) (p : α) :
    nextIn (xs++ys) p = if p ∈ xs then (nextIn xs p).or ys.head? else nextIn ys p := by
  induction xs with
  | nil => simp
  | cons x xs ih =>
    by_cases hx : x = p
    · simp [nextIn,hx,List.head?_append]
    · simp [nextIn,hx,ih,Ne.symm hx]

theorem prevIn_append (o : Option α) (xs ys : List α) (p : α) :
    prevIn o (xs++ys) p =
      if p ∈ xs then prevIn o xs p else prevIn (xs.getLast?.or o) ys p := by
  induction xs generalizing o with
  | nil => simp
  | cons x xs ih =>
    by_cases hx : x = p
    · simp [prevIn,hx]
    · simp only [List.cons_append,prevIn,hx,if_false,ih,List.mem_cons,Ne.symm hx,false_or]
      cases xs with
      | nil => simp
      | cons y ys => simp [List.getLast?_cons]

theorem add_ofList {xs : List α} {p : α} (hx : xs.Nodup) (hp : p ∉ xs) :
    (ofList xs).add p = ofList (xs++[p]) := by
  rcases List.eq_nil_or_concat xs with rfl | ⟨ys,t,rfl⟩
  · refine Links.ext (funext fun a => ?_) (funext fun a => ?_) ?_ ?_ <;>
      simp [Links.add,ofList,nextIn,prevIn]
  · simp only [List.concat_eq_append] at hx hp ⊢
    have hyt : t ∉ ys := fun h => (List.nodup_append.mp hx).2.2 t h t (by simp) rfl
    simp only [List.mem_append,List.mem_singleton,not_or] at hp
    have hlast : (ofList (ys++[t])).tail = some t := by simp [ofList]
    simp only [Links.add,hlast]
    refine Links.ext (funext fun a => ?_) (funext fun a => ?_) ?_ ?_
    · simp only [ofList,Function.update_apply,nextIn_append,List.mem_append,List.mem_singleton]
      by_cases hat : a = t
      · subst hat
        simp [hyt,nextIn]
      · by_cases hay : a ∈ ys
        · have hap : a ≠ p := fun h => hp.1 (h ▸ hay)
          simp [hat,hay,hap]
        · simp [hat,hay,nextIn,Ne.symm hat]
    · simp only [ofList,Function.update_apply,prevIn_append,List.mem_append,List.mem_singleton]
      by_cases hap : a = p
      · subst hap
        simp [hp.1,hp.2,prevIn]
      · by_cases hay : a ∈ ys
        · simp [hap,hay]
        · by_cases hat : a = t
          · simp [hat,hyt,prevIn,Ne.symm hp.2]
          · simp [hap,hay,hat,prevIn,Ne.symm hap,Ne.symm hat]
    · cases ys <;> simp [ofList]
    · simp [ofList]

theorem pop_nil : (ofList ([] : List α)).pop = (none,ofList []) := rfl

theorem pop_cons {x : α} {xs : List α} (hx : (x::xs).Nodup) :
    (ofList (x::xs)).pop = (some x,ofList xs) := by
  have hnot : x ∉ xs := (List.nodup_cons.mp hx).1
  cases xs with
  | nil =>
    simp only [Links.pop,ofList,List.head?_cons,nextIn,if_true,List.head?_nil]
    refine Prod.ext rfl (Links.ext (funext fun a => ?_) (funext fun a => ?_) rfl rfl)
    · by_cases ha : a = x <;> simp [ha]
    · by_cases ha : a = x
      · simp [prevIn]
      · simp [ha,prevIn]
  | cons b ys =>
    have hxb : x ≠ b := fun h => hnot (by simp [h])
    simp only [Links.pop,ofList,List.head?_cons,nextIn,if_true]
    refine Prod.ext rfl (Links.ext (funext fun a => ?_) (funext fun a => ?_) rfl ?_)
    · by_cases ha : a = x
      · subst ha
        simpa [nextIn] using (nextIn_of_not_mem hnot).symm
      · simp [ha,Ne.symm ha]
    · by_cases ha : a = x
      · subst ha
        simp [prevIn_of_not_mem none hnot]
      · by_cases hab : a = b
        · subst hab
          simp [ha,prevIn]
        · simp [ha,hab,Ne.symm ha,Ne.symm hab,prevIn]
    · simp [List.getLast?_cons]

theorem remove_not_mem {xs : List α} {p : α} (hp : p ∉ xs) :
    (ofList xs).remove p = ofList xs := by
  have hh : xs.head? ≠ some p := fun h => hp (List.mem_of_mem_head? h)
  simp [Links.remove,ofList,nextIn_of_not_mem hp,prevIn_of_not_mem none hp,hh]

variable {ys zs : List α}

theorem nextIn_unlink {p : α} (hx : (ys++p::zs).Nodup) : nextIn (ys++zs) = Function.update
      (match ys.getLast? with
        | some a => Function.update (nextIn (ys++p::zs)) a zs.head?
        | none => nextIn (ys++p::zs)) p none := by
  have hmid := List.nodup_middle.mp hx
  have hp : p ∉ ys++zs := hmid.notMem
  funext c
  by_cases hcp : c = p
  · subst hcp
    simp [nextIn_of_not_mem hp]
  · rw [Function.update_of_ne hcp]
    rcases List.eq_nil_or_concat ys with rfl | ⟨ws,a,rfl⟩
    · simp [nextIn,Ne.symm hcp]
    · simp only [List.concat_eq_append,List.getLast?_append,List.getLast?_singleton,
        Option.some_or] at hmid ⊢
      have ha : a ∉ ws := fun h =>
        (List.nodup_append.mp (List.nodup_append.mp hmid.of_cons).1).2.2 a h a (by simp) rfl
      by_cases hca : c = a
      · subst hca
        simp [nextIn_append,ha,nextIn]
      · rw [Function.update_of_ne hca]
        by_cases hcw : c ∈ ws
        · simp [nextIn_append,hcw]
        · simp [nextIn_append,hcw,nextIn,Ne.symm hcp,Ne.symm hca]

theorem prevIn_unlink {p : α} (hx : (ys++p::zs).Nodup) : prevIn none (ys++zs) = Function.update
      (match zs.head? with
        | some b => Function.update (prevIn none (ys++p::zs)) b ys.getLast?
        | none => prevIn none (ys++p::zs)) p none := by
  have hmid := List.nodup_middle.mp hx
  have hp : p ∉ ys++zs := hmid.notMem
  funext c
  by_cases hcp : c = p
  · subst hcp
    simp [prevIn_of_not_mem none hp]
  · rw [Function.update_of_ne hcp]
    cases zs with
    | nil =>
      by_cases hcy : c ∈ ys
      · simp [prevIn_append,hcy]
      · simp [prevIn_append,hcy,prevIn,Ne.symm hcp,prevIn_of_not_mem none hcy]
    | cons b ws =>
      have hb : b ∉ ys := fun h => (List.nodup_append.mp hmid.of_cons).2.2 b h b (by simp) rfl
      simp only [List.head?_cons]
      by_cases hcb : c = b
      · subst hcb
        simp [prevIn_append,hb,prevIn]
      · rw [Function.update_of_ne hcb]
        simp [prevIn_append,prevIn,Ne.symm hcp,Ne.symm hcb]

theorem ofList_linked {p : α} (hx : (ys++p::zs).Nodup) :
    (ofList (ys++p::zs)).prev p = ys.getLast? ∧ (ofList (ys++p::zs)).next p = zs.head? := by
  have hy : p ∉ ys := fun h => (List.nodup_middle.mp hx).notMem (by simp [h])
  exact ⟨by simp [ofList,prevIn_append,hy,prevIn],by simp [ofList,nextIn_append,hy,nextIn]⟩

/-- Unlinking a node joins its neighbours. -/
theorem remove_ofList {p : α} (hx : (ys++p::zs).Nodup) :
    (ofList (ys++p::zs)).remove p = ofList (ys++zs) := by
  have hmid := (List.nodup_middle.mp hx).notMem
  have hy : p ∉ ys := fun h => hmid (by simp [h])
  obtain ⟨hprev,hnext⟩ := ofList_linked hx
  simp only [ofList] at hprev hnext
  have hn := nextIn_unlink hx
  have hq := prevIn_unlink hx
  have hguard : ¬((ofList (ys++p::zs)).prev p = none ∧ (ofList (ys++p::zs)).next p = none ∧
      (ofList (ys++p::zs)).head ≠ some p) := by
    rintro ⟨h,-,h'⟩
    simp only [ofList,hprev,List.getLast?_eq_none_iff] at h
    simp [ofList,h] at h'
  rw [Links.remove,if_neg hguard]
  simp only [ofList,hprev]
  cases hl : ys.getLast? with
  | none =>
    obtain rfl : ys = [] := List.getLast?_eq_none_iff.mp hl
    cases zs with
    | nil => simp_all [nextIn,prevIn]
    | cons b ws => simp_all [nextIn,prevIn]
  | some a =>
    have hap : p ≠ a := fun h => hy (h ▸ List.mem_of_getLast? hl)
    obtain ⟨w,hw⟩ : ∃ w, ys.head? = some w := by
      cases ys with
      | nil => simp at hl
      | cons w ws => exact ⟨w,rfl⟩
    cases zs with
    | nil => simp_all [Function.update_of_ne]
    | cons b ws => simp_all [Function.update_of_ne]

/-- Whether it is queued or not, unlinking a node leaves the others in their order. -/
theorem remove_erase {xs : List α} (hx : xs.Nodup) (p : α) :
    (ofList xs).remove p = ofList (xs.erase p) := by
  by_cases hp : p ∈ xs
  · obtain ⟨ys,zs,-,rfl,he⟩ := List.exists_erase_eq hp
    rw [he,remove_ofList hx]
  · rw [remove_not_mem hp,List.erase_of_not_mem hp]

theorem wipe_not_mem {xs : List α} {p : α} (hp : p ∉ xs) : (ofList xs).wipe p = ofList xs := by
  refine Links.ext (funext fun a => ?_) (funext fun a => ?_) rfl rfl
  · by_cases ha : a = p <;> simp [Links.wipe,ofList,ha,nextIn_of_not_mem hp]
  · by_cases ha : a = p <;> simp [Links.wipe,ofList,ha,prevIn_of_not_mem none hp]

theorem nextIn_ne_self {xs : List α} (hx : xs.Nodup) (p : α) : nextIn xs p ≠ some p := by
  induction xs with
  | nil => simp [nextIn]
  | cons x xs ih =>
    by_cases hxp : x = p
    · subst hxp
      simp only [nextIn,if_true]
      exact fun h => (List.nodup_cons.mp hx).1 (List.mem_of_mem_head? h)
    · simpa [nextIn,hxp] using ih (List.nodup_cons.mp hx).2

theorem walkFrom_nextIn (ys : List α) {xs : List α} {n : ℕ} (hx : (ys++xs).Nodup) (hn : xs.length ≤ n) :
    walkFrom (nextIn (ys++xs)) n xs.head? = xs := by
  induction xs generalizing ys n with
  | nil => cases n <;> rfl
  | cons x xs ih =>
    obtain ⟨n,rfl⟩ : ∃ k, n = k+1 := ⟨n-1,by simp at hn; omega⟩
    have hy : x ∉ ys := fun h => (List.nodup_append.mp hx).2.2 x h x (by simp) rfl
    have hstep : nextIn (ys++x::xs) x = xs.head? := by simp [nextIn_append,hy,nextIn]
    have hrest := ih (ys++[x]) (n:=n) (by simpa using hx) (by simpa using hn)
    simp only [List.append_assoc,List.singleton_append] at hrest
    simp [walkFrom,hstep,hrest]

theorem walk_ofList {xs : List α} {n : ℕ} (hx : xs.Nodup) (hn : xs.length ≤ n) :
    (ofList xs).walk n = xs :=
  walkFrom_nextIn [] hx hn

/-! The same said of the fields one by one: what a queue of `xs` looks like. -/

structure Represents (q : Links α) (xs : List α) : Prop where
  nodup : xs.Nodup
  head : q.head = xs.head?
  tail : q.tail = xs.getLast?
  /-- Every member points to the ones before and after it. -/
  linked : ∀ ys p zs, xs = ys++p::zs → q.prev p = ys.getLast? ∧ q.next p = zs.head?
  apart : ∀ p, p ∉ xs → q.prev p = none ∧ q.next p = none

theorem represents_iff {q : Links α} {xs : List α} :
    Represents q xs ↔ xs.Nodup ∧ q = ofList xs := by
  constructor
  · intro h
    have hlinks : ∀ p, q.prev p = (ofList xs).prev p ∧ q.next p = (ofList xs).next p := by
      intro p
      by_cases hp : p ∈ xs
      · obtain ⟨ys,zs,hxs⟩ := List.append_of_mem hp
        obtain ⟨hprev,hnext⟩ := ofList_linked (hxs ▸ h.nodup)
        rw [hxs,hprev,hnext]
        exact h.linked ys p zs hxs
      · obtain ⟨hprev,hnext⟩ := h.apart p hp
        rw [hprev,hnext]
        exact ⟨(prevIn_of_not_mem none hp).symm,(nextIn_of_not_mem hp).symm⟩
    exact ⟨h.nodup,Links.ext (funext fun p => (hlinks p).2) (funext fun p => (hlinks p).1) h.head h.tail⟩
  · rintro ⟨hx,rfl⟩
    refine ⟨hx,rfl,rfl,?_,fun p hp => ⟨prevIn_of_not_mem none hp,nextIn_of_not_mem hp⟩⟩
    rintro ys p zs rfl
    exact ofList_linked hx

variable {q : Links α} {xs : List α} {p : α}

theorem Represents.add (h : Represents q xs) (hp : p ∉ xs) : Represents (q.add p) (xs++[p]) := by
  obtain ⟨hx,rfl⟩ := represents_iff.mp h
  apply represents_iff.mpr
  refine ⟨List.nodup_append.mpr ⟨hx,by simp,?_⟩,add_ofList hx hp⟩
  rintro a ha b hb rfl
  exact hp (List.mem_singleton.mp hb ▸ ha)

theorem Represents.pop (h : Represents q xs) :
    q.pop.1 = xs.head? ∧ Represents q.pop.2 xs.tail := by
  obtain ⟨hx,rfl⟩ := represents_iff.mp h
  cases xs with
  | nil =>
    rw [pop_nil]
    exact ⟨rfl,h⟩
  | cons x xs =>
    rw [pop_cons hx]
    exact ⟨rfl,represents_iff.mpr ⟨hx.of_cons,rfl⟩⟩

theorem Represents.remove (h : Represents q xs) (p : α) : Represents (q.remove p) (xs.erase p) := by
  obtain ⟨hx,rfl⟩ := represents_iff.mp h
  exact represents_iff.mpr ⟨hx.erase p,remove_erase hx p⟩

end LinkedQueue
end DonsOs
