import DonsOs.Lib.Run
import DonsOs.Memory.Process

/-! The list of frames of a process: `elf_add_page_to_pcb`.
`elf_page_list` is an array from `kmalloc`; how long it is, is not stored but follows from the
number of its entries.  A block that is not live and an index behind the end of a block are
faults, on which the model answers `none`.  Whether `kmalloc` finds memory, where, and what the
block holds, is an argument of the call. -/
namespace DonsOs
namespace PageList

open Run

/-- A live block of the kernel heap, as the words in it. -/
structure Block where
  bytes : ℕ
  word : ℕ → ℕ

/-- The fields `elf_page_list`, `elf_num_pages` and `elf_base_phys` of a PCB, and the heap.  The last
two are history variables: the blocks that have been `elf_page_list` and those given to `kfree`, newest
first. -/
structure State where
  list : Option ℕ
  num : ℕ
  basePhys : ℕ
  heap : ℕ → Option Block
  lists : List ℕ
  frees : List ℕ

/-- What `kmalloc` has to offer: an address and what is there. -/
abbrev Offer := Option (ℕ × (ℕ → ℕ))

namespace State

def load (s : State) (a i : ℕ) : Option ℕ :=
  (s.heap a).bind fun b => if 8*i+8 ≤ b.bytes then some (b.word i) else none

def store (s : State) (a i v : ℕ) : Option State :=
  (s.heap a).bind fun b =>
    if 8*i+8 ≤ b.bytes then
      some { s with heap := Function.update s.heap a (some ⟨b.bytes,Function.update b.word i v⟩) }
    else none

/-- `kmalloc`; an offer that no allocator makes (a null pointer, a live block, more than the heap can
hold) counts as none. -/
def kmalloc (s : State) (bytes : ℕ) (offer : Offer) : Option (ℕ × State) :=
  offer.bind fun r =>
    if r.1 ≠ 0 ∧ s.heap r.1 = none ∧ bytes ≤ Heap.heapMaxSize then
      some (r.1,{ s with heap := Function.update s.heap r.1 (some ⟨bytes,r.2⟩) })
    else none

def kfree (s : State) (a : ℕ) : Option State :=
  (s.heap a).map fun _ => { s with heap := Function.update s.heap a none, frees := a::s.frees }

def setList (s : State) (a : ℕ) : State := { s with list := some a, lists := a::s.lists }

/-- The loop that looks for `phys`, from entry `i` on. -/
def search (s : State) (a phys : ℕ) : ℕ → ℕ → Option Bool
  | 0, _ => some false
  | n+1, i => (s.load a i).bind fun v => if v = phys then some true else s.search a phys n (i+1)

def copyEntry (old new : ℕ) (s : State) (i : ℕ) : Option State :=
  (s.load old i).bind fun v => s.store new i v

/-- `elf_page_list[elf_num_pages++] = phys`, and the base for the first. -/
def append (s : State) (a phys : ℕ) : Option State :=
  (s.store a s.num phys).map fun t =>
    { t with num := s.num+1, basePhys := if s.num+1 = 1 then phys else s.basePhys }

/-- `elf_add_page_to_pcb` once there is a list, at `a`. -/
def record (s : State) (a phys : ℕ) (offer : Offer) : Option State :=
  (s.search a phys s.num 0).bind fun found =>
  if found then some s
  else if s.num%64 = 0 ∧ 0 < s.num then
    match s.kmalloc (Heap.u64 ((s.num+64)*8)) offer with
    | none => some s
    | some r =>
      ((List.range s.num).foldlM (copyEntry a r.1) r.2).bind fun s =>
      (s.kfree a).bind fun s => (s.setList r.1).append r.1 phys
  else s.append a phys

def elfAddPageToPcb (s : State) (phys : ℕ) (offer : Offer) : Option State :=
  match s.list with
  | some a => s.record a phys offer
  | none =>
    match s.kmalloc (64*8) offer with
    | none => some s
    | some r => { r.2.setList r.1 with num := 0 }.record r.1 phys offer

/-- The frames that `process_cleanup_elf_pages` gives back, from entry `i` on. -/
def freePages (s : State) (a : ℕ) : ℕ → ℕ → Option (List ℕ)
  | 0, _ => some []
  | n+1, i => (s.load a i).bind fun phys =>
    (s.freePages a n (i+1)).map fun rest => if phys ≠ 0 then phys::rest else rest

/-- `process_cleanup_elf_pages`: the frames given back, and the state. -/
def processCleanupElfPages (s : State) : Option (List ℕ × State) :=
  match s.list with
  | none => some ([],s)
  | some a => (s.freePages a s.num 0).bind fun pages =>
    (s.kfree a).map fun s => (pages,{ s with list := none, num := 0 })

/-- The entries of the list. -/
def entries (s : State) : List ℕ :=
  match s.list.bind s.heap with
  | none => []
  | some b => (List.range s.num).map b.word

end State

/-- A PCB as `process_initialize_pcb` leaves it, with the blocks of others on the heap. -/
def fresh (heap : ℕ → Option Block) : State := ⟨none,0,0,heap,[],[]⟩

/-- What the list is to do: take a frame that it does not have, unless it needs memory for it and
gets none. -/
def enlist (xs : List ℕ) (phys : ℕ) (granted : Bool) : List ℕ :=
  if phys ∈ xs then xs
  else if xs.length%64 = 0 ∧ granted = false then xs
  else xs++[phys]

/-! Blocks. -/

variable {s : State} {a k phys : ℕ} {xs : List ℕ} {offer : Offer}

/-- The block at `a` has room for `k` entries and begins with `xs`. -/
structure Backed (s : State) (a k : ℕ) (xs : List ℕ) : Prop where
  live : ∃ b, s.heap a = some b ∧ b.bytes = 8*k ∧ ∀ i x, xs[i]? = some x → b.word i = x
  fits : xs.length ≤ k

section

variable (h : Backed s a k xs)
include h

theorem Backed.load {i x : ℕ} (hx : xs[i]? = some x) : s.load a i = some x := by
  obtain ⟨b,hb,hbytes,hword⟩ := h.live
  have hi : i < xs.length := (List.getElem?_eq_some_iff.mp hx).1
  have hfits := h.fits
  rw [State.load,hb,Option.bind_some,if_pos (by omega),hword i x hx]

theorem Backed.store (hroom : xs.length < k) (v : ℕ) :
    ∃ t, s.store a xs.length v = some t ∧ Backed t a k (xs++[v]) ∧
      t = { s with heap := t.heap } ∧ ∀ c, c ≠ a → t.heap c = s.heap c := by
  obtain ⟨b,hb,hbytes,hword⟩ := h.live
  let b' : Block := ⟨b.bytes,Function.update b.word xs.length v⟩
  have hstore : s.store a xs.length v = some { s with heap := Function.update s.heap a (some b') } := by
    rw [State.store,hb,Option.bind_some,if_pos (by omega)]
  refine ⟨_,hstore,⟨⟨b',Function.update_self _ _ _,hbytes,fun i x hx => ?_⟩,by simpa using hroom⟩,rfl,
    fun c hc => Function.update_of_ne hc _ _⟩
  simp only [b']
  rcases Nat.lt_or_ge i xs.length with hlt | hge
  · rw [List.getElem?_append_left hlt] at hx
    rw [Function.update_of_ne (by omega)]
    exact hword i x hx
  · rw [List.getElem?_append_right hge,List.getElem?_singleton] at hx
    split at hx
    · obtain rfl : i = xs.length := by omega
      rw [Function.update_self]
      exact Option.some.inj hx
    · exact absurd hx (by simp)

theorem Backed.search (phys : ℕ) {n i : ℕ} (hn : i+n = xs.length) :
    s.search a phys n i = some (decide (phys ∈ xs.drop i)) := by
  induction n generalizing i with
  | zero =>
    rw [State.search,List.drop_eq_nil_of_le (by omega)]
    simp
  | succ n ih =>
    have hi : i < xs.length := by omega
    have hmem : phys ∈ xs.drop i ↔ phys = xs[i] ∨ phys ∈ xs.drop (i+1) := by
      rw [List.drop_eq_getElem_cons hi,List.mem_cons]
    rw [State.search,h.load (List.getElem?_eq_getElem hi),Option.bind_some,ih (by omega)]
    by_cases hx : xs[i] = phys
    · rw [if_pos hx,decide_eq_true (hmem.mpr (Or.inl hx.symm))]
    · rw [if_neg hx,decide_eq_decide.mpr (hmem.trans (or_iff_right (Ne.symm hx)))]

theorem Backed.copy {new k' : ℕ} (hnew : Backed s new k' []) (hne : new ≠ a) (hk : xs.length ≤ k') :
    ∃ t, (List.range xs.length).foldlM (State.copyEntry a new) s = some t ∧ Backed t a k xs ∧
      Backed t new k' xs ∧ t = { s with heap := t.heap } := by
  have hloop : ∀ n ≤ xs.length, ∃ t, (List.range n).foldlM (State.copyEntry a new) s = some t ∧
      Backed t a k xs ∧ Backed t new k' (xs.take n) ∧ t = { s with heap := t.heap } := by
    intro n
    induction n with
    | zero => exact fun _ => ⟨s,rfl,h,by simpa using hnew,rfl⟩
    | succ n ih =>
      intro hn
      obtain ⟨t,ht,hold,hcopied,hsame⟩ := ih (by omega)
      have hlen : (xs.take n).length = n := by
        rw [List.length_take]
        omega
      have hget : xs[n]? = some xs[n] := List.getElem?_eq_getElem (by omega)
      obtain ⟨u,hu,hback,husame,hother⟩ := hcopied.store (by omega) xs[n]
      rw [hlen] at hu
      refine ⟨u,?_,?_,?_,?_⟩
      · rw [List.range_succ,List.foldlM_append,ht]
        simp only [List.foldlM_cons,List.foldlM_nil,Option.bind_eq_bind,Option.bind_some]
        rw [State.copyEntry,hold.load hget,Option.bind_some,hu]
        rfl
      · obtain ⟨b,hb,hbytes,hword⟩ := hold.live
        exact ⟨⟨b,by rw [hother a hne.symm,hb],hbytes,hword⟩,hold.fits⟩
      · rwa [List.take_succ_eq_append_getElem (by omega)]
      · rw [husame,hsame]
  obtain ⟨t,ht,hold,hcopied,hsame⟩ := hloop xs.length le_rfl
  exact ⟨t,ht,hold,by rwa [List.take_length] at hcopied,hsame⟩

theorem Backed.congr {t : State} (hheap : t.heap a = s.heap a) : Backed t a k xs := by
  obtain ⟨b,hb,hbytes,hword⟩ := h.live
  exact ⟨⟨b,hheap.trans hb,hbytes,hword⟩,h.fits⟩

theorem Backed.append (hnum : s.num = xs.length) (hroom : xs.length < k) (phys : ℕ) :
    ∃ t, s.append a phys = some t ∧ Backed t a k (xs++[phys]) ∧ t.num = (xs++[phys]).length ∧
      t.list = s.list ∧ t.lists = s.lists ∧ t.frees = s.frees := by
  obtain ⟨t,ht,hback,hsame,-⟩ := h.store hroom phys
  refine ⟨{ t with num := s.num+1, basePhys := if s.num+1 = 1 then phys else s.basePhys },?_,hback.congr rfl,
    ?_,?_,?_,?_⟩
  · rw [State.append,hnum,ht]
    rfl
  · simp [hnum]
  all_goals rw [hsame]

end

/-- A new block is apart from those that are live, and empty. -/
theorem kmalloc_spec {bytes : ℕ} {r : ℕ × State} (h : s.kmalloc bytes offer = some r) :
    s.heap r.1 = none ∧ bytes ≤ Heap.heapMaxSize ∧ r.2 = { s with heap := r.2.heap } ∧
      (∀ c, c ≠ r.1 → r.2.heap c = s.heap c) ∧ ∀ n, bytes = 8*n → Backed r.2 r.1 n [] := by
  obtain ⟨o,ho,hr⟩ := Option.bind_eq_some_iff.mp h
  split_ifs at hr with hok
  · obtain rfl := Option.some.inj hr
    refine ⟨hok.2.1,hok.2.2,rfl,fun c hc => Function.update_of_ne hc _ _,fun n hn => ?_⟩
    exact ⟨⟨_,Function.update_self _ _ _,hn,by simp⟩,Nat.zero_le _⟩

/-! One call. -/

/-- The number of entries that a list of `n` has room for. -/
def capacity (n : ℕ) : ℕ := 64*((n+63)/64)

/-- The list of the process is `xs`, without repetitions; as many blocks have been freed as have been
replaced, and they are the replaced ones. -/
structure Keeps (s : State) (xs : List ℕ) : Prop where
  num : s.num = xs.length
  nodup : xs.Nodup
  lists : s.lists = s.list.toList++s.frees
  null : s.list = none → xs = []
  block : ∀ a, s.list = some a →
    0 < xs.length ∧ Backed s a (capacity xs.length) xs ∧ 8*capacity xs.length ≤ Heap.heapMaxSize

/-- Whether `kmalloc` has a block for the list, of the size that would be asked for. -/
def granted (s : State) (offer : Offer) : Bool :=
  match s.list with
  | none => (s.kmalloc (64*8) offer).isSome
  | some _ => (s.kmalloc (Heap.u64 ((s.num+64)*8)) offer).isSome

theorem enlist_fresh {granted : Bool} (hphys : phys ∉ xs) (hok : xs.length%64 = 0 → granted = true) :
    enlist xs phys granted = xs++[phys] := by
  rw [enlist,if_neg hphys,if_neg]
  rintro ⟨hlen,hno⟩
  rw [hok hlen] at hno
  exact absurd hno (by decide)

theorem nodup_snoc (h : xs.Nodup) (hphys : phys ∉ xs) : (xs++[phys]).Nodup := by
  refine List.nodup_append.mpr ⟨h,by simp,?_⟩
  rintro x hx y hy rfl
  exact hphys (List.mem_singleton.mp hy ▸ hx)

theorem Keeps.first (h : Keeps s xs) (hlist : s.list = none) (phys : ℕ) (offer : Offer) :
    ∃ t, s.elfAddPageToPcb phys offer = some t ∧ Keeps t (enlist xs phys (granted s offer)) := by
  obtain rfl := h.null hlist
  have hlists := h.lists
  simp only [State.elfAddPageToPcb,granted,hlist]
  cases hr : s.kmalloc (64*8) offer with
  | none => exact ⟨s,rfl,h⟩
  | some r =>
    obtain ⟨-,hmax,hsame,-,hback⟩ := kmalloc_spec hr
    have hempty : Backed { r.2.setList r.1 with num := 0 } r.1 64 [] := (hback 64 rfl).congr rfl
    obtain ⟨t,ht,hback',hnum,hl,hls,hfr⟩ := hempty.append rfl (by decide) phys
    refine ⟨t,?_,?_⟩
    · dsimp only
      rw [State.record,hempty.search phys (n:=0) (i:=0) rfl,Option.bind_some]
      simpa using ht
    · rw [Option.isSome_some,enlist_fresh (by simp) fun _ => rfl]
      refine ⟨hnum,by simp,?_,fun hnone => ?_,fun a ha => ?_⟩
      · rw [hls,hl,hfr,hsame]
        simp only [State.setList,hlists,hlist,Option.toList_none,List.nil_append]
        rfl
      · rw [hl] at hnone
        exact absurd hnone (by simp [State.setList])
      · rw [hl] at ha
        obtain rfl : r.1 = a := Option.some.inj ha
        have hcap : capacity ([]++[phys]).length = 64 := by simp [capacity]
        rw [hcap]
        exact ⟨by simp,hback',hmax⟩

theorem Keeps.grow (h : Keeps s xs) (hlist : s.list = some a) (hphys : phys ∉ xs) (hfull : xs.length%64 = 0)
    {r : ℕ × State} (hr : s.kmalloc (Heap.u64 ((s.num+64)*8)) offer = some r) :
    ∃ t, (((List.range s.num).foldlM (State.copyEntry a r.1) r.2).bind fun s =>
        (s.kfree a).bind fun s => (s.setList r.1).append r.1 phys) = some t ∧ Keeps t (xs++[phys]) := by
  obtain ⟨hpos,hback,hmax⟩ := h.block a hlist
  have hcap : capacity xs.length = xs.length := by
    rw [capacity]
    omega
  rw [hcap] at hback hmax
  have hbytes : Heap.u64 ((s.num+64)*8) = 8*(xs.length+64) := by
    rw [h.num,Heap.u64,Nat.mod_eq_of_lt (by rw [Heap.heapMaxSize] at hmax; omega)]
    omega
  obtain ⟨hfree,hlimit,hsame,hother,hnew⟩ := kmalloc_spec hr
  obtain ⟨b,hb,-⟩ := hback.live
  have hne : r.1 ≠ a := by
    rintro rfl
    rw [hb] at hfree
    exact absurd hfree (by simp)
  obtain ⟨t,ht,hold,hcopied,htsame⟩ := (hback.congr (hother a hne.symm)).copy (hnew _ hbytes) hne (by omega)
  obtain ⟨c,hc,-⟩ := hold.live
  -- the old block is live until here, and is not the new one
  have hfreed : t.kfree a = some { t with heap := Function.update t.heap a none, frees := a::t.frees } := by
    rw [State.kfree,hc]
    rfl
  have hmoved : Backed ({ t with heap := Function.update t.heap a none, frees := a::t.frees }.setList r.1)
      r.1 (xs.length+64) xs := hcopied.congr (Function.update_of_ne hne _ _)
  have htnum : t.num = xs.length := by
    rw [htsame,hsame]
    exact h.num
  have htlists : t.lists = a::t.frees := by
    have hlists := h.lists
    rw [hlist] at hlists
    rw [htsame,hsame]
    exact hlists
  obtain ⟨u,hu,hback',hnum,hl,hls,hfr⟩ := hmoved.append htnum (by omega) phys
  refine ⟨u,?_,⟨hnum,nodup_snoc h.nodup hphys,?_,fun hnone => ?_,fun d hd => ?_⟩⟩
  · rw [h.num,ht,Option.bind_some,hfreed,Option.bind_some,hu]
  · rw [hls,hl,hfr]
    simp only [State.setList,htlists,Option.toList_some,List.singleton_append]
  · rw [hl] at hnone
    exact absurd hnone (by simp [State.setList])
  · rw [hl] at hd
    obtain rfl : r.1 = d := Option.some.inj hd
    have hcap' : capacity (xs++[phys]).length = xs.length+64 := by
      rw [capacity,List.length_append,List.length_singleton]
      omega
    rw [hcap']
    exact ⟨by simp,hback',by omega⟩

theorem Keeps.more (h : Keeps s xs) (hlist : s.list = some a) (hphys : phys ∉ xs)
    (hroom : xs.length%64 ≠ 0) : ∃ t, s.append a phys = some t ∧ Keeps t (xs++[phys]) := by
  obtain ⟨hpos,hback,hmax⟩ := h.block a hlist
  obtain ⟨t,ht,hback',hnum,hl,hls,hfr⟩ := hback.append h.num (by rw [capacity]; omega) phys
  have hcap : capacity (xs++[phys]).length = capacity xs.length := by
    rw [capacity,capacity,List.length_append,List.length_singleton]
    omega
  refine ⟨t,ht,⟨hnum,nodup_snoc h.nodup hphys,by rw [hls,hl,hfr,h.lists],fun hnone => ?_,fun d hd => ?_⟩⟩
  · rw [hl,hlist] at hnone
    exact absurd hnone (by simp)
  · rw [hl,hlist] at hd
    obtain rfl : a = d := Option.some.inj hd
    rw [hcap]
    exact ⟨by simp,hback',hmax⟩

/-- A call never faults, and does to the list what it is to do. -/
theorem Keeps.step (h : Keeps s xs) (phys : ℕ) (offer : Offer) :
    ∃ t, s.elfAddPageToPcb phys offer = some t ∧ Keeps t (enlist xs phys (granted s offer)) := by
  cases hlist : s.list with
  | none => exact h.first hlist phys offer
  | some a =>
    obtain ⟨hpos,hback,-⟩ := h.block a hlist
    simp only [State.elfAddPageToPcb,granted,hlist]
    rw [State.record,hback.search phys (n:=s.num) (i:=0) (by rw [Nat.zero_add,h.num]),Option.bind_some,
      List.drop_zero]
    by_cases hphys : phys ∈ xs
    · rw [if_pos (decide_eq_true hphys),enlist,if_pos hphys]
      exact ⟨s,rfl,h⟩
    · rw [if_neg (by simpa using hphys)]
      by_cases hfull : xs.length%64 = 0
      · rw [if_pos (by rw [h.num]; exact ⟨hfull,hpos⟩)]
        cases hr : s.kmalloc (Heap.u64 ((s.num+64)*8)) offer with
        | none =>
          rw [enlist,if_neg hphys,if_pos ⟨hfull,rfl⟩]
          exact ⟨s,rfl,h⟩
        | some r =>
          rw [Option.isSome_some,enlist_fresh hphys fun _ => rfl]
          exact h.grow hlist hphys hfull hr
      · rw [if_neg (by rw [h.num]; omega),enlist_fresh hphys fun hlen => absurd hlen hfull]
        exact h.more hlist hphys hfull

theorem Keeps.entries (h : Keeps s xs) : s.entries = xs := by
  cases hlist : s.list with
  | none =>
    rw [h.null hlist,State.entries,hlist]
    rfl
  | some a =>
    obtain ⟨-,hback,-⟩ := h.block a hlist
    obtain ⟨b,hb,-,hword⟩ := hback.live
    rw [State.entries,hlist,Option.bind_some,hb]
    apply List.ext_getElem?
    intro i
    rw [List.getElem?_map,h.num]
    rcases Nat.lt_or_ge i xs.length with hlt | hge
    · rw [List.getElem?_range hlt,List.getElem?_eq_getElem hlt]
      exact congrArg some (hword i _ (List.getElem?_eq_getElem hlt))
    · rw [List.getElem?_eq_none (by simpa using hge),List.getElem?_eq_none hge]
      rfl

/-- The list that the other models of a process have is this one. -/
theorem loading_enlist (grow : ℕ → Bool) (l : Memory.Loading) (f : ℕ) :
    (Memory.elfAddPageToPcb grow l f).pages = enlist l.pages f (!grow l.pages.length ||
      (Memory.heapExtend l.kmem (Memory.kmallocBytes ((l.pages.length+64)*8))).1) := by
  unfold Memory.elfAddPageToPcb enlist
  by_cases hf : f ∈ l.pages
  · rw [if_pos hf,if_pos hf]
  · rw [if_neg hf,if_neg hf]
    cases hgrow : grow l.pages.length with
    | false => simp
    | true =>
      by_cases hlen : l.pages.length%64 = 0
      · cases hext : (Memory.heapExtend l.kmem (Memory.kmallocBytes ((l.pages.length+64)*8))).1 <;>
          simp [hlen,hext]
      · simp [hlen]

theorem Backed.freePages (h : Backed s a k xs) {n i : ℕ} (hn : i+n = xs.length) :
    s.freePages a n i = some ((xs.drop i).filter (· ≠ 0)) := by
  induction n generalizing i with
  | zero =>
    rw [State.freePages,List.drop_eq_nil_of_le (by omega)]
    rfl
  | succ n ih =>
    have hi : i < xs.length := by omega
    rw [State.freePages,h.load (List.getElem?_eq_getElem hi),Option.bind_some,ih (by omega),
      List.drop_eq_getElem_cons hi,List.filter_cons]
    simp

/-- Cleaning up gives every frame back once, and the block of the list. -/
theorem Keeps.cleanup (h : Keeps s xs) :
    ∃ t, s.processCleanupElfPages = some (xs.filter (· ≠ 0),t) ∧ Keeps t [] := by
  cases hlist : s.list with
  | none =>
    obtain rfl := h.null hlist
    refine ⟨s,?_,h⟩
    simp only [State.processCleanupElfPages,hlist]
    rfl
  | some a =>
    obtain ⟨-,hback,-⟩ := h.block a hlist
    obtain ⟨b,hb,-⟩ := hback.live
    have hlists := h.lists
    rw [hlist] at hlists
    let t : State := ⟨none,0,s.basePhys,Function.update s.heap a none,s.lists,a::s.frees⟩
    refine ⟨t,?_,⟨rfl,List.nodup_nil,hlists,fun _ => rfl,fun c hc => by simp [t] at hc⟩⟩
    simp only [State.processCleanupElfPages,hlist]
    rw [hback.freePages (by rw [Nat.zero_add,h.num]),Option.bind_some,State.kfree,hb]
    rfl

/-! Whole sequences of calls. -/

structure Call where
  phys : ℕ
  offer : Offer

def call (s : State) (c : Call) : Option State := s.elfAddPageToPcb c.phys c.offer

/-- The frames of the calls after which the frame is in the list, in the order of the calls. -/
def successes : State → List Call → List ℕ
  | _, [] => []
  | s, c::cs =>
    match call s c with
    | none => []
    | some t => (if c.phys ∈ t.entries then [c.phys] else [])++successes t cs

theorem enlist_extends (xs : List ℕ) (phys : ℕ) (granted : Bool) : xs <+: enlist xs phys granted := by
  unfold enlist
  split_ifs
  · exact List.prefix_rfl
  · exact List.prefix_rfl
  · exact List.prefix_append _ _

/-- A frame that was taken is new, or was there already. -/
theorem enlist_eraseDups {ys : List ℕ} (phys : ℕ) (granted : Bool) :
    enlist ys.eraseDups phys granted =
      (ys++if phys ∈ enlist ys.eraseDups phys granted then [phys] else []).eraseDups := by
  by_cases hmem : phys ∈ ys
  · have hsame : enlist ys.eraseDups phys granted = ys.eraseDups := if_pos (List.mem_eraseDups.mpr hmem)
    have hnone : [phys].removeAll ys = [] := by simp [List.removeAll,hmem]
    rw [hsame,if_pos (List.mem_eraseDups.mpr hmem),List.eraseDups_append,hnone]
    simp
  · have hnot : phys ∉ ys.eraseDups := fun h => hmem (List.mem_eraseDups.mp h)
    by_cases hno : ys.eraseDups.length%64 = 0 ∧ granted = false
    · have hsame : enlist ys.eraseDups phys granted = ys.eraseDups := by
        rw [enlist,if_neg hnot,if_pos hno]
      rw [hsame,if_neg hnot,List.append_nil]
    · have htaken : enlist ys.eraseDups phys granted = ys.eraseDups++[phys] := by
        rw [enlist,if_neg hnot,if_neg hno]
      have hone : [phys].removeAll ys = [phys] := by simp [List.removeAll,hmem]
      rw [htaken,if_pos (by simp),List.eraseDups_append,hone]
      simp [List.eraseDups_cons]

/-- From any such state calls go through, the list only grows, and in the order of the successes. -/
theorem Keeps.calls {ys : List ℕ} (h : Keeps s ys.eraseDups) (cs : List Call) :
    ∃ t, run call s cs = some t ∧ Keeps t (ys++successes s cs).eraseDups ∧
      ys.eraseDups <+: (ys++successes s cs).eraseDups := by
  induction cs generalizing s ys with
  | nil => exact ⟨s,rfl,by simpa [successes] using h,by simp [successes]⟩
  | cons c cs ih =>
    obtain ⟨t,ht,hkeeps⟩ := h.step c.phys c.offer
    have hcall : call s c = some t := ht
    have hentries := hkeeps.entries
    have hgrown := enlist_extends ys.eraseDups c.phys (granted s c.offer)
    rw [enlist_eraseDups] at hkeeps hgrown
    rw [← hentries] at hkeeps hgrown
    obtain ⟨u,hu,hend,hlonger⟩ := ih hkeeps
    simp only [successes,hcall,← List.append_assoc]
    exact ⟨u,by simp [run,hcall,hu],hend,hgrown.trans hlonger⟩

theorem successes_append {t : State} {cs : List Call} (h : run call s cs = some t) (ds : List Call) :
    successes s (cs++ds) = successes s cs++successes t ds := by
  induction cs generalizing s with
  | nil =>
    obtain rfl := Option.some.inj h
    rfl
  | cons c cs ih =>
    obtain ⟨u,hu,hrun⟩ := run_cons h
    simp only [List.cons_append,successes,hu,ih hrun,List.append_assoc]

theorem fresh_keeps (heap : ℕ → Option Block) : Keeps (fresh heap) [] :=
  ⟨rfl,List.nodup_nil,rfl,fun _ => rfl,fun a ha => by simp [fresh] at ha⟩

/-- No call faults: no entry is read or written behind the end of the list, and no block is freed
that is not live.  The list holds the frames of the successful calls, each once and in the order of
the first; a call succeeds unless `kmalloc` fails it; what is recorded stays; and the blocks freed are
those that were replaced, each once. -/
theorem pageList_run (heap : ℕ → Option Block) (cs ds : List Call) :
    ∃ s t, run call (fresh heap) cs = some s ∧ run call s ds = some t ∧
      t.entries.Nodup ∧ t.num = t.entries.length ∧
      t.entries = (successes (fresh heap) (cs++ds)).eraseDups ∧
      (∀ c, ∃ u, call t c = some u ∧ (c.phys ∈ u.entries ↔
        c.phys ∈ t.entries ∨ t.entries.length%64 ≠ 0 ∨ granted t c.offer = true)) ∧
      s.entries <+: t.entries ∧
      (∀ a, t.list = some a → ∃ b, t.heap a = some b ∧ 8*t.num ≤ b.bytes) ∧
      t.lists = t.list.toList++t.frees := by
  have hstart : Keeps (fresh heap) ([] : List ℕ).eraseDups := by simpa using fresh_keeps heap
  obtain ⟨s,hs,hkeeps,-⟩ := hstart.calls cs
  obtain ⟨t,ht,hkeeps',hlonger⟩ := hkeeps.calls ds
  rw [List.nil_append] at hkeeps hkeeps' hlonger
  rw [← successes_append hs] at hkeeps' hlonger
  refine ⟨s,t,hs,ht,?_,?_,hkeeps'.entries,fun c => ?_,?_,fun a ha => ?_,hkeeps'.lists⟩
  · rw [hkeeps'.entries]
    exact hkeeps'.nodup
  · rw [hkeeps'.entries]
    exact hkeeps'.num
  · obtain ⟨u,hu,hnext⟩ := hkeeps'.step c.phys c.offer
    refine ⟨u,hu,?_⟩
    rw [hnext.entries,hkeeps'.entries,enlist]
    split_ifs with hmem hno
    · simp [hmem]
    · simp [hmem,hno]
    · simp only [List.mem_append,List.mem_singleton,or_true,true_iff]
      by_cases hlen : (successes (fresh heap) (cs++ds)).eraseDups.length%64 = 0
      · exact Or.inr (Or.inr (by simpa [hlen] using hno))
      · exact Or.inr (Or.inl hlen)
  · rw [hkeeps.entries,hkeeps'.entries]
    exact hlonger
  · obtain ⟨-,hback,-⟩ := hkeeps'.block a ha
    obtain ⟨b,hb,hbytes,-⟩ := hback.live
    have hfits := hback.fits
    exact ⟨b,hb,by rw [hkeeps'.num]; omega⟩

/-! Whole lives of a PCB. -/

/-- `process_initialize_pcb` clears the fields, whatever they hold. -/
def State.wipe (s : State) : State := { s with list := none, num := 0, basePhys := 0 }

/-- A process gets the PCB, records frames and is reclaimed. -/
def live (s : State) (cs : List Call) : Option State :=
  ((run call s.wipe cs).bind State.processCleanupElfPages).map Prod.snd

theorem Keeps.list_none (h : Keeps s []) : s.list = none := by
  by_contra hlist
  obtain ⟨a,ha⟩ := Option.ne_none_iff_exists'.mp hlist
  exact absurd (h.block a ha).1 (Nat.lt_irrefl 0)

/-- There was no list to lose. -/
theorem Keeps.wipe (h : Keeps s []) : Keeps s.wipe [] := by
  refine ⟨rfl,List.nodup_nil,?_,fun _ => rfl,fun a ha => by simp [State.wipe] at ha⟩
  simpa [State.wipe,h.list_none] using h.lists

theorem Keeps.life (h : Keeps s []) (cs : List Call) :
    ∃ t u, run call s.wipe cs = some t ∧ t.entries = (successes s.wipe cs).eraseDups ∧
      t.entries.Nodup ∧ t.processCleanupElfPages = some (t.entries.filter (· ≠ 0),u) ∧ Keeps u [] := by
  have hstart : Keeps s.wipe ([] : List ℕ).eraseDups := by simpa using h.wipe
  obtain ⟨t,ht,hkeeps,-⟩ := hstart.calls cs
  rw [List.nil_append] at hkeeps
  obtain ⟨u,hu,hdone⟩ := hkeeps.cleanup
  have hentries := hkeeps.entries
  rw [← hentries] at hu
  exact ⟨t,u,ht,hentries,hentries ▸ hkeeps.nodup,hu,hdone⟩

theorem Keeps.lives (h : Keeps s []) (past : List (List Call)) :
    ∃ t, run live s past = some t ∧ Keeps t [] := by
  have hall : Admits live (fun _ _ => True) s past := admits_of_forall (fun _ _ => trivial) s
  refine run_total (fun s => Keeps s []) (fun s cs h _ => ?_) h hall
  obtain ⟨t,u,ht,-,-,hu,hkeeps⟩ := h.life cs
  exact ⟨u,by simp [live,ht,hu],hkeeps⟩

/-- However many processes have had the PCB, and whenever `kmalloc` failed them: the next one that is
reclaimed gives back the frames that were recorded for it, each once, and all lists have then been
freed, as often as they were set up. -/
theorem pageList_lives (heap : ℕ → Option Block) (past : List (List Call)) (cs : List Call) :
    ∃ s t u, run live (fresh heap) past = some s ∧ run call s.wipe cs = some t ∧
      t.entries = (successes s.wipe cs).eraseDups ∧ t.entries.Nodup ∧
      t.processCleanupElfPages = some (t.entries.filter (· ≠ 0),u) ∧
      u.list = none ∧ u.num = 0 ∧ u.lists = u.frees := by
  obtain ⟨s,hs,hkeeps⟩ := (fresh_keeps heap).lives past
  obtain ⟨t,u,ht,hentries,hnodup,hu,hdone⟩ := hkeeps.life cs
  refine ⟨s,t,u,hs,ht,hentries,hnodup,hu,hdone.list_none,hdone.num,?_⟩
  rw [hdone.lists,hdone.list_none,Option.toList_none,List.nil_append]

end PageList
end DonsOs
