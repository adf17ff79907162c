import DonsOs.Memory.Clone
import DonsOs.Memory.Frames

/-! The supply of frames.
`pmm_alloc_page_for_tables` succeeds as long as the LOW zone has a free frame from the next
candidate on, and takes one of them.  A clone needs a frame for its root and one for every
table of the low half of its source; with that many it succeeds, with fewer it fails.  In the
same way mapping a page needs a frame for every table that is missing on the way to it.  Frames
for user pages come from the HIGH zone, from the top down. -/
namespace DonsOs
namespace Memory

open Paging

/-- The frames that can still become tables. -/
def lowFrames (p : Pmm) : Finset ℕ :=
  (Finset.Icc p.nextLow p.zones.lowEnd).filter fun f => 512 ≤ f ∧ p.bitmap f = false

def lowFree (p : Pmm) : ℕ := (lowFrames p).card

variable {p p' : Pmm} {f : ℕ}

theorem mem_lowFrames : f ∈ lowFrames p ↔
    (p.nextLow ≤ f ∧ f ≤ p.zones.lowEnd) ∧ 512 ≤ f ∧ p.bitmap f = false := by
  simp [lowFrames]

/-- The scan of `pmm_alloc_page` for a table takes the first of these frames. -/
theorem allocForTables_eq (p : Pmm) : pmmAllocPageForTables p =
    ((List.range' p.nextLow (p.zones.lowEnd+1-p.nextLow)).find? fun f =>
      decide (512 ≤ f ∧ p.bitmap f = false)).map fun f =>
        (f,{ p.take f with nextLow := if f < p.zones.lowEnd then f+1 else p.zones.lowEnd }) := by
  have hskip : ∀ f : ℕ, f*4096 < 0x200000 ↔ ¬512 ≤ f := fun f => by omega
  simp only [pmmAllocPageForTables,pmmAllocPage,reduceCtorEq,or_self,if_false,or_true,true_or,true_and,
    hskip,not_not]
  split
  · rename_i hz
    symm
    rw [Option.map_eq_none_iff,List.find?_eq_none]
    intro f hf
    rw [List.mem_range'_1] at hf
    simp only [decide_eq_true_eq]
    omega
  · rfl

theorem allocForTables_none : pmmAllocPageForTables p = none ↔ lowFree p = 0 := by
  rw [allocForTables_eq,Option.map_eq_none_iff,List.find?_eq_none,lowFree,Finset.card_eq_zero,
    Finset.eq_empty_iff_forall_notMem]
  refine forall_congr' fun f => ?_
  have hrange : p.nextLow ≤ f ∧ f < p.nextLow+(p.zones.lowEnd+1-p.nextLow) ↔
      p.nextLow ≤ f ∧ f ≤ p.zones.lowEnd := by omega
  rw [mem_lowFrames,List.mem_range'_1,decide_eq_true_eq,hrange,not_and (b:=_ ∧ _)]

theorem lowFree_alloc (h : pmmAllocPageForTables p = some (f,p')) : lowFree p = lowFree p'+1 := by
  rw [allocForTables_eq,Option.map_eq_some_iff] at h
  obtain ⟨page,hfind,he⟩ := h
  obtain ⟨rfl,rfl⟩ := Prod.mk.inj he
  rw [List.find?_range'_eq_some] at hfind
  obtain ⟨hok,hmem,hfirst⟩ := hfind
  rw [List.mem_range'_1] at hmem
  rw [decide_eq_true_eq] at hok
  have hin : page ∈ lowFrames p := mem_lowFrames.mpr ⟨by omega,hok⟩
  -- no frame before the one that is taken was free
  have herase : lowFrames { p.take page with
      nextLow := if page < p.zones.lowEnd then page+1 else p.zones.lowEnd } = (lowFrames p).erase page := by
    ext g
    simp only [Finset.mem_erase,mem_lowFrames,Pmm.take,Function.update_apply]
    by_cases hg : g = page
    · simp [hg]
    · simp only [hg,if_false,ne_eq,not_false_eq_true,true_and]
      have hbefore : p.nextLow ≤ g → g < page → ¬(512 ≤ g ∧ p.bitmap g = false) := fun h1 h2 h3 => by
        have hno := hfirst g h1 h2
        simp [h3] at hno
      split <;> constructor <;> rintro ⟨h1,h2⟩ <;> refine ⟨?_,h2⟩
      · omega
      · have : ¬g < page := fun hlt => hbefore h1.1 hlt h2
        omega
      · omega
      · have : ¬g < page := fun hlt => hbefore h1.1 hlt h2
        omega
  rw [lowFree,lowFree,herase,Finset.card_erase_add_one hin]

/-- Frames of the HIGH zone are not among them. -/
theorem lowFree_congr (hz : p'.zones = p.zones) (hn : p'.nextLow = p.nextLow)
    (hb : ∀ f ≤ p.zones.lowEnd, p'.bitmap f = p.bitmap f) : lowFree p' = lowFree p := by
  rw [lowFree,lowFree]
  congr 1
  ext f
  rw [mem_lowFrames,mem_lowFrames,hz,hn]
  refine and_congr_right fun h => ?_
  rw [hb f h.2]

/-! All frames. -/

/-- The free frames, whatever their zone. -/
def freeFrames (p : Pmm) : Finset ℕ := (Finset.range maxPages).filter fun f => p.bitmap f = false

theorem freeFrames_le (p : Pmm) : (freeFrames p).card ≤ maxPages := by
  simpa [freeFrames] using Finset.card_filter_le (Finset.range maxPages) fun f => p.bitmap f = false

theorem allocForElf_lt (htop : p.nextHigh ≤ p.zones.highEnd)
    (ha : pmmAllocPageForElf p = some (f,p')) : f < maxPages := by
  obtain ⟨-,-,hle,-⟩ := allocForElf_spec ha
  have hlt := p.zones.high_lt
  omega

theorem Taken.freeFrames (h : Taken p p' f) (hf : f < maxPages) :
    (freeFrames p).card = (freeFrames p').card+1 := by
  have hin : f ∈ Memory.freeFrames p := by simp [Memory.freeFrames,hf,h.free]
  have he : Memory.freeFrames p' = (Memory.freeFrames p).erase f := by
    ext g
    by_cases hg : g = f
    · simp [Memory.freeFrames,h.bitmap,hg]
    · simp [Memory.freeFrames,h.bitmap,hg]
  rw [he,Finset.card_erase_add_one hin]

/-- A level of a walk takes one frame at most. -/
theorem nextTable_supply {s s' : Vm} {t i : ℕ} {d : Word} (h : nextTable s t i d = some (f,s')) :
    ∃ k ≤ 1, lowFree s.pmm = lowFree s'.pmm+k ∧
      (freeFrames s.pmm).card = (freeFrames s'.pmm).card+k := by
  rcases nextTable_cases h with ⟨-,-,rfl⟩ | ⟨-,pmm,ha,rfl⟩
  · exact ⟨0,by omega,(Nat.add_zero _).symm,(Nat.add_zero _).symm⟩
  · obtain ⟨htk,-,-,hlow⟩ := allocForTables_spec ha
    have hz := s.pmm.zones.low_lt
    exact ⟨1,le_rfl,lowFree_alloc ha,htk.freeFrames (by omega)⟩

/-- A mapping call takes three frames at most. -/
theorem map_supply (s : Vm) (cr3 virt phys : ℕ) (flags : Word) :
    ∃ k ≤ 3, lowFree s.pmm = lowFree (vmmMapPageInCr3 s cr3 virt phys flags).2.pmm+k ∧
      (freeFrames s.pmm).card = (freeFrames (vmmMapPageInCr3 s cr3 virt phys flags).2.pmm).card+k := by
  rw [map_eq]
  split
  · exact ⟨0,by omega,(Nat.add_zero _).symm,(Nat.add_zero _).symm⟩
  rename_i pdpt s₁ h₁
  obtain ⟨k₁,hk₁,hl₁,hf₁⟩ := nextTable_supply h₁
  simp only [mapBelowPdpt]
  split
  · exact ⟨k₁,by omega,hl₁,hf₁⟩
  rename_i pd s₂ h₂
  obtain ⟨k₂,hk₂,hl₂,hf₂⟩ := nextTable_supply h₂
  simp only [mapBelowPd]
  split
  · exact ⟨k₁+k₂,by omega,by simp only; omega,by simp only; omega⟩
  rename_i pt s₃ h₃
  obtain ⟨k₃,hk₃,hl₃,hf₃⟩ := nextTable_supply h₃
  exact ⟨k₁+k₂+k₃,by omega,by simp only [Vm.store]; omega,by simp only [Vm.store]; omega⟩

/-! Clones. -/

/-- The tables that are linked below the table `t`, `n` levels deep. -/
def tablesBelow (m : Mem) : ℕ → ℕ → ℕ
  | 0, _ => 0
  | n+1, t => ((List.range 512).map fun i =>
      if link (m t i) then tablesBelow m n (frameOf (m t i))+1 else 0).sum

/-- The tables of a clone: the root and those of the low half. -/
def tablesNeeded (m : Mem) (root : ℕ) : ℕ :=
  ((List.range 512).map fun i =>
    if i < 256 ∧ link (m root i) then tablesBelow m 2 (frameOf (m root i))+1 else 0).sum+1

/-- What was in use is as it was. -/
def Keeps (s₀ s : Vm) : Prop := ∀ f, Stable s₀ f → s.mem f = s₀.mem f ∧ Stable s f

/-- The step needs `c` frames for tables: with fewer it fails. -/
def Costs (s₀ : Vm) (step : Vm → Except Vm Vm) (c : ℕ) : Prop :=
  ∀ s, Keeps s₀ s →
    (c ≤ lowFree s.pmm → ∃ s', step s = .ok s' ∧ Keeps s₀ s' ∧ lowFree s.pmm = lowFree s'.pmm+c) ∧
    (lowFree s.pmm < c → ∃ s', step s = .error s')

section
variable {s₀ s s' : Vm} {t g i : ℕ}

theorem Keeps.refl (s : Vm) : Keeps s s := fun _ h => ⟨rfl,h⟩

theorem Keeps.store (h : Keeps s₀ s) (ht : ¬Stable s₀ t) (i : ℕ) (w : Word) :
    Keeps s₀ (s.store t i w) := by
  intro f hf
  have hne : f ≠ t := fun e => ht (e ▸ hf)
  exact ⟨(store_of_ne hne).trans (h f hf).1,(h f hf).2⟩

theorem Keeps.alloc (h : Keeps s₀ s) {pmm : Pmm} (ha : pmmAllocPageForTables s.pmm = some (f,pmm))
    (page : ℕ → Word) : ¬Stable s₀ f ∧ Keeps s₀ { s with pmm := pmm, mem := fill s.mem f page } := by
  obtain ⟨htk,h512,-,-⟩ := allocForTables_spec ha
  refine ⟨fun hf => (h f hf).2.ne htk.free h512 rfl,fun a hs => ?_⟩
  obtain ⟨hm,hst⟩ := h a hs
  have hne := hst.ne htk.free h512
  refine ⟨(fill_of_ne hne).trans hm,hst.imp (fun hu => ?_) id⟩
  simpa only [htk.bitmap,Function.update_of_ne hne] using hu

theorem Costs.skip : Costs s₀ .ok 0 := fun s h => ⟨fun _ => ⟨s,rfl,h,rfl⟩,fun hlt => by omega⟩

theorem Costs.loop {step : Vm → ℕ → Except Vm Vm} {c : ℕ → ℕ} (l : List ℕ)
    (h : ∀ i ∈ l, Costs s₀ (fun s => step s i) (c i)) :
    Costs s₀ (fun s => l.foldlM step s) (l.map c).sum := by
  induction l with
  | nil => exact Costs.skip
  | cons i l ih =>
    intro s hs
    have hrest := ih fun j hj => h j (by simp [hj])
    obtain ⟨hok,herr⟩ := h i (by simp) s hs
    simp only [List.foldlM_cons,List.map_cons,List.sum_cons]
    by_cases hc : c i ≤ lowFree s.pmm
    · obtain ⟨s₁,h₁,hs₁,hf₁⟩ := hok hc
      change step s i = .ok s₁ at h₁
      obtain ⟨hok₁,herr₁⟩ := hrest s₁ hs₁
      rw [h₁]
      refine ⟨fun hle => ?_,fun hlt => herr₁ (by omega)⟩
      obtain ⟨s₂,h₂,hs₂,hf₂⟩ := hok₁ (by omega)
      exact ⟨s₂,h₂,hs₂,by omega⟩
    · obtain ⟨s₁,h₁⟩ := herr (by omega)
      change step s i = .error s₁ at h₁
      rw [h₁]
      exact ⟨fun hle => by omega,fun _ => ⟨s₁,rfl⟩⟩

theorem Costs.store {x : Vm → Except Vm Vm} {c : ℕ} (h : Costs s₀ x c) (ht : ¬Stable s₀ t) (i : ℕ)
    (w : Word) : Costs s₀ (fun s => (x s).map fun s => s.store t i w) c := by
  intro s hs
  obtain ⟨hok,herr⟩ := h s hs
  refine ⟨fun hle => ?_,fun hlt => ?_⟩
  · obtain ⟨s₁,h₁,hs₁,hf₁⟩ := hok hle
    exact ⟨s₁.store t i w,by simp only [h₁,Except.map],hs₁.store ht i w,hf₁⟩
  · obtain ⟨s₁,h₁⟩ := herr hlt
    exact ⟨s₁,by simp only [h₁,Except.map]⟩

theorem Costs.alloc {x : ℕ → Vm → Except Vm Vm} {c : ℕ} (h : ∀ f, ¬Stable s₀ f → Costs s₀ (x f) c)
    (page : Vm → ℕ → Word) : Costs s₀ (fun s => match pmmAllocPageForTables s.pmm with
      | none => .error s
      | some (f,pmm) => x f { s with pmm := pmm, mem := fill s.mem f (page s) }) (c+1) := by
  intro s hs
  beta_reduce
  cases ha : pmmAllocPageForTables s.pmm with
  | none =>
    have hz := allocForTables_none.mp ha
    exact ⟨fun hle => by omega,fun _ => ⟨s,rfl⟩⟩
  | some r =>
    obtain ⟨f,pmm⟩ := r
    obtain ⟨hf,hs₁⟩ := hs.alloc ha (page s)
    have hfree := lowFree_alloc ha
    obtain ⟨hok,herr⟩ := h f hf _ hs₁
    refine ⟨fun hle => ?_,fun hlt => herr (by simp only; omega)⟩
    obtain ⟨s₂,h₂,hs₂,hf₂⟩ := hok (by simp only; omega)
    exact ⟨s₂,h₂,hs₂,by simp only at hf₂; omega⟩

theorem clonePdEntry_costs (hg : Stable s₀ g) (ht : ¬Stable s₀ t) :
    Costs s₀ (fun s => clonePdEntry g t s i)
      (if link (s₀.mem g i) then tablesBelow s₀.mem 0 (frameOf (s₀.mem g i))+1 else 0) := by
  intro s hs
  have he := congrFun (hs g hg).1 i
  cases hp : present (s₀.mem g i) with
  | false => simpa [clonePdEntry,he,hp,link] using Costs.skip s hs
  | true =>
    cases hh : huge (s₀.mem g i) with
    | true =>
      simpa [clonePdEntry,he,hp,hh,link,Except.map] using Costs.skip.store ht i (s₀.mem g i) s hs
    | false =>
      have hl : link (s₀.mem g i) = true := by simp [link,hp,hh]
      simp only [clonePdEntry,he,hp,hh,hl,Bool.not_true,Bool.false_eq_true,if_false,if_true,tablesBelow]
      exact Costs.alloc (fun f _ => Costs.skip.store ht i (entry f (s₀.mem g i &&& 0xFFF#64)))
        (fun s => s.mem (frameOf (s₀.mem g i))) s hs

theorem cloneTable_costs {inner : ℕ → ℕ → Vm → ℕ → Except Vm Vm} {n : ℕ} (hg : Stable s₀ g)
    (ht : ¬Stable s₀ t) (hh : present (s₀.mem g i) = true → huge (s₀.mem g i) = false)
    (hinner : link (s₀.mem g i) = true → ∀ f, ¬Stable s₀ f → ∀ j < 512,
      Costs s₀ (fun s => inner (frameOf (s₀.mem g i)) f s j)
        (if link (s₀.mem (frameOf (s₀.mem g i)) j) then
          tablesBelow s₀.mem n (frameOf (s₀.mem (frameOf (s₀.mem g i)) j))+1 else 0)) :
    Costs s₀ (fun s => cloneTable inner g t s i)
      (if link (s₀.mem g i) then tablesBelow s₀.mem (n+1) (frameOf (s₀.mem g i))+1 else 0) := by
  intro s hs
  have he := congrFun (hs g hg).1 i
  cases hp : present (s₀.mem g i) with
  | false => simpa [cloneTable,he,hp,link] using Costs.skip s hs
  | true =>
    have hl : link (s₀.mem g i) = true := by simp [link,hp,hh hp]
    simp only [cloneTable,he,hp,hl,Bool.not_true,Bool.false_eq_true,if_false,if_true,tablesBelow]
    exact Costs.alloc (fun f hf => (Costs.loop (List.range 512) fun j hj =>
      hinner hl f hf j (List.mem_range.mp hj)).store ht i _) (fun _ _ => 0) s hs

theorem clonePml4Entry_costs {large : List ℕ → Word → Prop} {src new : ℕ} (hsrc : Source large s₀ src)
    (hnew : ¬Stable s₀ new) :
    Costs s₀ (fun s => clonePml4Entry src new s i) (if i < 256 ∧ link (s₀.mem src i) then
      tablesBelow s₀.mem 2 (frameOf (s₀.mem src i))+1 else 0) := by
  have hroot : Stable s₀ src := hsrc.stable [] src (by simp) (by simp [Low]) (by simp) rfl
  by_cases hi : i < 256
  · have hl1 : Low [i] := by simpa [Low] using hi
    simp only [clonePml4Entry_low _ hi,hi,true_and]
    have hwalk : walkTo s₀.mem src [] = some src := rfl
    refine cloneTable_costs hroot hnew (hsrc.small hwalk (by simp) hl1 (by simp; omega))
      fun hp1 f₁ hf₁ j hj => ?_
    have hw1 : walkTo s₀.mem src [i] = some (frameOf (s₀.mem src i)) := by simp [walkTo,hp1]
    have hl2 : Low [i,j] := by simpa [Low] using hi
    rw [clonePdptEntry_eq]
    refine cloneTable_costs (hsrc.stable _ _ (by simp) hl1 (by simp; omega) hw1) hf₁
      (hsrc.small hw1 (by simp) hl2 (by simp; omega)) fun hp2 f₂ hf₂ k hk => ?_
    refine clonePdEntry_costs (hsrc.stable [i,j] _ (by simp) hl2 (by simp; omega) ?_) hf₂
    simp [walkTo,hp1,hp2]
  · intro s hs
    have he := congrFun (hs src hroot).1 i
    simp only [clonePml4Entry,he,hi,false_and,if_false,Nat.not_lt.mp hi,if_true]
    split
    · exact Costs.skip s hs
    · split
      · exact Costs.skip s hs
      · exact Costs.skip.store hnew i (s₀.mem src i) s hs

/-- A clone succeeds exactly when there is a frame for each of its tables. -/
theorem clone_supply {large : List ℕ → Word → Prop} {src : ℕ} (hsrc : Source large s src) :
    (tablesNeeded s.mem src ≤ lowFree s.pmm → ∃ new s', vmmClonePageTable s src = .ok (new,s') ∧
      lowFree s.pmm = lowFree s'.pmm+tablesNeeded s.mem src) ∧
    (lowFree s.pmm < tablesNeeded s.mem src → ∃ s', vmmClonePageTable s src = .error s') := by
  cases ha : pmmAllocPageForTables s.pmm with
  | none =>
    have hz := allocForTables_none.mp ha
    exact ⟨fun hle => by simp only [tablesNeeded] at hle; omega,fun _ => ⟨s,by simp [vmmClonePageTable,ha]⟩⟩
  | some r =>
    obtain ⟨new,pmm⟩ := r
    have hfree := lowFree_alloc ha
    obtain ⟨hnew,hs₁⟩ := (Keeps.refl s).alloc ha fun _ => 0
    have hloop : Costs s (fun t => (List.range 512).foldlM (clonePml4Entry src new) t)
        (tablesNeeded s.mem src-1) := by
      rw [tablesNeeded,Nat.add_sub_cancel]
      exact Costs.loop (List.range 512) fun i _ => clonePml4Entry_costs hsrc hnew
    have hpos : 0 < tablesNeeded s.mem src := Nat.succ_pos _
    obtain ⟨hok,herr⟩ := hloop _ hs₁
    beta_reduce at hok herr
    simp only [vmmClonePageTable,ha]
    refine ⟨fun hle => ?_,fun hlt => ?_⟩
    · obtain ⟨s₂,h₂,-,hf₂⟩ := hok (by simp only; omega)
      rw [h₂]
      refine ⟨new,_,rfl,?_⟩
      simp only [Vm.store] at hf₂ ⊢
      omega
    · obtain ⟨s₂,h₂⟩ := herr (by simp only; omega)
      rw [h₂]
      exact ⟨s₂,rfl⟩

end

/-! Clones that fail. -/

/-- A clone that fails after it got its root does not give it back. -/
theorem clone_leaks {s s' : Vm} {src : ℕ} (h : vmmClonePageTable s src = .error s')
    (ha : pmmAllocPageForTables s.pmm ≠ none) : freeFrames s'.pmm ≠ freeFrames s.pmm := by
  obtain ⟨⟨new,pmm⟩,ha⟩ := Option.ne_none_iff_exists'.mp ha
  obtain ⟨htk,-,-,hle⟩ := allocForTables_spec ha
  have hlow := s.pmm.zones.low_lt
  have hloop := Grows.loop (Grows.clonePml4Entry src new) (List.range 512)
    { s with pmm := pmm, mem := fill s.mem new fun _ => 0 }
  have hused : s'.pmm.bitmap new = true := by
    simp only [vmmClonePageTable,ha] at h
    cases hx : (List.range 512).foldlM (clonePml4Entry src new)
        { s with pmm := pmm, mem := fill s.mem new fun _ => 0 } with
    | ok t =>
      rw [hx] at h
      cases h
    | error t =>
      rw [hx] at h
      cases h
      exact (hloop s' (Or.inr hx)).bitmap new (by simp only [htk.bitmap,Function.update_self])
  intro he
  have hmem : new ∈ freeFrames s.pmm := by
    simp only [freeFrames,Finset.mem_filter,Finset.mem_range]
    exact ⟨by omega,htk.free⟩
  rw [← he] at hmem
  simp [freeFrames,hused] at hmem

/-- The free frames are what they were exactly if there was none for the root. -/
theorem clone_leak_iff (s : Vm) (src : ℕ) {s' : Vm} (h : vmmClonePageTable s src = .error s') :
    freeFrames s'.pmm = freeFrames s.pmm ↔ lowFree s.pmm = 0 := by
  rw [← allocForTables_none]
  constructor
  · intro he
    by_contra ha
    exact clone_leaks h ha he
  · intro ha
    simp only [vmmClonePageTable,ha,Except.error.injEq] at h
    rw [h]

/-- The boot tables, with the frames for tables from `next` on. -/
def scarceVm (next : ℕ) : Vm := ⟨bootMem 16,{ bootPmm with nextLow := next },16⟩

/-- One frame is left: it becomes the root, and there is none for the first table below it. -/
theorem clone_root_lost : ∃ s', vmmClonePageTable (scarceVm 8191) 16 = .error s' ∧
    freeFrames s'.pmm ≠ freeFrames (scarceVm 8191).pmm := by
  have hfail : (vmmClonePageTable (scarceVm 8191) 16).isOk = false := by decide +kernel
  cases hx : vmmClonePageTable (scarceVm 8191) 16 with
  | ok r =>
    rw [hx] at hfail
    cases hfail
  | error s' => exact ⟨s',rfl,clone_leaks hx (by decide)⟩

theorem clone_leak_iff_empty : ∃ s', vmmClonePageTable (scarceVm 8192) 16 = .error s' ∧
    freeFrames s'.pmm = freeFrames (scarceVm 8192).pmm := by
  have ha : pmmAllocPageForTables (scarceVm 8192).pmm = none := by decide
  have hx : vmmClonePageTable (scarceVm 8192) 16 = .error (scarceVm 8192) := by
    simp only [vmmClonePageTable,ha]
  exact ⟨_,hx,(clone_leak_iff _ _ hx).mpr (allocForTables_none.mp ha)⟩

/-! The way down to a page table. -/

section
variable {large : List ℕ → Word → Prop} {s s' : Vm} {ty : Typing} {t r i f : ℕ} {q path : List ℕ}

/-- The tables that are missing on the way. -/
def missing (m : Mem) : ℕ → List ℕ → ℕ
  | _, [] => 0
  | t, i::path => if link (m t i) then missing m (frameOf (m t i)) path else path.length+1

theorem missing_cons (m : Mem) (t i : ℕ) (path : List ℕ) : missing m t (i::path) =
    if link (m t i) then missing m (frameOf (m t i)) path else path.length+1 := rfl

theorem missing_eq_zero {m : Mem} : missing m t path = 0 ↔ walkTo m t path ≠ none := by
  induction path generalizing t with
  | nil => simp [missing]
  | cons i path ih =>
    simp only [missing,walkTo]
    split
    · exact ih
    · simp

theorem missing_blank {m : Mem} (h : ∀ i, m t i = 0) : missing m t path = path.length := by
  cases path with
  | nil => rfl
  | cons i path => simp [missing,h,link,present]

theorem missing_opens {m m' : Mem} (h : ∀ f i, Opens (m f i) (m' f i)) :
    missing m' t path = missing m t path := by
  induction path generalizing t with
  | nil => rfl
  | cons i path ih =>
    obtain ⟨-,-,hf⟩ := (h t i).bits
    simp only [missing,(h t i).link,hf,ih]

theorem missing_copies {m₀ m : Mem} {n g : ℕ} (h : Copies m₀ m n g t) (hq : path.length = n)
    (hi : ∀ i ∈ path, i < 512) : missing m t path = missing m₀ g path := by
  induction path generalizing n g t with
  | nil => rfl
  | cons i path ih =>
    subst hq
    obtain ⟨hst,hc⟩ := h i (hi i (by simp))
    simp only [missing,hst.link]
    split
    · rename_i hl
      exact ih (hc hl) rfl fun j hj => hi j (by simp [hj])
    · rfl

/-- The way down succeeds exactly when there is a frame for each missing table.  When it fails it
has used up all frames, and the way still does not lead to the end. -/
theorem descend_supply (h : Forest large s ty) (ht : ty t = some (r,q)) (hlen : (q++path).length = 3)
    (hlow : Low (q++path)) (hl : ∀ w, ¬large (q++path) w) (flags : Word) :
    (missing s.mem t path ≤ lowFree s.pmm → ∃ x, descend (dirFlags flags) path s t = .ok x) ∧
    (lowFree s.pmm < missing s.mem t path → ∃ s' ty', descend (dirFlags flags) path s t = .error s' ∧
      Grown s s' ty ty' r ∧ lowFree s'.pmm = 0 ∧ walkTo s'.mem t path = none) := by
  induction path generalizing s ty t q with
  | nil => exact ⟨fun _ => ⟨_,rfl⟩,fun hlt => absurd hlt (Nat.not_lt_zero _)⟩
  | cons i path ih =>
    have hq : q.length < 3 := by
      simp only [List.length_append,List.length_cons] at hlen
      omega
    have hi : q = [] → i < 256 := fun hn => hlow i (by simp [hn])
    have hsmall : present (s.mem t i) = true → huge (s.mem t i) = false := by
      intro hp
      rcases (h.node t r q ht).link i hq hi hp with ⟨hh,-⟩ | ⟨h2,-,hlarge⟩
      · exact hh
      · have hnil : path = [] := by
          simp only [List.length_append,List.length_cons] at hlen
          exact List.length_eq_zero_iff.mp (by omega)
        subst hnil
        exact absurd hlarge (hl _)
    simp only [descend]
    cases hn : nextTable s t i (dirFlags flags) with
    | none =>
      have hp : present (s.mem t i) = false := by
        by_contra hp
        rw [nextTable_present (by simpa using hp)] at hn
        cases hn
      have hz : lowFree s.pmm = 0 := by
        refine allocForTables_none.mp ?_
        cases ha : pmmAllocPageForTables s.pmm with
        | none => rfl
        | some x => simp [nextTable,hp,ha] at hn
      have hno : link (s.mem t i) = false := by simp [link,hp]
      simp only [missing,hno,Bool.false_eq_true,if_false,hz]
      exact ⟨fun hle => by omega,fun _ => ⟨s,ty,rfl,Grown.refl s ty r,hz,by simp [walkTo,hno]⟩⟩
    | some x =>
      obtain ⟨f,s₁⟩ := x
      dsimp only
      obtain ⟨ty₁,h₁,hg₁,-,-,ht₁,hw₁⟩ := nextTable_tree h ht hq hi (fun _ => hsmall) hn
      -- what is missing and what is left both go down by the table that has been added
      have hcount : missing s₁.mem f path ≤ lowFree s₁.pmm ↔ missing s.mem t (i::path) ≤ lowFree s.pmm := by
        rcases nextTable_cases hn with ⟨hp,rfl,rfl⟩ | ⟨hp,pmm,ha,rfl⟩
        · have hlink : link (s.mem t i) = true := by simp [link,hp,hsmall hp]
          rw [missing_opens (m:=s.mem) fun g j => ?_]
          · simp only [missing,hlink,if_true,Vm.store]
          · simp only [Vm.store,store_apply]
            split
            · rename_i he
              obtain ⟨rfl,rfl⟩ := he
              exact (Opens.refl _).open
            · exact Opens.refl _
        · have hlink : link (s.mem t i) = false := by simp [link,hp]
          have hfree := lowFree_alloc ha
          obtain ⟨htk,h512,-,-⟩ := allocForTables_spec ha
          have hft : f ≠ t := (Stable.ne (Or.inl (h.typed t _ ht).2.2) htk.free h512).symm
          rw [missing_blank fun j => by simp [Vm.store,store_of_ne hft]]
          simp only [missing,hlink,Bool.false_eq_true,if_false,Vm.store]
          omega
      have hpath : q++i::path = q++[i]++path := by simp
      rw [hpath] at hlen hlow hl
      obtain ⟨hok,herr⟩ := ih h₁ ht₁ hlen hlow hl
      refine ⟨fun hle => hok (hcount.mpr hle),fun hlt => ?_⟩
      obtain ⟨s₂,ty₂,he,hg₂,hz,hw₂⟩ := herr (by omega)
      obtain ⟨hl₁,hf₁⟩ := walkTo_cons.mp hw₁
      refine ⟨s₂,ty₂,he,hg₁.trans hg₂,hz,?_⟩
      have hopen := hg₂.opened t q i (hg₁.old t _ ht) hq hi (link_present hl₁)
      rw [walkTo,hopen.link,hopen.bits.2.2,Option.some.inj hf₁,hw₂,ite_self]

/-- Mapping a page succeeds exactly when there is a frame for each table that is missing on the way
to it. -/
theorem map_cases (h : Forest large s ty) (hr : ty r = some (r,[])) {v : ℕ} (hv : pml4Idx v < 256)
    (hl : ∀ w, ¬large (pathOf v) w) (phys : ℕ) (flags : Word) :
    missing s.mem r (pathOf v) ≤ lowFree s.pmm ∧ (vmmMapPageInCr3 s r v phys flags).1 = true ∨
      lowFree s.pmm < missing s.mem r (pathOf v) ∧ (vmmMapPageInCr3 s r v phys flags).1 = false ∧
        lowFree (vmmMapPageInCr3 s r v phys flags).2.pmm = 0 ∧
        walkTo (vmmMapPageInCr3 s r v phys flags).2.mem r (pathOf v) = none := by
  have hlen : (pathOf v).length = 3 := rfl
  have hlow := low_pathOf hv
  rw [map_eq_descend]
  generalize pathOf v = path at *
  obtain ⟨hok,herr⟩ := descend_supply h hr (by simpa using hlen) (by simpa using hlow) (by simpa using hl) flags
  by_cases hc : missing s.mem r path ≤ lowFree s.pmm
  · obtain ⟨x,hx⟩ := hok hc
    rw [hx]
    exact Or.inl ⟨hc,rfl⟩
  · obtain ⟨s₁,ty₁,hx,-,hz,hw⟩ := herr (by omega)
    rw [hx]
    exact Or.inr ⟨by omega,rfl,hz,hw⟩

end

/-! Frames for user pages. -/

section
variable {p p' : Pmm} {f : ℕ}

/-- The frames `start`, ..., `start+n-1` from the last one down. -/
def downFrom (start n : ℕ) : List ℕ := (List.range' start n).reverse

theorem downFrom_succ (start n : ℕ) : downFrom start (n+1) = (start+n)::downFrom start n := by
  simp [downFrom,List.range'_concat]

theorem mem_downFrom {start n : ℕ} : f ∈ downFrom start n ↔ start ≤ f ∧ f < start+n := by
  simp [downFrom]

theorem pairwise_downFrom (start n : ℕ) : (downFrom start n).Pairwise (· > ·) := by
  induction n with
  | zero => simp [downFrom]
  | succ n ih =>
    rw [downFrom_succ,List.pairwise_cons]
    exact ⟨fun g hg => by have := mem_downFrom.mp hg; omega,ih⟩

theorem filter_downFrom {start n : ℕ} {free : ℕ → Bool} {rest : List ℕ}
    (h : (downFrom start n).filter free = f::rest) :
    start ≤ f ∧ f < start+n ∧ rest = (downFrom start (f-start)).filter free := by
  induction n with
  | zero => simp [downFrom] at h
  | succ n ih =>
    rw [downFrom_succ,List.filter_cons] at h
    split at h
    · obtain ⟨rfl,rfl⟩ := List.cons.inj h
      exact ⟨by omega,by omega,by rw [Nat.add_sub_cancel_left]⟩
    · obtain ⟨h1,h2,h3⟩ := ih h
      exact ⟨h1,by omega,h3⟩

/-- The frames that can still be handed out from the HIGH zone, in this order. -/
def highFrames (p : Pmm) : List ℕ :=
  if p.zones.highStart = 0 ∧ p.zones.highEnd = 0 then [] else
  (downFrom p.zones.highStart (p.nextHigh+1-p.zones.highStart)).filter fun f => !p.bitmap f

theorem pairwise_highFrames (p : Pmm) : (highFrames p).Pairwise (· > ·) := by
  rw [highFrames]
  split
  · exact List.Pairwise.nil
  · exact (pairwise_downFrom _ _).filter _

theorem allocForElf_none : pmmAllocPageForElf p = none ↔ highFrames p = [] := by
  simp only [pmmAllocPageForElf,pmmAllocPage,true_or,if_true,highFrames]
  split
  · simp
  · simp [downFrom]

theorem highFrames_alloc (h : pmmAllocPageForElf p = some (f,p')) : highFrames p = f::highFrames p' := by
  simp only [pmmAllocPageForElf,pmmAllocPage,true_or,if_true] at h
  split at h
  · cases h
  rename_i hz
  obtain ⟨page,hfind,he⟩ := Option.map_eq_some_iff.mp h
  obtain ⟨rfl,rfl⟩ := Prod.mk.inj he
  rw [← List.head?_filter] at hfind
  obtain ⟨rest,hrest⟩ := List.head?_eq_some_iff.mp hfind
  obtain ⟨h1,h2,h3⟩ := filter_downFrom (f:=page) hrest
  rw [highFrames,if_neg hz,downFrom,hrest,h3,highFrames,Pmm.take,if_neg hz]
  congr 1
  simp only
  split
  · rename_i hlt
    rw [show page-1+1-p.zones.highStart = page-p.zones.highStart by omega]
    refine List.filter_congr fun g hg => ?_
    have hg := mem_downFrom.mp hg
    rw [Function.update_of_ne (by omega)]
  · rename_i hlt
    obtain rfl : page = p.zones.highStart := by omega
    simp [downFrom]

/-- Frames for user pages are not taken from those for tables. -/
theorem allocForElf_lowFree (h : pmmAllocPageForElf p = some (f,p')) : lowFree p' = lowFree p := by
  obtain ⟨htk,hstart,-,hz⟩ := allocForElf_spec h
  have hap := p.zones.apart.resolve_right hz
  refine lowFree_congr htk.zones ?_ fun g hg => by rw [htk.bitmap,Function.update_of_ne (by omega)]
  simp only [pmmAllocPageForElf,pmmAllocPage,true_or,if_true,if_neg hz] at h
  obtain ⟨page,-,he⟩ := Option.map_eq_some_iff.mp h
  rw [← (Prod.mk.inj he).2]
  rfl

theorem highFrames_congr (hz : p'.zones = p.zones) (hn : p'.nextHigh = p.nextHigh)
    (hb : ∀ f, p.zones.lowEnd < f → p'.bitmap f = p.bitmap f) : highFrames p' = highFrames p := by
  rw [highFrames,highFrames,hz,hn]
  split
  · rfl
  rename_i hne
  refine List.filter_congr fun f hf => ?_
  have hap := p.zones.apart.resolve_right hne
  rw [hb f (by have := mem_downFrom.mp hf; omega)]

theorem highFrames_length (p : Pmm) (htop : p.nextHigh ≤ p.zones.highEnd) :
    (highFrames p).length ≤ maxPages := by
  have hlt := p.zones.high_lt
  rw [highFrames]
  split
  · exact Nat.zero_le _
  · refine (List.length_filter_le _ _).trans ?_
    rw [downFrom,List.length_reverse,List.length_range']
    omega

theorem nextTable_highFrames {s s' : Vm} {t i : ℕ} {d : Word} (h : nextTable s t i d = some (f,s')) :
    highFrames s'.pmm = highFrames s.pmm := by
  rcases nextTable_cases h with ⟨-,-,rfl⟩ | ⟨-,pmm,ha,rfl⟩
  · rfl
  · obtain ⟨htk,-,-,hlow⟩ := allocForTables_spec ha
    refine highFrames_congr htk.zones (allocForTables_nextHigh ha) fun g hg => ?_
    simp only [Vm.store,htk.bitmap]
    rw [Function.update_of_ne (by omega)]

theorem descend_highFrames {s : Vm} {t : ℕ} {d : Word} {path : List ℕ} :
    (∀ s', descend d path s t = .error s' → highFrames s'.pmm = highFrames s.pmm) ∧
    (∀ x, descend d path s t = .ok x → highFrames x.2.pmm = highFrames s.pmm) := by
  induction path generalizing s t with
  | nil => simp [descend]
  | cons i path ih =>
    simp only [descend]
    cases hn : nextTable s t i d with
    | none => simp
    | some y =>
      have hy := nextTable_highFrames hn
      exact ⟨fun s' h => (ih.1 s' h).trans hy,fun x h => (ih.2 x h).trans hy⟩

theorem map_highFrames (s : Vm) (cr3 virt phys : ℕ) (flags : Word) :
    highFrames (vmmMapPageInCr3 s cr3 virt phys flags).2.pmm = highFrames s.pmm := by
  rw [map_eq_descend]
  cases hd : descend (dirFlags flags) (pathOf virt) s cr3 with
  | error s' => exact descend_highFrames.1 s' hd
  | ok x => exact descend_highFrames.2 x hd

end

end Memory
end DonsOs
