import DonsOs.Memory.Tree

/-! `vmm_clone_page_table`.
The three nested loops copy the low half table by table.  The copy has private tables and
the shape of its source, and its page tables hold the very words of the source, those for
user pages included. -/
namespace DonsOs
namespace Memory

open Paging

/-! The source of a clone. -/

/-- The low half of `src`: its tables are in use, and its large pages are 2 MB pages as `large`
allows them. -/
structure Source (large : List ℕ → Word → Prop) (s : Vm) (src : ℕ) : Prop where
  stable : ∀ q f, q.length ≤ 3 → Low q → (∀ i ∈ q, i < 512) → walkTo s.mem src q = some f → Stable s f
  large : ∀ q f i, q.length < 3 → Low (q++[i]) → (∀ j ∈ q++[i], j < 512) →
    walkTo s.mem src q = some f → present (s.mem f i) = true → huge (s.mem f i) = true →
    q.length = 2 ∧ large (q++[i]) (s.mem f i)

variable {large : List ℕ → Word → Prop} {s₀ s s' : Vm} {ty₀ ty ty' : Typing} {src new : ℕ}
variable {path : List ℕ} {n g t i : ℕ}

theorem Source.small (h : Source large s src) (hg : walkTo s.mem src path = some g)
    (hlen : path.length < 2) (hlow : Low (path++[i])) (hidx : ∀ j ∈ path++[i], j < 512)
    (hp : present (s.mem g i) = true) : huge (s.mem g i) = false := by
  cases hh : huge (s.mem g i) with
  | false => rfl
  | true =>
    have hlarge := (h.large path g i (by omega) hlow hidx hg hp hh).1
    omega

theorem Forest.source (h : Forest large s ty) (hr : ty src = some (src,[])) : Source large s src := by
  refine ⟨fun q f hq hlow _ hw => ?_,fun q f i hq hlow _ hw hp hh => ?_⟩
  · exact Or.inl (h.typed f _ (h.walk_typed hr hq hlow hw)).2.2
  · have ht := h.walk_typed hr (q:=q) (by simp; omega) (low_append hlow) hw
    rcases (h.node f src q ht).link i hq (fun hn => hlow i (by simp [hn])) hp with hl | hl
    · rw [hh] at hl
      cases hl.1
    · exact ⟨hl.1,hl.2.2⟩

/-! States in the middle of a clone. -/

theorem bind_ok {ε α β : Type} {x : Except ε α} {f : α → Except ε β} {b : β} (h : x >>= f = .ok b) :
    ∃ a, x = .ok a ∧ f a = .ok b := by
  cases x with
  | error e => cases h
  | ok a => exact ⟨a,rfl,h⟩

theorem map_ok {ε α β : Type} {x : Except ε α} {f : α → β} {b : β} (h : x.map f = .ok b) :
    ∃ a, x = .ok a ∧ f a = b := by
  cases x with
  | error e => cases h
  | ok a => exact ⟨a,rfl,Except.ok.inj h⟩

structure Cloning (large : List ℕ → Word → Prop) (s₀ : Vm) (ty₀ : Typing) (new : ℕ) (s : Vm)
    (ty : Typing) : Prop where
  forest : Forest large s ty
  ext : Extends s₀ s ty₀ ty new
  root : ty new = some (new,[])

/-- Apart from the table `t`, what was in use is as it was. -/
structure Beside (s s' : Vm) (t : ℕ) : Prop where
  keep : ∀ f, Stable s f → f ≠ t → s'.mem f = s.mem f
  stable : ∀ f, Stable s f → Stable s' f

theorem Beside.refl (s : Vm) (t : ℕ) : Beside s s t := ⟨fun _ _ _ => rfl,fun _ h => h⟩

theorem Beside.trans {s'' : Vm} (h : Beside s s' t) (h' : Beside s' s'' t) : Beside s s'' t :=
  ⟨fun f hf hne => (h'.keep f (h.stable f hf) hne).trans (h.keep f hf hne),
    fun f hf => h'.stable f (h.stable f hf)⟩

theorem Beside.store (h : Beside s s' t) (i : ℕ) (w : Word) : Beside s (s'.store t i w) t :=
  ⟨fun f hf hne => (store_of_ne hne).trans (h.keep f hf hne),h.stable⟩

/-- The word `i` of `t` stands for that of `g`, with a copy of the tables below. -/
def Copied (m₀ m : Mem) (n g t i : ℕ) : Prop :=
  Stands (m₀ g i) (m t i) ∧
    (link (m₀ g i) = true → Copies m₀ m n (frameOf (m₀ g i)) (frameOf (m t i)))

/-- What a clone makes of an entry of the upper half. -/
def highWord (page : ℕ → Word) (i : ℕ) : Word :=
  if i = recursivePml4Index ∨ present (page i) = false then 0 else page i

/-- The loop at the table `t` is done with the index `i`. -/
def Done (m₀ m : Mem) (path : List ℕ) (n g t i : ℕ) : Prop :=
  ((path = [] → i < 256) → Copied m₀ m n g t i) ∧
    (path = [] → 256 ≤ i → m t i = highWord (m₀ g) i)

/-- The step of the loop at the table `t` for the index `i`. -/
def StepSpec (large : List ℕ → Word → Prop) (s₀ : Vm) (ty₀ : Typing) (new : ℕ)
    (step : Vm → ℕ → Except Vm Vm) (path : List ℕ) (n g t i : ℕ) : Prop :=
  ∀ s ty s', Cloning large s₀ ty₀ new s ty → ty t = some (new,path) → s.mem t i = 0 →
    step s i = .ok s' →
    ∃ ty', Cloning large s₀ ty₀ new s' ty' ∧ (∀ f x, ty f = some x → ty' f = some x) ∧
      Beside s s' t ∧ (∀ j, j ≠ i → s'.mem t j = s.mem t j) ∧ Done s₀.mem s'.mem path n g t i

theorem Done.keep (hc : Cloning large s₀ ty₀ new s ty) (ht : ty t = some (new,path))
    (hn : path.length+n < 3) (hb : Beside s s' t) (hi : s'.mem t i = s.mem t i)
    (h : Done s₀.mem s.mem path n g t i) : Done s₀.mem s'.mem path n g t i := by
  refine ⟨fun hlow => ?_,fun hp h256 => hi.trans (h.2 hp h256)⟩
  obtain ⟨hst,hcop⟩ := h.1 hlow
  refine ⟨by rw [hi]; exact hst,fun hg => ?_⟩
  rw [hi]
  refine (hcop hg).congr fun q f hq _ hw => ?_
  -- the tables of the copy are typed below `t`, so the step leaves them alone
  have hchild := hc.forest.link_typed ht (by omega) hlow (hst.link.trans hg)
  have hlow' := (hc.forest.node _ _ _ hchild).low.append (by simp) q
  have hf := hc.forest.walk_typed hchild (by simp; omega) hlow' hw
  refine hb.keep f (Or.inl (hc.forest.typed f _ hf).2.2) ?_
  rintro rfl
  have he := (Prod.mk.inj (Option.some.inj (ht.symm.trans hf))).2
  have hlen := congrArg List.length he
  simp at hlen

theorem clone_loop {step : Vm → ℕ → Except Vm Vm} (hn : path.length+n < 3) (l : List ℕ) (hl : l.Nodup)
    (hstep : ∀ i ∈ l, StepSpec large s₀ ty₀ new step path n g t i)
    (hc : Cloning large s₀ ty₀ new s ty) (ht : ty t = some (new,path))
    (hz : ∀ i ∈ l, s.mem t i = 0) (hrun : l.foldlM step s = .ok s') :
    ∃ ty', Cloning large s₀ ty₀ new s' ty' ∧ (∀ f x, ty f = some x → ty' f = some x) ∧
      Beside s s' t ∧ (∀ j, j ∉ l → s'.mem t j = s.mem t j) ∧ ∀ i ∈ l, Done s₀.mem s'.mem path n g t i := by
  induction l generalizing s ty with
  | nil =>
    obtain rfl : s = s' := Except.ok.inj hrun
    exact ⟨ty,hc,fun _ _ h => h,Beside.refl s t,fun _ _ => rfl,by simp⟩
  | cons i l ih =>
    rw [List.nodup_cons] at hl
    rw [List.foldlM_cons] at hrun
    obtain ⟨s₁,h₁,hrun⟩ := bind_ok hrun
    obtain ⟨ty₁,hc₁,hold₁,hb₁,hw₁,hd₁⟩ := hstep i (by simp) s ty s₁ hc ht (hz i (by simp)) h₁
    have hz₁ : ∀ j ∈ l, s₁.mem t j = 0 := fun j hj =>
      (hw₁ j fun e => hl.1 (e ▸ hj)).trans (hz j (by simp [hj]))
    have ht₁ := hold₁ t _ ht
    obtain ⟨ty',hc',hold',hb',hw',hd'⟩ := ih hl.2 (fun j hj => hstep j (by simp [hj])) hc₁ ht₁ hz₁ hrun
    refine ⟨ty',hc',fun f x hf => hold' f x (hold₁ f x hf),hb₁.trans hb',fun j hj => ?_,fun j hj => ?_⟩
    · simp only [List.mem_cons,not_or] at hj
      rw [hw' j hj.2,hw₁ j hj.1]
    · rcases List.mem_cons.mp hj with rfl | hj
      · exact hd₁.keep hc₁ ht₁ hn hb' (hw' j hl.1)
      · exact hd' j hj

/-! The entries that the clone writes. -/

theorem frameOf_masked {f : ℕ} (hf : f < 2^52) (w : Word) : frameOf (entry f (w &&& 0xFFF#64)) = f := by
  refine frameOf_entry hf ?_
  rw [BitVec.toNat_and]
  exact Nat.lt_of_le_of_lt Nat.and_le_right (by decide)

theorem bits_masked (f : ℕ) (w : Word) {i : ℕ} (hi : i < 12) :
    (entry f (w &&& 0xFFF#64)).getLsbD i = w.getLsbD i := by
  have hm : ∀ i < 12, (0xFFF#64).getLsbD i = true := by decide
  rw [getLsbD_entry hi,BitVec.getLsbD_and,hm i hi,Bool.and_true]

theorem stands_masked (f : ℕ) {w : Word} (hh : huge w = false) :
    Stands w (entry f (w &&& 0xFFF#64)) :=
  Or.inr ⟨fun _ hi => bits_masked f w hi,fun h => by rw [hh] at h; cases h⟩

theorem huge_masked (f : ℕ) (w : Word) : huge (entry f (w &&& 0xFFF#64)) = huge w :=
  bits_masked f w (by decide)

/-! Allocation and stores during a clone. -/

theorem Cloning.alloc (hc : Cloning large s₀ ty₀ new s ty) {f : ℕ} {pmm : Pmm}
    (ha : pmmAllocPageForTables s.pmm = some (f,pmm)) {page : ℕ → Word}
    (hn : Node large (fill s.mem f page) (Function.update ty f (some (new,path))) f new path) :
    Cloning large s₀ ty₀ new { s with pmm := pmm, mem := fill s.mem f page }
      (Function.update ty f (some (new,path))) := by
  have hnone := hc.forest.untyped_of_free (allocForTables_spec ha).1.free
  exact ⟨hc.forest.alloc ha (Or.inr hc.root) hn,
    hc.ext.trans (Extends.alloc hc.forest ha page path),update_old hnone _ _ hc.root⟩

theorem Beside.alloc (t : ℕ) {f : ℕ} {pmm : Pmm} (ha : pmmAllocPageForTables s.pmm = some (f,pmm))
    (page : ℕ → Word) : Beside s { s with pmm := pmm, mem := fill s.mem f page } t := by
  obtain ⟨htk,h512,-,-⟩ := allocForTables_spec ha
  refine ⟨fun g hg _ => fill_of_ne (hg.ne htk.free h512),fun g hg => hg.imp (fun hu => ?_) id⟩
  simp only [htk.bitmap,Function.update_of_ne (Stable.ne (Or.inl hu) htk.free h512)]
  exact hu

theorem Cloning.store (hc : Cloning large s₀ ty₀ new s ty) (ht : ty t = some (new,path)) {w : Word}
    (hw : path.length < 3 → (path = [] → i < 256) → present w = true →
      huge w = false ∧ ty (frameOf w) = some (new,path++[i]) ∨
      path.length = 2 ∧ huge w = true ∧ large (path++[i]) w) :
    Cloning large s₀ ty₀ new (s.store t i w) ty :=
  ⟨hc.forest.store ht hw,hc.ext.store ht i w,hc.root⟩

theorem Cloning.keep (hc : Cloning large s₀ ty₀ new s ty) (hnew : ∀ f p, ty₀ f ≠ some (new,p)) {f : ℕ}
    (hf : Stable s₀ f) : s.mem f = s₀.mem f := hc.ext.keep f hf (hnew f)

theorem alloc_lt {p p' : Pmm} {f : ℕ} (ha : pmmAllocPageForTables p = some (f,p')) : f < 2^52 := by
  have hlow := (allocForTables_spec ha).2.2.2
  have hz := p.zones.low_lt
  simp only [maxPages] at hz
  omega

theorem done_of_absent {m₀ m : Mem} (hz : m t i = 0) (hp : present (m₀ g i) = false)
    (hlow : path = [] → i < 256) : Done m₀ m path n g t i := by
  refine ⟨fun _ => ⟨Or.inl ⟨hp,by rw [hz]; rfl⟩,fun h => ?_⟩,fun hp h256 => ?_⟩
  · rw [link_present h] at hp
    cases hp
  · have := hlow hp
    omega

/-- The innermost loop: large pages are copied as they are, page tables word by word. -/
theorem clonePdEntry_spec (hnew : ∀ f p, ty₀ f ≠ some (new,p)) (hsrc : Source large s₀ src)
    (hg : walkTo s₀.mem src path = some g) (hlen : path.length = 2) (hlow : Low path)
    (hidx : ∀ j ∈ path++[i], j < 512) :
    StepSpec large s₀ ty₀ new (clonePdEntry g t) path 0 g t i := by
  intro s ty s' hc ht hz hrun
  have hne : path ≠ [] := by
    rintro rfl
    cases hlen
  have hgm := hc.keep hnew (hsrc.stable path g (by omega) hlow
    (fun j hj => hidx j (List.mem_append_left _ hj)) hg)
  simp only [clonePdEntry,hgm] at hrun
  cases hp : present (s₀.mem g i) with
  | false =>
    obtain rfl : s = s' := by simpa [hp] using hrun
    exact ⟨ty,hc,fun _ _ h => h,Beside.refl s t,fun _ _ => rfl,done_of_absent hz hp fun h => absurd h hne⟩
  | true =>
    have hlow' : Low (path++[i]) := hlow.append hne [i]
    cases hh : huge (s₀.mem g i) with
    | true =>
      obtain rfl : s.store t i (s₀.mem g i) = s' := by simpa [hp,hh] using hrun
      have hlarge := hsrc.large path g i (by omega) hlow' hidx hg hp hh
      refine ⟨ty,hc.store ht fun _ _ _ => Or.inr ⟨hlen,hh,hlarge.2⟩,fun _ _ h => h,
        (Beside.refl s t).store i _,fun j hj => ?_,fun _ => ⟨?_,fun hl => ?_⟩,fun h => absurd h hne⟩
      · simp [Vm.store,store_apply,hj]
      · simp [Vm.store,Stands]
      · simp [link,hh] at hl
    | false =>
      simp only [hp,hh,Bool.not_true,Bool.false_eq_true,if_false] at hrun
      split at hrun
      · cases hrun
      rename_i pt pmm ha
      rw [Except.ok.injEq] at hrun
      subst hrun
      have hlg : link (s₀.mem g i) = true := by simp [link,hp,hh]
      have hstab := hsrc.stable (path++[i]) (frameOf (s₀.mem g i)) (by simp; omega) hlow' hidx
        (walkTo_concat.mpr ⟨g,hg,hlg,rfl⟩)
      rw [hc.keep hnew hstab]
      have hfree := (allocForTables_spec ha).1.free
      have htpt : t ≠ pt :=
        Stable.ne (Or.inl (hc.forest.typed t _ ht).2.2) hfree (allocForTables_spec ha).2.1
      have hnode : Node large (fill s.mem pt (s₀.mem (frameOf (s₀.mem g i))))
          (Function.update ty pt (some (new,path++[i]))) pt new (path++[i]) :=
        ⟨by simp; omega,hlow',by simp,fun j hj => by simp at hj; omega⟩
      have hc₁ := hc.alloc ha hnode
      have hold := update_old (x:=(new,path++[i])) (hc.forest.untyped_of_free hfree)
      refine ⟨_,hc₁.store (hold t _ ht) fun _ _ _ => Or.inl ⟨(huge_masked ..).trans hh,?_⟩,hold,
        (Beside.alloc t ha _).store i _,fun j hj => ?_,fun _ => ⟨?_,fun _ => ?_⟩,fun h => absurd h hne⟩
      · rw [frameOf_masked (alloc_lt ha)]
        exact Function.update_self ..
      · simp [Vm.store,store_apply,hj,fill_of_ne htpt]
      · simp only [Vm.store,store_self]
        exact stands_masked pt hh
      · simp only [Vm.store,store_self,frameOf_masked (alloc_lt ha)]
        simp [Copies,store_of_ne htpt.symm]

/-- The two outer loops are alike: a table is allocated and cleared, filled by the next loop,
and linked. -/
def cloneTable (inner : ℕ → ℕ → Vm → ℕ → Except Vm Vm) (src new : ℕ) (s : Vm) (i : ℕ) : Except Vm Vm :=
  let e := s.mem src i
  if !present e then .ok s else
  match pmmAllocPageForTables s.pmm with
  | none => .error s
  | some (t,pmm) =>
    ((List.range 512).foldlM (inner (frameOf e) t)
      { s with pmm := pmm, mem := fill s.mem t fun _ => 0 }).map fun s =>
        s.store new i (entry t (e &&& 0xFFF#64))

theorem clonePdptEntry_eq : clonePdptEntry = cloneTable clonePdEntry := rfl

theorem clonePml4Entry_low {src new : ℕ} (s : Vm) (hi : i < 256) :
    clonePml4Entry src new s i = cloneTable clonePdptEntry src new s i := by
  have hrec : i ≠ recursivePml4Index := by
    rw [recursivePml4Index]
    omega
  rw [clonePml4Entry,if_neg hrec]
  simp only [if_neg (Nat.not_le.mpr hi)]
  rfl

section

variable (hnew : ∀ f p, ty₀ f ≠ some (new,p)) (hsrc : Source large s₀ src)
include hnew hsrc

theorem cloneTable_spec {inner : ℕ → ℕ → Vm → ℕ → Except Vm Vm}
    (hg : walkTo s₀.mem src path = some g) (hlen : path.length+n+1 < 3) (hlow : Low (path++[i]))
    (hidx : ∀ j ∈ path++[i], j < 512)
    (hinner : ∀ g' t' j, j < 512 → walkTo s₀.mem src (path++[i]) = some g' →
      StepSpec large s₀ ty₀ new (inner g' t') (path++[i]) n g' t' j) :
    StepSpec large s₀ ty₀ new (cloneTable inner g t) path (n+1) g t i := by
  intro s ty s' hc ht hz hrun
  have hi : path = [] → i < 256 := fun h => hlow i (by simp [h])
  have hgm := hc.keep hnew (hsrc.stable path g (by omega) (low_append hlow)
    (fun j hj => hidx j (List.mem_append_left _ hj)) hg)
  simp only [cloneTable,hgm] at hrun
  cases hp : present (s₀.mem g i) with
  | false =>
    obtain rfl : s = s' := by simpa [hp] using hrun
    exact ⟨ty,hc,fun _ _ h => h,Beside.refl s t,fun _ _ => rfl,done_of_absent hz hp hi⟩
  | true =>
    have hh := hsrc.small hg (by omega) hlow hidx hp
    simp only [hp,Bool.not_true,Bool.false_eq_true,if_false] at hrun
    split at hrun
    · cases hrun
    rename_i f pmm ha
    obtain ⟨s₂,hloop,rfl⟩ := map_ok hrun
    have hlg : link (s₀.mem g i) = true := by simp [link,hp,hh]
    have hg' := walkTo_concat.mpr ⟨g,hg,hlg,rfl⟩
    obtain ⟨htk,h512,-,-⟩ := allocForTables_spec ha
    have hst : Stable s t := Or.inl (hc.forest.typed t _ ht).2.2
    have hc₁ := hc.alloc ha (blank_node s.mem _ (by simp; omega) hlow (by simp))
    have hold₁ := update_old (x:=(new,path++[i])) (hc.forest.untyped_of_free htk.free)
    obtain ⟨ty₂,hc₂,hold₂,hb₂,-,hd₂⟩ := clone_loop (t:=f) (by simp; omega) (List.range 512)
      List.nodup_range (fun j hj => hinner _ _ j (List.mem_range.mp hj) hg') hc₁ (Function.update_self ..) (by simp) hloop
    have hb₁ := Beside.alloc t ha fun _ => 0
    -- the inner loop writes into the new table only
    have hkeep : ∀ a, Stable s a → s₂.mem a = s.mem a := fun a hs =>
      (hb₂.keep a (hb₁.stable a hs) (hs.ne htk.free h512)).trans (fill_of_ne (hs.ne htk.free h512))
    have hf₂ : ty₂ f = some (new,path++[i]) := hold₂ f _ (Function.update_self ..)
    have ht₂ := hold₂ t _ (hold₁ t _ ht)
    refine ⟨ty₂,hc₂.store ht₂ fun _ _ _ => Or.inl ⟨(huge_masked ..).trans hh,?_⟩,
      fun a x hx => hold₂ a x (hold₁ a x hx),
      ⟨fun a hs hne => (store_of_ne hne).trans (hkeep a hs),
        fun a hs => hb₂.stable a (hb₁.stable a hs)⟩,fun j hj => ?_,fun _ => ⟨?_,fun _ => ?_⟩,
      fun h h256 => absurd (hi h) (by omega)⟩
    · rw [frameOf_masked (alloc_lt ha)]
      exact hf₂
    · simp only [Vm.store,store_apply,hj,and_false,if_false]
      exact congrFun (hkeep t hst) j
    · simp only [Vm.store,store_self]
      exact stands_masked f hh
    · simp only [Vm.store,store_self,frameOf_masked (alloc_lt ha)]
      have hcop : Copies s₀.mem s₂.mem (n+1) (frameOf (s₀.mem g i)) f := fun j hj =>
        (hd₂ j (List.mem_range.mpr hj)).1 (by simp)
      refine hcop.congr fun q a hq _ hw => store_of_ne ?_
      have ha₂ := hc₂.forest.walk_typed hf₂ (by simp; omega) (hlow.append (by simp) q) hw
      rintro rfl
      have hlen := congrArg List.length (Prod.mk.inj (Option.some.inj (ht₂.symm.trans ha₂))).2
      simp at hlen

/-- Entries of the upper half are shared. -/
theorem clonePml4Entry_high (hi : 256 ≤ i) :
    StepSpec large s₀ ty₀ new (clonePml4Entry src new) [] 2 src new i := by
  intro s ty s' hc ht hz hrun
  have hgm := hc.keep hnew (hsrc.stable [] src (by simp) (by simp [Low]) (by simp) rfl)
  have hnot : ¬(([] : List ℕ) = [] → i < 256) := by
    intro h
    have := h rfl
    omega
  simp only [clonePml4Entry,hgm] at hrun
  by_cases hskip : i = recursivePml4Index ∨ present (s₀.mem src i) = false
  · obtain rfl : s = s' := by
      rcases hskip with h | h
      · simpa [h] using hrun
      · by_cases hr : i = recursivePml4Index
        · simpa [hr] using hrun
        · simpa [hr,h] using hrun
    exact ⟨ty,hc,fun _ _ h => h,Beside.refl s new,fun _ _ => rfl,fun h => absurd h hnot,
      fun _ _ => by rw [highWord,if_pos hskip,hz]⟩
  · have hno := not_or.mp hskip
    rw [Bool.not_eq_false] at hno
    obtain rfl : s.store new i (s₀.mem src i) = s' := by simpa [hno,hi] using hrun
    refine ⟨ty,hc.store ht fun _ h => absurd h hnot,fun _ _ h => h,(Beside.refl s new).store i _,
      fun j hj => ?_,fun h => absurd h hnot,fun _ _ => ?_⟩
    · simp [Vm.store,store_apply,hj]
    · rw [highWord,if_neg hskip]
      simp [Vm.store]

theorem clonePml4Entry_spec (h512 : i < 512) :
    StepSpec large s₀ ty₀ new (clonePml4Entry src new) [] 2 src new i := by
  by_cases hi : i < 256
  · have hlow : Low ([]++[i]) := by simpa [Low] using hi
    have hspec : StepSpec large s₀ ty₀ new (cloneTable clonePdptEntry src new) [] 2 src new i :=
      cloneTable_spec hnew hsrc rfl (by simp) hlow (by simp; omega) fun g₁ t₁ j hj h₁ => by
        have hlow₁ := hlow.append (by simp) [j]
        rw [clonePdptEntry_eq]
        exact cloneTable_spec hnew hsrc h₁ (by simp) hlow₁ (by simp; omega) fun g₂ t₂ k hk h₂ =>
          clonePdEntry_spec hnew hsrc h₂ (by simp) hlow₁ (by simp; omega)
    intro s ty s' hc ht hz hrun
    rw [clonePml4Entry_low s hi] at hrun
    exact hspec s ty s' hc ht hz hrun
  · exact clonePml4Entry_high hnew hsrc (by omega)

end

/-- A clone has private tables for the low half, filled as those of its source, and the entries
of its source for the upper half. -/
theorem clone_spec (h : Forest large s ty) (hsrc : Source large s src)
    (hrun : vmmClonePageTable s src = .ok (new,s')) :
    ∃ ty', Forest large s' ty' ∧ Extends s s' ty ty' new ∧ ty' new = some (new,[]) ∧
      s.pmm.bitmap new = false ∧ s'.mem new 510 = entry new (ptPresent ||| ptWrite) ∧
      (∀ i, 256 ≤ i → i < 512 → i ≠ 510 → s'.mem new i = highWord (s.mem src) i) ∧
      ∀ i < 256, Copied s.mem s'.mem 2 src new i := by
  simp only [vmmClonePageTable] at hrun
  split at hrun
  · cases hrun
  rename_i new' pmm ha
  obtain ⟨s₂,hloop,he⟩ := map_ok hrun
  obtain ⟨rfl,rfl⟩ := Prod.mk.inj he
  have hfree := (allocForTables_spec ha).1.free
  have hnew : ∀ f p, ty f ≠ some (new',p) := fun f p hf => by
    have hroot := h.root f _ hf
    rw [h.untyped_of_free hfree] at hroot
    cases hroot
  have hc₁ : Cloning large s ty new' { s with pmm := pmm, mem := fill s.mem new' fun _ => 0 }
      (Function.update ty new' (some (new',[]))) :=
    ⟨h.alloc ha (Or.inl ⟨rfl,rfl⟩) (blank_node s.mem _ (by simp) (by simp [Low]) fun _ => rfl),
      Extends.alloc h ha _ [],Function.update_self ..⟩
  obtain ⟨ty₂,hc₂,-,-,-,hd₂⟩ := clone_loop (by simp) (List.range 512) List.nodup_range
    (fun i hi => clonePml4Entry_spec hnew hsrc (List.mem_range.mp hi)) hc₁ hc₁.root (by simp) hloop
  have hstore : ∀ i, i ≠ 510 → (s₂.store new' recursivePml4Index
      (entry new' (ptPresent ||| ptWrite))).mem new' i = s₂.mem new' i := by
    intro i hi
    rw [← recursivePml4Index] at hi
    simp [Vm.store,store_apply,hi]
  have hc₃ := hc₂.store (i:=recursivePml4Index) (w:=entry new' (ptPresent ||| ptWrite)) hc₂.root
    fun _ h => absurd (h rfl) (by simp [recursivePml4Index])
  refine ⟨ty₂,hc₃.forest,hc₃.ext,hc₃.root,hfree,store_self ..,fun i h256 h512 hi => ?_,fun i hi => ?_⟩
  · rw [hstore i hi]
    exact (hd₂ i (List.mem_range.mpr h512)).2 rfl h256
  · have hd := (hd₂ i (List.mem_range.mpr (by omega))).keep hc₂ hc₂.root (by simp)
      ((Beside.refl s₂ new').store recursivePml4Index _) (hstore i (by omega))
    exact hd.1 fun _ => hi

end Memory
end DonsOs
