import Mathlib.Data.Nat.Bitwise
import Mathlib.Logic.Function.Basic
import Mathlib.Tactic

/-! Four-level paging over a word-addressed physical memory.
`translation` is what the hardware makes of an address, large pages and the permission bits
of all levels included.  It depends only on the frames that serve as tables. -/
namespace Paging

abbrev Word := BitVec 64

/-- Physical memory, by frame and by word within the frame. -/
abbrev Mem := ℕ → ℕ → Word

def store (m : Mem) (f i : ℕ) (w : Word) : Mem :=
  Function.update m f (Function.update (m f) i w)

def fill (m : Mem) (f : ℕ) (page : ℕ → Word) : Mem := Function.update m f page

theorem store_apply (m : Mem) (f i g j : ℕ) (w : Word) :
    store m f i w g j = if g = f ∧ j = i then w else m g j := by
  by_cases hg : g = f
  · subst hg
    by_cases hj : j = i <;> simp [store,hj]
  · simp [store,hg]

@[simp] theorem store_self (m : Mem) (f i : ℕ) (w : Word) : store m f i w f i = w := by
  simp [store_apply]
variable {w e : Word} {f i : ℕ}

theorem store_of_ne {m : Mem} {g : ℕ} (h : g ≠ f) : store m f i w g = m g := by
  simp [store,h]
@[simp] theorem fill_self (m : Mem) (f : ℕ) (page : ℕ → Word) : fill m f page f = page := by
  simp [fill]
theorem fill_of_ne {m : Mem} {g : ℕ} {page : ℕ → Word} (h : g ≠ f) : fill m f page g = m g := by
  simp [fill,h]
@[simp] theorem store_eq_self (m : Mem) (f i : ℕ) : store m f i (m f i) = m := by
  simp [store]

/-! Bytes. -/

def setByte (w : Word) (k : ℕ) (b : BitVec 8) : Word :=
  w &&& ~~~(0xFF#64 <<< (8*k)) ||| b.zeroExtend 64 <<< (8*k)

theorem setByte_byte (w : Word) {k j : ℕ} (b : BitVec 8) (hj : j < 8) :
    (setByte w k b >>> (8*j)).setWidth 8 = if j = k then b else (w >>> (8*j)).setWidth 8 := by
  have hff : 0xFF#64 = (BitVec.allOnes 8).setWidth 64 := by decide
  apply BitVec.eq_of_getLsbD_eq
  intro i hi
  have hlt : 8*j+i < 64 := by omega
  simp only [setByte,hff,BitVec.truncate_eq_setWidth,BitVec.getLsbD_setWidth,
    BitVec.getLsbD_ushiftRight,BitVec.getLsbD_or,BitVec.getLsbD_and,BitVec.getLsbD_not,
    BitVec.getLsbD_shiftLeft,BitVec.getLsbD_allOnes]
  by_cases he : j = k
  · subst he
    have hsub : 8*j+i-8*j = i := by omega
    simp [hi,hlt,hsub,show i < 64 by omega]
  · rw [if_neg he]
    simp only [BitVec.getLsbD_setWidth,BitVec.getLsbD_ushiftRight]
    by_cases hjk : j < k
    · simp [hlt,show 8*j+i < 8*k by omega]
    · have hbeyond : ¬8*j+i-8*k < 8 := by omega
      simp [hlt,hbeyond,BitVec.getLsbD_of_ge b _ (not_lt.mp hbeyond)]

def storeByte (m : Mem) (a : ℕ) (b : BitVec 8) : Mem :=
  store m (a/4096) (a%4096/8) (setByte (m (a/4096) (a%4096/8)) (a%8) b)

theorem storeByte_of_ne {m : Mem} {a g : ℕ} {b : BitVec 8} (h : g ≠ a/4096) :
    storeByte m a b g = m g := store_of_ne h

/-! Entries. -/

def present (e : Word) : Bool := e.getLsbD 0
def writable (e : Word) : Bool := e.getLsbD 1
def user (e : Word) : Bool := e.getLsbD 2
/-- The page-size bit: the entry maps a large page. -/
def huge (e : Word) : Bool := e.getLsbD 7

/-- The frame an entry points to, its low twelve bits masked out. -/
def frameOf (e : Word) : ℕ := e.toNat/4096

def entry (f : ℕ) (flags : Word) : Word := BitVec.ofNat 64 (f*4096) ||| flags

theorem frameOf_or (h : w.toNat < 4096) : frameOf (e ||| w) = frameOf e := by
  have hw : w.toNat >>> 12 = 0 := by rw [Nat.shiftRight_eq_div_pow]; omega
  have hor : (e.toNat ||| w.toNat) >>> 12 = e.toNat >>> 12 := by
    rw [Nat.shiftRight_or_distrib,hw,Nat.or_zero]
  simpa [frameOf,Nat.shiftRight_eq_div_pow] using hor

theorem frameOf_entry {flags : Word} (hf : f < 2^52) (h : flags.toNat < 4096) :
    frameOf (entry f flags) = f := by
  rw [entry,frameOf_or h,frameOf,BitVec.toNat_ofNat,Nat.mod_eq_of_lt (by omega)]
  omega

theorem getLsbD_entry {flags : Word} (hi : i < 12) :
    (entry f flags).getLsbD i = flags.getLsbD i := by
  have hpow : 4096 = 2^12 := by norm_num
  have hz : (f*4096).testBit i = false := by
    rw [hpow,Nat.testBit_mul_two_pow]
    simp [Nat.not_le.mpr hi]
  simp [entry,BitVec.getLsbD_ofNat,hz]

/-! Addresses. -/

def pml4Idx (v : ℕ) : ℕ := v/2^39%512
def pdptIdx (v : ℕ) : ℕ := v/2^30%512
def pdIdx (v : ℕ) : ℕ := v/2^21%512
def ptIdx (v : ℕ) : ℕ := v/2^12%512

/-- Bits 63 to 47 of a 64-bit address agree. -/
def Canonical (v : ℕ) : Prop := v < 2^47 ∨ 2^64-2^47 ≤ v

instance (v : ℕ) : Decidable (Canonical v) := inferInstanceAs (Decidable (_ ∨ _))

/-! Translation. -/

structure Leaf where
  frame : ℕ
  user : Bool
  writable : Bool
deriving DecidableEq

/-- Bits 51 to 12 of an entry. -/
def physFrame (e : Word) : ℕ := e.toNat/4096%2^40

def translation (m : Mem) (root v : ℕ) : Option Leaf :=
  let e4 := m root (pml4Idx v)
  let e3 := m (physFrame e4) (pdptIdx v)
  let e2 := m (physFrame e3) (pdIdx v)
  let e1 := m (physFrame e2) (ptIdx v)
  if ¬Canonical v then none else
  if !present e4 then none else
  if !present e3 then none else
  if huge e3 then
    some ⟨physFrame e3/2^18*2^18+v/4096%2^18,user e4 && user e3,writable e4 && writable e3⟩ else
  if !present e2 then none else
  if huge e2 then
    some ⟨physFrame e2/512*512+v/4096%512,user e4 && user e3 && user e2,
      writable e4 && writable e3 && writable e2⟩ else
  if !present e1 then none else
  some ⟨physFrame e1,user e4 && user e3 && user e2 && user e1,
    writable e4 && writable e3 && writable e2 && writable e1⟩

/-- The entry that ends the walk for `v`, and the frame it gives to `v`. -/
def leafAt (m : Mem) (root v : ℕ) : Option (Word × ℕ) :=
  let e4 := m root (pml4Idx v)
  let e3 := m (physFrame e4) (pdptIdx v)
  let e2 := m (physFrame e3) (pdIdx v)
  let e1 := m (physFrame e2) (ptIdx v)
  if !present e4 then none else
  if !present e3 then none else
  if huge e3 then some (e3,physFrame e3/2^18*2^18+v/4096%2^18) else
  if !present e2 then none else
  if huge e2 then some (e2,physFrame e2/512*512+v/4096%512) else
  if !present e1 then none else some (e1,physFrame e1)

theorem physFrame_eq (h : frameOf e < 2^40) : physFrame e = frameOf e :=
  Nat.mod_eq_of_lt h

/-! Tables along a path. -/

def pathOf (v : ℕ) : List ℕ := [pml4Idx v,pdptIdx v,pdIdx v]

/-- The entry leads to a table of the next level. -/
def link (e : Word) : Bool := present e && !huge e

def walkTo (m : Mem) : ℕ → List ℕ → Option ℕ
  | t, [] => some t
  | t, i :: path => if link (m t i) then walkTo m (frameOf (m t i)) path else none

@[simp] theorem walkTo_nil (m : Mem) (t : ℕ) : walkTo m t [] = some t := rfl

theorem walkTo_cons {m : Mem} {t g : ℕ} {path : List ℕ} : walkTo m t (i :: path) = some g ↔
    link (m t i) = true ∧ walkTo m (frameOf (m t i)) path = some g := by
  simp [walkTo]

theorem walkTo_append {m : Mem} {t g : ℕ} {p q : List ℕ} : walkTo m t (p++q) = some g ↔
    ∃ u, walkTo m t p = some u ∧ walkTo m u q = some g := by
  induction p generalizing t with
  | nil => simp
  | cons i p ih => simp [walkTo_cons,ih,and_assoc]

theorem walkTo_concat {m : Mem} {t g : ℕ} {p : List ℕ} : walkTo m t (p++[i]) = some g ↔
    ∃ u, walkTo m t p = some u ∧ link (m u i) = true ∧ frameOf (m u i) = g := by
  simp [walkTo_append,walkTo_cons]

/-! What a translation reads. -/

/-- The tables below the root that the walk for `v` reads, from the word `e4` of the root on. -/
def tables (m : Mem) (e4 : Word) (v : ℕ) : List ℕ :=
  let e3 := m (physFrame e4) (pdptIdx v)
  let e2 := m (physFrame e3) (pdIdx v)
  if !present e4 then [] else
  physFrame e4 :: if !link e3 then [] else
  physFrame e3 :: if !link e2 then [] else [physFrame e2]

/-- What holds of the frame that the root names and of every frame that a link names, holds of
the tables of a walk. -/
theorem tables_of_links {m : Mem} {e4 : Word} {P : ℕ → Prop} (h4 : present e4 = true → P (physFrame e4))
    (hl : ∀ f i, link (m f i) = true → P (physFrame (m f i))) (v : ℕ) : ∀ f ∈ tables m e4 v, P f := by
  simp only [tables]
  cases hp4 : present e4 with
  | false => simp
  | true =>
    cases hl3 : link (m (physFrame e4) (pdptIdx v)) with
    | false => simpa using h4 hp4
    | true =>
      cases hl2 : link (m (physFrame (m (physFrame e4) (pdptIdx v))) (pdIdx v)) with
      | false => simpa using ⟨h4 hp4,hl _ _ hl3⟩
      | true => simpa using ⟨h4 hp4,hl _ _ hl3,hl _ _ hl2⟩

theorem translation_absent {m : Mem} {r v : ℕ} (h : present (m r (pml4Idx v)) = false) :
    translation m r v = none ∧ leafAt m r v = none := by
  simp [translation,leafAt,h]

/-- The translation of `v` depends on one word of the root and on the tables below it. -/
theorem translation_congr {m m' : Mem} {r r' v : ℕ} (h4 : m' r' (pml4Idx v) = m r (pml4Idx v))
    (h : ∀ f ∈ tables m (m r (pml4Idx v)) v, m' f = m f) :
    translation m' r' v = translation m r v ∧ leafAt m' r' v = leafAt m r v := by
  simp only [translation,leafAt,h4]
  generalize m r (pml4Idx v) = e4 at h
  cases hp4 : present e4 with
  | false => simp
  | true =>
    have h3 : m' (physFrame e4) = m (physFrame e4) := h _ (by simp [tables,hp4])
    rw [h3]
    generalize he3 : m (physFrame e4) (pdptIdx v) = e3
    cases hl3 : link e3 with
    | false =>
      cases hp3 : present e3 <;> cases hh3 : huge e3 <;> simp [link,hp3,hh3] at hl3 ⊢
    | true =>
      have h2 : m' (physFrame e3) = m (physFrame e3) := h _ (by simp [tables,hp4,he3,hl3])
      rw [h2]
      generalize he2 : m (physFrame e3) (pdIdx v) = e2
      cases hl2 : link e2 with
      | false =>
        cases hp2 : present e2 <;> cases hh2 : huge e2 <;> simp [link,hp2,hh2] at hl2 ⊢
      | true =>
        rw [h _ (by simp [tables,hp4,he3,hl3,he2,hl2] : physFrame e2 ∈ tables m e4 v)]
        exact ⟨rfl,rfl⟩

/-! Copies of tables. -/

/-- The entry `w` stands for `e` in a copy: it is absent as `e` is, or it has the flags of `e`,
and where `e` is a large page it is the same entry. -/
def Stands (e w : Word) : Prop :=
  present e = false ∧ present w = false ∨
    (∀ i < 12, w.getLsbD i = e.getLsbD i) ∧ (huge e = true → w = e)

/-- An entry that is there stands for one that is, with the same bits. -/
theorem Stands.bits (h : Stands e w) (hp : present e = true) : present w = true ∧
    user w = user e ∧ writable w = writable e ∧ huge w = huge e ∧ (huge e = true → w = e) := by
  rcases h with ⟨he,-⟩ | ⟨hf,hh⟩
  · rw [hp] at he
    cases he
  · rw [present] at hp
    rw [present,user,user,writable,writable,huge,huge]
    exact ⟨(hf 0 (by omega)).trans hp,hf 2 (by omega),hf 1 (by omega),hf 7 (by omega),hh⟩

theorem Stands.absent (h : Stands e w) (hp : present e = false) : present w = false := by
  rcases h with ⟨-,hw⟩ | ⟨hf,-⟩
  · exact hw
  · rw [present] at hp ⊢
    exact (hf 0 (by omega)).trans hp

theorem Stands.link (h : Stands e w) : link w = link e := by
  rcases h with ⟨he,hw⟩ | ⟨hf,-⟩
  · simp [Paging.link,he,hw]
  · rw [Paging.link,Paging.link,present,present,huge,huge,hf 0 (by omega),hf 7 (by omega)]

/-- In `m`, the table `t` is a copy of what `g` was in `m₀`, down to the words of the tables
`n` levels below. -/
def Copies (m₀ m : Mem) : ℕ → ℕ → ℕ → Prop
  | 0, g, t => m t = m₀ g
  | n+1, g, t => ∀ i < 512, Stands (m₀ g i) (m t i) ∧
      (link (m₀ g i) = true → Copies m₀ m n (frameOf (m₀ g i)) (frameOf (m t i)))

section
variable {m₀ m m' : Mem} {n g t : ℕ} {q : List ℕ}

theorem Copies.congr (h : Copies m₀ m n g t)
    (hm : ∀ q f, q.length ≤ n → (∀ i ∈ q, i < 512) → walkTo m t q = some f → m' f = m f) :
    Copies m₀ m' n g t := by
  induction n generalizing g t with
  | zero => exact (hm [] t le_rfl (by simp) rfl).trans h
  | succ n ih =>
    intro i hi
    obtain ⟨hst,hc⟩ := h i hi
    have ht : m' t i = m t i := congrFun (hm [] t (Nat.zero_le _) (by simp) rfl) i
    rw [ht]
    refine ⟨hst,fun hg => ih (hc hg) fun q f hq hlt hw => ?_⟩
    exact hm (i :: q) f (by simpa using hq) (by simpa using ⟨hi,hlt⟩)
      (walkTo_cons.mpr ⟨hst.link.trans hg,hw⟩)

theorem Copies.walk (h : Copies m₀ m n g t) (hq : q.length = n) (hi : ∀ i ∈ q, i < 512) :
    (∀ f, walkTo m t q = some f → ∃ f₀, walkTo m₀ g q = some f₀ ∧ m f = m₀ f₀) ∧
    (∀ f₀, walkTo m₀ g q = some f₀ → ∃ f, walkTo m t q = some f ∧ m f = m₀ f₀) := by
  induction q generalizing n g t with
  | nil =>
    subst hq
    exact ⟨fun f hf => ⟨g,rfl,Option.some.inj hf ▸ h⟩,fun f hf => ⟨t,rfl,Option.some.inj hf ▸ h⟩⟩
  | cons i q ih =>
    subst hq
    obtain ⟨hst,hc⟩ := h i (hi i (by simp))
    have hl := hst.link
    cases hg : link (m₀ g i) with
    | false =>
      rw [hg] at hl
      simp [walkTo,hg,hl]
    | true =>
      rw [hg] at hl
      simpa [walkTo,hg,hl] using ih (hc hg) rfl fun j hj => hi j (by simp [hj])

end

/-- The walk for `v` meets no page larger than 2 MB, and its tables have addresses below
`2^52`. -/
def Plain (m : Mem) (root v : ℕ) : Prop :=
  let e4 := m root (pml4Idx v)
  let e3 := m (frameOf e4) (pdptIdx v)
  let e2 := m (frameOf e3) (pdIdx v)
  present e4 = true → huge e4 = false ∧ frameOf e4 < 2^40 ∧
    (present e3 = true → huge e3 = false ∧ frameOf e3 < 2^40 ∧ (link e2 = true → frameOf e2 < 2^40))

theorem translation_copy {m₀ m : Mem} {src new v : ℕ}
    (hst : Stands (m₀ src (pml4Idx v)) (m new (pml4Idx v)))
    (hc : link (m₀ src (pml4Idx v)) = true →
      Copies m₀ m 2 (frameOf (m₀ src (pml4Idx v))) (frameOf (m new (pml4Idx v))))
    (hsrc : Plain m₀ src v) (hnew : Plain m new v) :
    translation m new v = translation m₀ src v ∧ leafAt m new v = leafAt m₀ src v := by
  have h30 : pdptIdx v < 512 := Nat.mod_lt _ (by omega)
  have h21 : pdIdx v < 512 := Nat.mod_lt _ (by omega)
  simp only [Plain] at hsrc hnew
  simp only [translation,leafAt]
  generalize m₀ src (pml4Idx v) = e4 at *
  generalize m new (pml4Idx v) = w4 at *
  cases hp4 : present e4 with
  | false => simp [hst.absent hp4]
  | true =>
  obtain ⟨hpw4,hu4,hw4,-,-⟩ := hst.bits hp4
  obtain ⟨hh4,hf4,hsrc⟩ := hsrc hp4
  obtain ⟨-,hg4,hnew⟩ := hnew hpw4
  rw [physFrame_eq hf4,physFrame_eq hg4]
  obtain ⟨hst3,hc3⟩ := hc (by simp [link,hp4,hh4]) _ h30
  generalize m₀ (frameOf e4) (pdptIdx v) = e3 at *
  generalize m (frameOf w4) (pdptIdx v) = w3 at *
  cases hp3 : present e3 with
  | false => simp [hst3.absent hp3]
  | true =>
  obtain ⟨hpw3,hu3,hw3,hhw3,-⟩ := hst3.bits hp3
  obtain ⟨hh3,hf3,hsrc⟩ := hsrc hp3
  obtain ⟨-,hg3,hnew⟩ := hnew hpw3
  rw [hh3] at hhw3
  rw [physFrame_eq hf3,physFrame_eq hg3]
  obtain ⟨hst2,hc2⟩ := hc3 (by simp [link,hp3,hh3]) _ h21
  generalize m₀ (frameOf e3) (pdIdx v) = e2 at *
  generalize m (frameOf w3) (pdIdx v) = w2 at *
  cases hp2 : present e2 with
  | false => simp [hst2.absent hp2,hpw4,hpw3,hh3,hhw3]
  | true =>
  obtain ⟨hpw2,hu2,hw2,hhw2,hlarge⟩ := hst2.bits hp2
  cases hh2 : huge e2 with
  | true =>
    obtain rfl := hlarge hh2
    simp [hpw4,hpw3,hp2,hh3,hhw3,hh2,hu4,hw4,hu3,hw3]
  | false =>
    have hl2 : link e2 = true := by simp [link,hp2,hh2]
    -- below a link the page tables have the same words
    rw [hh2] at hhw2
    rw [physFrame_eq (hsrc hl2),physFrame_eq (hnew (hst2.link.trans hl2)),hc2 hl2]
    simp [hpw4,hpw3,hpw2,hh3,hhw3,hhw2,hu4,hw4,hu3,hw3,hu2,hw2]

end Paging
