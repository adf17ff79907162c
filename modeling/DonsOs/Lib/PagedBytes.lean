import Mathlib.Data.Option.Basic
import Mathlib.Data.List.Basic
import Mathlib.Logic.Function.Basic
import Mathlib.Tactic

/-! What pages show.
A space maps pages to frames, and frames hold bytes.  Pages are given frames that were not in
use, with the bytes that these held before, and bytes are stored through the pages.  `Shows`
says what can be read at the pages that have been given a frame since a state `s₀`: the bytes of
a content that is known, and elsewhere the old bytes of the frame. -/
namespace DonsOs
namespace PagedBytes

/-- The frames of the pages, those in use, and what the frames hold. -/
structure Space (Page Frame Byte : Type) where
  map : Page → Option Frame
  inUse : Frame → Bool
  bytes : Frame → ℕ → Byte

/-- What is known of the bytes of each page; `none` is a byte that has not been written since
the page got its frame. -/
abbrev Content (Page Byte : Type) := Page → ℕ → Option Byte

set_option linter.unusedSectionVars false

variable {Page Frame Byte : Type} [DecidableEq Page] [DecidableEq Frame]

namespace Space

/-- The frame `f` is put in use, and `v` is mapped to it if that is possible. -/
def take (s : Space Page Frame Byte) (v : Page) (f : Frame) (mapped : Bool) : Space Page Frame Byte :=
  { s with
    inUse := Function.update s.inUse f true
    map := if mapped then Function.update s.map v (some f) else s.map }

def fill (s : Space Page Frame Byte) (f : Frame) (b : ℕ → Byte) : Space Page Frame Byte :=
  { s with bytes := Function.update s.bytes f b }

/-- `n` bytes of `src` go to the frame `f`, from `off` on. -/
def store (s : Space Page Frame Byte) (f : Frame) (off n : ℕ) (src : ℕ → Byte) :
    Space Page Frame Byte :=
  s.fill f fun o => if off ≤ o ∧ o < off+n then src (o-off) else s.bytes f o

variable (s : Space Page Frame Byte) (v : Page) (f : Frame)

@[simp] theorem take_bytes (mapped : Bool) : (s.take v f mapped).bytes = s.bytes := rfl
@[simp] theorem fill_map (b : ℕ → Byte) : (s.fill f b).map = s.map := rfl
@[simp] theorem fill_inUse (b : ℕ → Byte) : (s.fill f b).inUse = s.inUse := rfl
@[simp] theorem store_map (off n : ℕ) (src : ℕ → Byte) : (s.store f off n src).map = s.map := rfl
@[simp] theorem store_inUse (off n : ℕ) (src : ℕ → Byte) : (s.store f off n src).inUse = s.inUse := rfl

end Space

namespace Content

/-- The page `v` has a new frame. -/
def fresh (c : Content Page Byte) (v : Page) : Content Page Byte :=
  Function.update c v fun _ => none

/-- All bytes of the page `v` are `b`. -/
def constant (c : Content Page Byte) (v : Page) (b : Byte) : Content Page Byte :=
  Function.update c v fun _ => some b

def store (c : Content Page Byte) (v : Page) (off n : ℕ) (src : ℕ → Byte) : Content Page Byte :=
  Function.update c v fun o => if off ≤ o ∧ o < off+n then some (src (o-off)) else c v o

end Content

/-! ## What one run shows -/

/-- The pages `new` have been given frames since `s₀`, each its own, and show `c`. -/
structure Shows (s₀ s : Space Page Frame Byte) (c : Content Page Byte) (new : List Page) : Prop where
  bytes : ∀ v f, s.map v = some f → s₀.inUse f = false → ∀ o, s.bytes f o = (c v o).getD (s₀.bytes f o)
  new_iff : ∀ v f, s.map v = some f → (s₀.inUse f = false ↔ v ∈ new)
  mapped : ∀ v ∈ new, (s.map v).isSome
  apart : ∀ v w f, s.map v = some f → s.map w = some f → s₀.inUse f = false → v = w
  used : ∀ v f, s.map v = some f → s.inUse f = true
  kept : ∀ f, s₀.inUse f = true → s.inUse f = true
  untouched : ∀ f, s.inUse f = false → s.bytes f = s₀.bytes f
  elsewhere : ∀ v, v ∉ new → s.map v = s₀.map v

variable {s₀ s t : Space Page Frame Byte} {c : Content Page Byte} {new : List Page} {v : Page} {f : Frame}

theorem Shows.refl (h : ∀ v f, s.map v = some f → s.inUse f = true) (c : Content Page Byte) :
    Shows s s c [] where
  bytes v f hv hf := by rw [h v f hv] at hf; cases hf
  new_iff v f hv := by simp [h v f hv]
  mapped v hv := by cases hv
  apart v w f hv _ hf := by rw [h v f hv] at hf; cases hf
  used := h
  kept _ hf := hf
  untouched _ _ := rfl
  elsewhere _ _ := rfl

section

variable (h : Shows s₀ s c new)
include h

/-- A frame that is taken now was not in use at the start. -/
theorem Shows.unused (hf : s.inUse f = false) : s₀.inUse f = false := by
  by_contra hne
  rw [h.kept f (by simpa using hne)] at hf
  cases hf

theorem Shows.take_unmapped (hf : s.inUse f = false) : Shows s₀ (s.take v f false) c new where
  bytes := h.bytes
  new_iff := h.new_iff
  mapped := h.mapped
  apart := h.apart
  used w g hw := by
    by_cases hg : g = f
    · simp [Space.take,hg]
    · simpa [Space.take,hg] using h.used w g hw
  kept g hg := by
    by_cases hgf : g = f
    · simp [Space.take,hgf]
    · simpa [Space.take,hgf] using h.kept g hg
  untouched g hg := by
    have hgf : g ≠ f := by
      rintro rfl
      simp [Space.take] at hg
    exact h.untouched g (by simpa [Space.take,hgf] using hg)
  elsewhere := h.elsewhere

theorem Shows.take_mapped (hf : s.inUse f = false) :
    Shows s₀ (s.take v f true) (c.fresh v) (new++[v]) := by
  have hold := h.unused hf
  -- nobody has `f` mapped yet, as it is not in use
  have hne : ∀ w, s.map w ≠ some f := fun w hw => by rw [h.used w f hw] at hf; cases hf
  have hun := h.take_unmapped (v:=v) hf
  refine ⟨fun w g hw ho o => ?_,fun w g hw => ?_,fun w hw => ?_,fun w w' g hw hw' ho => ?_,
    fun w g hw => ?_,hun.kept,hun.untouched,fun w hw => ?_⟩
  · by_cases hwv : w = v
    · subst hwv
      obtain rfl : f = g := by simpa [Space.take] using hw
      simpa [Space.take,Content.fresh] using congrFun (h.untouched f hf) o
    · have hw' : s.map w = some g := by simpa [Space.take,hwv] using hw
      simpa [Content.fresh,hwv] using h.bytes w g hw' ho o
  · by_cases hwv : w = v
    · subst hwv
      obtain rfl : f = g := by simpa [Space.take] using hw
      simp [hold]
    · simpa [hwv] using h.new_iff w g (by simpa [Space.take,hwv] using hw)
  · by_cases hwv : w = v
    · simp [Space.take,hwv]
    · simpa [Space.take,hwv] using h.mapped w (by simpa [hwv] using hw)
  · by_cases hwv : w = v <;> by_cases hwv' : w' = v
    · rw [hwv,hwv']
    · subst hwv
      obtain rfl : f = g := by simpa [Space.take] using hw
      exact absurd (by simpa [Space.take,hwv'] using hw') (hne w')
    · subst hwv'
      obtain rfl : f = g := by simpa [Space.take] using hw'
      exact absurd (by simpa [Space.take,hwv] using hw) (hne w)
    · exact h.apart w w' g (by simpa [Space.take,hwv] using hw) (by simpa [Space.take,hwv'] using hw') ho
  · by_cases hwv : w = v
    · subst hwv
      obtain rfl : f = g := by simpa [Space.take] using hw
      simp [Space.take]
    · exact hun.used w g (by simpa [Space.take,hwv] using hw)
  · have hwv : w ≠ v := fun he => hw (by simp [he])
    simpa [Space.take,hwv] using h.elsewhere w fun hm => hw (by simp [hm])

theorem Shows.fill (hv : s.map v = some f) {b : ℕ → Byte} {c' : ℕ → Option Byte}
    (hb : s₀.inUse f = false → ∀ o, b o = (c' o).getD (s₀.bytes f o)) :
    Shows s₀ (s.fill f b) (Function.update c v c') new where
  bytes w g hw ho o := by
    by_cases hg : g = f
    · subst hg
      obtain rfl := h.apart w v g hw hv ho
      simpa [Space.fill] using hb ho o
    · have hwv : w ≠ v := by
        rintro rfl
        exact hg (Option.some.inj (hw.symm.trans hv))
      simpa [Space.fill,hg,hwv] using h.bytes w g hw ho o
  new_iff := h.new_iff
  mapped := h.mapped
  apart := h.apart
  used := h.used
  kept := h.kept
  untouched g hg := by
    have hgf : g ≠ f := by
      rintro rfl
      rw [Space.fill_inUse,h.used v g hv] at hg
      cases hg
    simpa [Space.fill,hgf] using h.untouched g hg
  elsewhere := h.elsewhere

theorem Shows.fill_hidden (hu : s.inUse f = true) (hf : ∀ v, s.map v ≠ some f)
    (b : ℕ → Byte) : Shows s₀ (s.fill f b) c new where
  bytes w g hw ho o := by
    have hg : g ≠ f := by
      rintro rfl
      exact hf w hw
    simpa [Space.fill,hg] using h.bytes w g hw ho o
  new_iff := h.new_iff
  mapped := h.mapped
  apart := h.apart
  used := h.used
  kept := h.kept
  untouched g hg := by
    have hgf : g ≠ f := by
      rintro rfl
      rw [Space.fill_inUse,hu] at hg
      cases hg
    simpa [Space.fill,hgf] using h.untouched g hg
  elsewhere := h.elsewhere

theorem Shows.store (hv : s.map v = some f) (off n : ℕ) (src : ℕ → Byte) :
    Shows s₀ (s.store f off n src) (c.store v off n src) new := by
  refine h.fill hv fun ho o => ?_
  split
  · rfl
  · exact h.bytes v f hv ho o

/-- A new page whose frame is set to `b` throughout. -/
theorem Shows.take_constant (hf : s.inUse f = false) (mapped : Bool) (b : Byte) :
    Shows s₀ ((s.take v f mapped).fill f fun _ => b) (if mapped then c.constant v b else c)
      (new++if mapped then [v] else []) := by
  cases mapped with
  | false =>
    have hne : ∀ w, s.map w ≠ some f := fun w hw => by rw [h.used w f hw] at hf; cases hf
    simpa using (h.take_unmapped (v:=v) hf).fill_hidden (by simp [Space.take]) hne fun _ => b
  | true =>
    have hmap : (s.take v f true).map v = some f := by simp [Space.take]
    have ht : Shows s₀ ((s.take v f true).fill f fun _ => b)
        (Function.update (c.fresh v) v fun _ => some b) (new++[v]) :=
      (h.take_mapped hf).fill hmap fun _ _ => rfl
    simpa [Content.fresh,Content.constant] using ht

theorem Shows.take (hf : s.inUse f = false) (mapped : Bool) :
    Shows s₀ (s.take v f mapped) (if mapped then c.fresh v else c) (new++if mapped then [v] else []) := by
  cases mapped with
  | false => simpa using h.take_unmapped hf
  | true => exact h.take_mapped hf

end

/-- A loop over pages `page i`, each of them taken if `mapped` says so. -/
theorem Shows.loop {ι : Type} {step : Space Page Frame Byte → ι → Option (Space Page Frame Byte)}
    {page : ι → Page} {mapped : Page → Bool} {write : Content Page Byte → Page → Content Page Byte}
    (hstep : ∀ {s t : Space Page Frame Byte} {c : Content Page Byte} {new : List Page} {i : ι},
      Shows s₀ s c new → step s i = some t →
        Shows s₀ t (if mapped (page i) then write c (page i) else c)
          (new++if mapped (page i) then [page i] else []))
    {is : List ι} (h : Shows s₀ s c new) (ht : is.foldlM step s = some t) :
    Shows s₀ t (((is.map page).filter mapped).foldl write c) (new++(is.map page).filter mapped) := by
  induction is generalizing s c new with
  | nil =>
    obtain rfl : s = t := by simpa using ht
    simpa using h
  | cons i is ih =>
    simp only [List.foldlM_cons,Option.bind_eq_bind,Option.bind_eq_some_iff] at ht
    obtain ⟨s',hs',ht⟩ := ht
    have hi := ih (hstep h hs') ht
    by_cases hm : mapped (page i) = true
    · simpa [hm] using hi
    · simpa [hm] using hi

/-! ## Two runs -/

/-- The same pages and frames, whatever the frames hold. -/
def Alike (s t : Space Page Frame Byte) : Prop := s.map = t.map ∧ s.inUse = t.inUse

/-- What `step` does to the pages and frames does not depend on what the frames hold. -/
def Blind (step : Space Page Frame Byte → Option (Space Page Frame Byte)) : Prop :=
  ∀ ⦃s t s' : Space Page Frame Byte⦄, Alike s t → step s = some s' → ∃ t', step t = some t' ∧ Alike s' t'

theorem Blind.id : Blind (some : Space Page Frame Byte → _) := by
  intro s t s' h hs
  cases hs
  exact ⟨t,rfl,h⟩

theorem Blind.bind {step next : Space Page Frame Byte → Option (Space Page Frame Byte)}
    (hstep : Blind step) (hnext : Blind next) : Blind fun s => (step s).bind next := by
  intro s t s' h hs
  obtain ⟨u,hu,hs⟩ := Option.bind_eq_some_iff.mp hs
  obtain ⟨w,hw,hl⟩ := hstep h hu
  obtain ⟨t',ht',hl'⟩ := hnext hl hs
  exact ⟨t',Option.bind_eq_some_iff.mpr ⟨w,hw,ht'⟩,hl'⟩

theorem Blind.loop {ι : Type} {step : Space Page Frame Byte → ι → Option (Space Page Frame Byte)}
    (hstep : ∀ i, Blind fun s => step s i) (is : List ι) : Blind fun s => is.foldlM step s := by
  induction is with
  | nil => exact Blind.id
  | cons i is ih => simpa only [List.foldlM_cons,Option.bind_eq_bind] using (hstep i).bind ih

theorem Alike.fill (h : Alike s t) (f : Frame) (b b' : ℕ → Byte) : Alike (s.fill f b) (t.fill f b') := h

theorem Alike.take (h : Alike s t) (v : Page) (f : Frame) (mapped : Bool) :
    Alike (s.take v f mapped) (t.take v f mapped) := by
  simp [Alike,Space.take,h.1,h.2]

end PagedBytes
end DonsOs
