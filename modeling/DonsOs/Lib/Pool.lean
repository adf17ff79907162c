import Mathlib.Logic.Function.Basic
import Mathlib.Tactic

/-! Blocks that are handed out and given back.
An allocator chooses which block it hands out, and never one that is live; giving back a block
that is not live is a fault.  `Holding` says that a family of references holds every block
handed out since the start, each of them once: a block has then been given back exactly as
often as it was handed out, but for the ones that are held. -/
namespace DonsOs

structure Pool (α : Type) where
  live : α → Bool
  taken : α → ℕ
  freed : α → ℕ
  fault : Bool

namespace Pool

/-- The references `held` hold each block once, and the live blocks are these and the ones of
`base`, which were live at the start. -/
structure Holding {α ω : Type} (base : α → Bool) (m : Pool α) (held : ω → Option α) : Prop where
  live : ∀ a, m.live a = true ↔ base a = true ∨ ∃ w, held w = some a
  apart : ∀ w a, held w = some a → base a = false
  unique : ∀ v w a, held v = some a → held w = some a → v = w
  once : ∀ w a, held w = some a → m.taken a = m.freed a+1
  settled : ∀ a, (∀ w, held w ≠ some a) → m.taken a = m.freed a
  sound : m.fault = false

/-- The live blocks are those of `base` and, each listed once, those of `xs`. -/
structure Beyond {α : Type} (base : α → Bool) (m : Pool α) (xs : List α) : Prop where
  live : ∀ a, m.live a = true ↔ base a = true ∨ a ∈ xs
  apart : ∀ a ∈ xs, base a = false
  nodup : xs.Nodup

namespace Beyond

variable {α : Type}

theorem refl (m : Pool α) : Beyond m.live m [] :=
  ⟨fun a => by simp,fun a ha => by simp at ha,List.nodup_nil⟩

variable {base : α → Bool} {m m' : Pool α} {xs ys : List α} {a : α}

theorem live_eq (h : Beyond base m []) : m.live = base := by
  funext a
  have ha := h.live a
  simp only [List.not_mem_nil,or_false] at ha
  exact Bool.eq_iff_iff.mpr ha

theorem perm (h : Beyond base m xs) (hp : xs.Perm ys) : Beyond base m ys where
  live := fun a => by rw [h.live,hp.mem_iff]
  apart := fun a ha => h.apart a (hp.mem_iff.mpr ha)
  nodup := hp.nodup_iff.mp h.nodup

theorem live_ne (h : Beyond base m xs) (ha : a ∈ xs) : m.live ≠ base := by
  intro he
  have hl := (h.live a).mpr (Or.inr ha)
  rw [he,h.apart a ha] at hl
  cases hl

end Beyond

variable {α ω : Type} [DecidableEq α]

/-- Hand out the block `a`; `none` if it is live and so cannot be chosen. -/
def alloc (m : Pool α) (a : α) : Option (Pool α) :=
  if m.live a then none
  else some { m with
    live := Function.update m.live a true
    taken := Function.update m.taken a (m.taken a+1) }

def free (m : Pool α) (a : α) : Pool α :=
  if m.live a then { m with
    live := Function.update m.live a false
    freed := Function.update m.freed a (m.freed a+1) }
  else { m with fault := true }

theorem alloc_some {m m' : Pool α} {a : α} (h : m.alloc a = some m') : m.live a = false ∧
    m' = { m with
      live := Function.update m.live a true
      taken := Function.update m.taken a (m.taken a+1) } := by
  simp only [alloc] at h
  split at h
  · cases h
  · rename_i hl
    exact ⟨by simpa using hl,(Option.some.inj h).symm⟩

theorem live_alloc {m m' : Pool α} {a : α} (h : m.alloc a = some m') :
    m'.live = Function.update m.live a true := by
  rw [(alloc_some h).2]

theorem live_free (m : Pool α) (a : α) : (m.free a).live = Function.update m.live a false := by
  simp only [free]
  split
  · rfl
  · rename_i hl
    simpa using hl

/-- A block that is handed out and given back again leaves the live blocks as they were. -/
theorem live_borrow {m m' : Pool α} {a : α} (h : m.alloc a = some m') :
    (m'.free a).live = m.live := by
  have hl := (alloc_some h).1
  rw [live_free,live_alloc h,Function.update_idem,← hl,Function.update_eq_self]

namespace Holding

variable {base : α → Bool} {m m' : Pool α} {held : ω → Option α} {a : α} {w : ω}

theorem fresh (h : Holding base m held) (ha : m.alloc a = some m') (v : ω) : held v ≠ some a := by
  intro hv
  have hl := (alloc_some ha).1
  rw [(h.live a).mpr (Or.inr ⟨v,hv⟩)] at hl
  cases hl

variable [DecidableEq ω]

theorem alloc (h : Holding base m held) (ha : m.alloc a = some m') (hw : held w = none) :
    Holding base m' (Function.update held w (some a)) := by
  have hfresh := h.fresh ha
  obtain ⟨hl,rfl⟩ := alloc_some ha
  have hbase : base a = false := by
    by_contra hb
    rw [(h.live a).mpr (Or.inl (by simpa using hb))] at hl
    cases hl
  -- whoever holds another block held it before
  have hold : ∀ v c,c ≠ a → (Function.update held w (some a) v = some c ↔ held v = some c) := by
    intro v c hc
    by_cases hv : v = w
    · subst hv
      simp [hw,Ne.symm hc]
    · simp [hv]
  have hnew : ∀ v,Function.update held w (some a) v = some a → v = w := by
    intro v hv
    by_contra hne
    rw [Function.update_of_ne hne] at hv
    exact hfresh v hv
  refine ⟨fun c => ?_,fun v c hv => ?_,fun v v' c hv hv' => ?_,fun v c hv => ?_,fun c hc => ?_,h.sound⟩
  · by_cases hc : c = a
    · subst hc
      exact ⟨fun _ => Or.inr ⟨w,by simp⟩,fun _ => by simp⟩
    · simpa [hc,hold _ c hc] using h.live c
  · by_cases hc : c = a
    · exact hc ▸ hbase
    · exact h.apart v c ((hold v c hc).mp hv)
  · by_cases hc : c = a
    · subst hc
      rw [hnew v hv,hnew v' hv']
    · exact h.unique v v' c ((hold v c hc).mp hv) ((hold v' c hc).mp hv')
  · by_cases hc : c = a
    · subst hc
      simpa using h.settled c hfresh
    · simpa [hc] using h.once v c ((hold v c hc).mp hv)
  · have hca : c ≠ a := fun e => hc w (by simp [e])
    simpa [hca] using h.settled c fun v hv => hc v ((hold v c hca).mpr hv)

theorem free (h : Holding base m held) (hw : held w = some a) :
    Holding base (m.free a) (Function.update held w none) := by
  have hl := (h.live a).mpr (Or.inr ⟨w,hw⟩)
  have he : m.free a = { m with
      live := Function.update m.live a false
      freed := Function.update m.freed a (m.freed a+1) } := by simp only [Pool.free,hl,if_true]
  -- the block has no other holder
  have hold : ∀ v c,Function.update held w none v = some c ↔ held v = some c ∧ c ≠ a := by
    intro v c
    by_cases hv : v = w
    · subst hv
      simp [hw,eq_comm]
    · simp only [Function.update_of_ne hv]
      refine ⟨fun hc => ⟨hc,fun e => hv (h.unique v w a (e ▸ hc) hw)⟩,fun hc => hc.1⟩
  rw [he]
  refine ⟨fun c => ?_,fun v c hv => ?_,fun v v' c hv hv' => ?_,fun v c hv => ?_,fun c hc => ?_,h.sound⟩
  · by_cases hc : c = a
    · subst hc
      simp [hold,h.apart w c hw]
    · simpa [hc,hold] using h.live c
  · exact h.apart v c ((hold v c).mp hv).1
  · exact h.unique v v' c ((hold v c).mp hv).1 ((hold v' c).mp hv').1
  · obtain ⟨hv,hc⟩ := (hold v c).mp hv
    simpa [hc] using h.once v c hv
  · by_cases hca : c = a
    · subst hca
      simpa using h.once w c hw
    · simpa [hca] using h.settled c fun v hv => hc v ((hold v c).mpr ⟨hv,hca⟩)

/-- A block that is handed out and given back again leaves the references as they were. -/
theorem borrow (h : Holding base m held) (ha : m.alloc a = some m') (hw : held w = none) :
    Holding base (m'.free a) held := by
  have hback := (h.alloc ha hw).free (w:=w) (a:=a) (by simp)
  rwa [Function.update_idem,← hw,Function.update_eq_self] at hback

end Holding

namespace Beyond

variable {base : α → Bool} {m m' : Pool α} {xs ys : List α} {a : α}

theorem fresh (h : Beyond base m xs) (ha : m.alloc a = some m') : base a = false ∧ a ∉ xs := by
  have hl := (alloc_some ha).1
  have hno := (h.live a).not.mp (by simp [hl])
  exact ⟨by simpa using fun hb => hno (Or.inl hb),fun hx => hno (Or.inr hx)⟩

theorem alloc (h : Beyond base m xs) (ha : m.alloc a = some m') : Beyond base m' (a::xs) := by
  obtain ⟨hb,hx⟩ := h.fresh ha
  refine ⟨fun c => ?_,fun c hc => ?_,List.nodup_cons.mpr ⟨hx,h.nodup⟩⟩
  · rw [live_alloc ha]
    by_cases hc : c = a
    · simp [hc]
    · simpa [hc] using h.live c
  · rcases List.mem_cons.mp hc with rfl | hc
    · exact hb
    · exact h.apart c hc

theorem free (h : Beyond base m (a::xs)) : Beyond base (m.free a) xs := by
  obtain ⟨hx,hnodup⟩ := List.nodup_cons.mp h.nodup
  refine ⟨fun c => ?_,fun c hc => h.apart c (List.mem_cons_of_mem _ hc),hnodup⟩
  rw [live_free]
  by_cases hc : c = a
  · subst hc
    simp [hx,h.apart c (by simp)]
  · simpa [hc] using h.live c

theorem freeAll (h : Beyond base m (xs++ys)) : Beyond base (xs.foldl Pool.free m) ys := by
  induction xs generalizing m with
  | nil => exact h
  | cons x xs ih => exact ih h.free

end Beyond
end Pool
end DonsOs
