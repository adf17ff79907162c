import Mathlib.Data.List.Basic

/-! Runs of a partial step function, and loops that may stop early.
A run feeds a list of events to `step`; `Admits ok` asks that every event be
acceptable in the state in which it arrives.  The two rules below carry an
invariant along a run: one also proves that the run is never stuck. -/
namespace DonsOs
namespace Run

variable {σ ε : Type} (step : σ → ε → Option σ) (ok : σ → ε → Prop)

def run : σ → List ε → Option σ
  | s, [] => some s
  | s, e::es => (step s e).bind fun t => run t es

/-- Every event of the run meets `ok` in the state before it. -/
def Admits : σ → List ε → Prop
  | _, [] => True
  | s, e::es => ok s e ∧ ∀ t, step s e = some t → Admits t es

variable {step ok}

theorem admits_cons {s : σ} {e : ε} {es : List ε} :
    Admits step ok s (e::es) ↔ ok s e ∧ ∀ t ∈ step s e, Admits step ok t es := by
  simp [Admits]

/-- A condition on the events alone. -/
theorem admits_of_forall {ok : ε → Prop} {es : List ε} (h : ∀ e ∈ es, ok e) (s : σ) :
    Admits step (fun _ => ok) s es := by
  induction es generalizing s with
  | nil => trivial
  | cons e es ih => exact ⟨h e (by simp),fun t _ => ih (fun e he => h e (by simp [he])) t⟩

instance decidableAdmits [∀ s e, Decidable (ok s e)] :
    (s : σ) → (es : List ε) → Decidable (Admits step ok s es)
  | _, [] => isTrue trivial
  | _, _::es =>
    have : ∀ t, Decidable (Admits step ok t es) := fun t => decidableAdmits t es
    decidable_of_iff _ admits_cons.symm

theorem run_cons {s : σ} {e : ε} {es : List ε} {t : σ} (h : run step s (e::es) = some t) :
    ∃ u, step s e = some u ∧ run step u es = some t := by
  simpa [run,Option.bind_eq_some_iff] using h

theorem run_append (s : σ) (es fs : List ε) :
    run step s (es++fs) = (run step s es).bind fun t => run step t fs := by
  induction es generalizing s with
  | nil => simp [run]
  | cons e es ih => cases h : step s e <;> simp [run,h,ih]

/-- What every step keeps, every run keeps. -/
theorem run_keeps (inv : σ → Prop) (hstep : ∀ s e t, inv s → step s e = some t → inv t)
    {s t : σ} {es : List ε} (hs : inv s) (hr : run step s es = some t) : inv t := by
  induction es generalizing s with
  | nil => simp only [run,Option.some.injEq] at hr; exact hr ▸ hs
  | cons e es ih =>
    obtain ⟨u,hu,hr⟩ := run_cons hr
    exact ih (hstep s e u hs hu) hr

/-- What every acceptable step keeps, every acceptable run keeps. -/
theorem run_invariant (inv : σ → Prop)
    (hstep : ∀ s e t, inv s → ok s e → step s e = some t → inv t)
    {s t : σ} {es : List ε} (hs : inv s) (ha : Admits step ok s es)
    (hr : run step s es = some t) : inv t := by
  induction es generalizing s with
  | nil => simp only [run,Option.some.injEq] at hr; exact hr ▸ hs
  | cons e es ih =>
    obtain ⟨u,hu,hr⟩ := run_cons hr
    exact ih (hstep s e u hs ha.1 hu) (ha.2 u hu) hr

/-- When acceptable steps always go through, so do acceptable runs. -/
theorem run_total (inv : σ → Prop)
    (hstep : ∀ s e, inv s → ok s e → ∃ t, step s e = some t ∧ inv t)
    {s : σ} {es : List ε} (hs : inv s) (ha : Admits step ok s es) :
    ∃ t, run step s es = some t ∧ inv t := by
  induction es generalizing s with
  | nil => exact ⟨s,rfl,hs⟩
  | cons e es ih =>
    obtain ⟨u,hu,hinv⟩ := hstep s e hs ha.1
    obtain ⟨t,ht,hti⟩ := ih hinv (ha.2 u hu)
    exact ⟨t,by simp [run,hu,ht],hti⟩

/-! Counted loops. -/

/-- `for (i = 0; i < n; i++)`: what holds after `i` turns, for every `i`, holds at the end. -/
theorem foldl_range_rule {P : ℕ → σ → Prop} {body : σ → ℕ → σ} {n : ℕ} {s : σ} (hs : P 0 s)
    (h : ∀ i s, i < n → P i s → P (i+1) (body s i)) : P n ((List.range n).foldl body s) := by
  induction n with
  | zero => exact hs
  | succ n ih =>
    rw [List.range_succ,List.foldl_append]
    exact h n _ (by omega) (ih fun i s hi => h i s (by omega))

/-! Loops that may stop early. -/

/-- A loop leaves a state behind, whether it comes to its end or stops. -/
def Ends (P Q : σ → Prop) : Except σ σ → Prop
  | .ok s => P s
  | .error s => Q s

variable {α : Type} {loop : σ → α → Except σ σ}

/-- What holds after `k` turns, for every `k`, holds at the end. -/
theorem foldlM_ends {P : ℕ → σ → Prop} {Q : σ → Prop} {l : List α} {s : σ} (hs : P 0 s)
    (h : ∀ k a s, l[k]? = some a → P k s → Ends (P (k+1)) Q (loop s a)) :
    Ends (P l.length) Q (l.foldlM loop s) := by
  induction l generalizing P s with
  | nil => exact hs
  | cons a l ih =>
    have h₁ := h 0 a s rfl hs
    rw [List.foldlM_cons]
    cases he : loop s a with
    | error t => rwa [he] at h₁
    | ok t =>
      rw [he] at h₁
      exact ih (P:=fun k => P (k+1)) h₁ fun k b u hk => h (k+1) b u (by simpa using hk)

end Run
end DonsOs
