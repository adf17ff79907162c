import Mathlib.Data.List.Basic
import Mathlib.Logic.Function.Basic

/-! A stack of eight-byte words that grows downwards in a memory.
`cell` says which cell of the memory an address means.  What was pushed is popped in the
opposite order, and pushing changes only the cells between the new and the old stack
pointer. -/
namespace DonsOs
namespace Stack

variable {α : Type} (cell : ℕ → α)

/-- The memory after the words have been pushed, the first one first. -/
def pushAll [DecidableEq α] (mem : α → ℕ) (sp : ℕ) : List ℕ → α → ℕ
  | [] => mem
  | w::ws => pushAll (Function.update mem (cell (sp-8)) w) (sp-8) ws

/-- The `n` words that are popped from `sp` on. -/
def popAll (mem : α → ℕ) (sp : ℕ) : ℕ → List ℕ
  | 0 => []
  | n+1 => mem (cell sp)::popAll mem (sp+8) n

variable {cell}

theorem pushAll_other [DecidableEq α] {mem : α → ℕ} {sp : ℕ} {ws : List ℕ} {c : α} (hsp : 8*ws.length ≤ sp)
    (h : ∀ a, sp-8*ws.length ≤ a → a < sp → cell a ≠ c) : pushAll cell mem sp ws c = mem c := by
  induction ws generalizing mem sp with
  | nil => rfl
  | cons w ws ih =>
    simp only [List.length_cons] at hsp h
    have hne : c ≠ cell (sp-8) := (h (sp-8) (by omega) (by omega)).symm
    rw [pushAll,ih (by omega) fun a ha hlt => h a (by omega) (by omega),Function.update_of_ne hne]

theorem pushAll_congr [DecidableEq α] {mem mem' : α → ℕ} {c : α} (h : mem c = mem' c) (sp : ℕ) (ws : List ℕ) :
    pushAll cell mem sp ws c = pushAll cell mem' sp ws c := by
  induction ws generalizing mem mem' sp with
  | nil => exact h
  | cons w ws ih =>
    apply ih
    by_cases hc : c = cell (sp-8)
    · rw [hc,Function.update_self,Function.update_self]
    · rw [Function.update_of_ne hc,Function.update_of_ne hc,h]

theorem pushAll_append [DecidableEq α] (mem : α → ℕ) (sp : ℕ) (ws vs : List ℕ) :
    pushAll cell mem sp (ws++vs) = pushAll cell (pushAll cell mem sp ws) (sp-8*ws.length) vs := by
  induction ws generalizing mem sp with
  | nil => rfl
  | cons w ws ih =>
    have hsp : sp-8-8*ws.length = sp-8*(w::ws).length := by
      simp only [List.length_cons]
      omega
    rw [List.cons_append,pushAll,ih,hsp]
    rfl

theorem popAll_concat (mem : α → ℕ) (sp n : ℕ) :
    popAll cell mem sp (n+1) = popAll cell mem sp n++[mem (cell (sp+8*n))] := by
  induction n generalizing sp with
  | zero => simp [popAll]
  | succ n ih =>
    have hsp : sp+8+8*n = sp+8*(n+1) := by omega
    rw [popAll,ih,popAll,hsp]
    rfl

theorem popAll_congr {cell' : ℕ → α} {mem mem' : α → ℕ} {sp n : ℕ}
    (h : ∀ i < n, mem (cell (sp+8*i)) = mem' (cell' (sp+8*i))) :
    popAll cell mem sp n = popAll cell' mem' sp n := by
  induction n with
  | zero => rfl
  | succ n ih =>
    rw [popAll_concat,popAll_concat,ih fun i hi => h i (by omega),h n (by omega)]

theorem popAll_get (mem : α → ℕ) (sp : ℕ) {n i : ℕ} (hi : i < n) :
    (popAll cell mem sp n)[i]? = some (mem (cell (sp+8*i))) := by
  induction n generalizing sp i with
  | zero => cases hi
  | succ n ih =>
    cases i with
    | zero => rfl
    | succ i =>
      have hsp : sp+8+8*i = sp+8*(i+1) := by omega
      rw [popAll,List.getElem?_cons_succ,ih (sp+8) (by omega),hsp]

theorem popAll_pushAll [DecidableEq α] (hc : Function.Injective cell) (mem : α → ℕ) {sp : ℕ} {ws : List ℕ}
    (hsp : 8*ws.length ≤ sp) :
    popAll cell (pushAll cell mem sp ws) (sp-8*ws.length) ws.length = ws.reverse := by
  induction ws generalizing mem sp with
  | nil => rfl
  | cons w ws ih =>
    simp only [List.length_cons] at hsp ⊢
    have hbase : sp-8*(ws.length+1) = sp-8-8*ws.length := by omega
    have htop : sp-8-8*ws.length+8*ws.length = sp-8 := by omega
    -- the first word pushed is the last popped, and the others went below it
    have hlast : pushAll cell (Function.update mem (cell (sp-8)) w) (sp-8) ws (cell (sp-8)) = w := by
      rw [pushAll_other (by omega) fun a _ hlt e => absurd (hc e) (by omega)]
      simp
    rw [popAll_concat,hbase,htop,pushAll,ih _ (by omega),hlast,List.reverse_cons]

end Stack
end DonsOs
