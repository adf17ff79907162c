import DonsOs.Drivers.Keyboard
import DonsOs.Lib.Refine

/-! The ring of the keyboard as a queue.
One cell of `kbd_buffer` stays free, so the ring holds 127 characters.  It is compared with
a record of all characters taken in since the last flush and of how many of them were
fetched. -/
namespace DonsOs
namespace Drivers

open Refine
open Sched (kbdBufferSize)

inductive KeyOp where
  | put (c : Char)
  | get
  | flush
deriving DecidableEq

inductive KeyAnswer where
  | put (accepted : Bool)
  | get (c : Option Char)
  | flush
deriving DecidableEq

def ringStep (r : Ring) : KeyOp → KeyAnswer × Ring
  | .put c => (.put (kbdBufferPut r c).1,(kbdBufferPut r c).2)
  | .get => (.get (kbdBufferGet r).1,(kbdBufferGet r).2)
  | .flush => (.flush,keyboardBufferFlush r)

/-! What the ring is for. -/

/-- The characters accepted since the last flush, of which the first `fetched` were given out. -/
structure Traffic where
  accepted : List Char
  fetched : ℕ
  bound : fetched ≤ accepted.length

def Traffic.none : Traffic := ⟨[],0,le_rfl⟩

def Traffic.pending (t : Traffic) : List Char := t.accepted.drop t.fetched

def Traffic.accept (t : Traffic) (c : Char) : Traffic :=
  ⟨t.accepted++[c],t.fetched,by
    have := t.bound
    simp only [List.length_append]
    omega⟩

/-- At most 127 characters wait; none of them is NUL; each is given out once, in turn. -/
def Traffic.step (t : Traffic) : KeyOp → KeyAnswer × Traffic
  | .put c =>
    if c ≠ nul ∧ t.accepted.length-t.fetched < 127 then (.put true,t.accept c) else (.put false,t)
  | .get =>
    if h : t.fetched < t.accepted.length then
      (.get (some t.accepted[t.fetched]),⟨t.accepted,t.fetched+1,h⟩)
    else (.get Option.none,t)
  | .flush => (.flush,Traffic.none)

/-! The connection. -/

/-- The cells from `tail` on, and up to `head`, hold the characters of `q`. -/
structure Ring.Holds (r : Ring) (q : List Char) : Prop where
  room : q.length < kbdBufferSize
  head : r.head.val = (r.tail.val+q.length)%kbdBufferSize
  cells : ∀ i c, q[i]? = some c → r.buffer (Fin.ofNat kbdBufferSize (r.tail.val+i)) = c

variable {r : Ring} {q : List Char}

theorem next_val (i : Fin kbdBufferSize) : (i+1).val = (i.val+1)%kbdBufferSize := by
  rw [Fin.val_add]
  rfl

/-- The cell behind `head` is the one at `tail` exactly when 127 characters wait. -/
theorem Ring.Holds.full_iff (h : r.Holds q) : r.head+1 = r.tail ↔ q.length = 127 := by
  have hroom := h.room
  have hhead := h.head
  have htail := r.tail.isLt
  rw [Fin.ext_iff,next_val,hhead]
  simp only [kbdBufferSize] at *
  omega

theorem Ring.Holds.empty_iff (h : r.Holds q) : r.head = r.tail ↔ q = [] := by
  have hroom := h.room
  have hhead := h.head
  have htail := r.tail.isLt
  rw [Fin.ext_iff,hhead,← List.length_eq_zero_iff]
  simp only [kbdBufferSize] at *
  omega

theorem Ring.Holds.put (h : r.Holds q) (hq : q.length < 127) (c : Char) :
    { r with buffer := Function.update r.buffer r.head c, head := r.head+1 }.Holds (q++[c]) := by
  have hhead := h.head
  have htail := r.tail.isLt
  refine ⟨?_,?_,?_⟩
  · simp only [List.length_append,List.length_singleton,kbdBufferSize]
    omega
  · simp only [next_val,hhead,List.length_append,List.length_singleton]
    rw [Nat.mod_add_mod,Nat.add_assoc]
  · intro i d hd
    -- the new character went to the cell at `head`, which no older one occupies
    by_cases hi : i < q.length
    · rw [List.getElem?_append_left hi] at hd
      have hne : Fin.ofNat kbdBufferSize (r.tail.val+i) ≠ r.head := by
        rw [Ne,Fin.ext_iff,Fin.val_ofNat,hhead]
        simp only [kbdBufferSize] at *
        omega
      simpa only [Function.update_of_ne hne] using h.cells i d hd
    · rw [List.getElem?_append_right (by omega),List.getElem?_singleton] at hd
      split at hd
      · obtain rfl : i = q.length := by omega
        have heq : Fin.ofNat kbdBufferSize (r.tail.val+q.length) = r.head := by
          rw [Fin.ext_iff,Fin.val_ofNat,hhead]
        simpa only [heq,Function.update_self] using Option.some.inj hd
      · simp at hd

theorem Ring.Holds.first {c : Char} (h : r.Holds (c::q)) : r.buffer r.tail = c := by
  have hfirst := h.cells 0 c rfl
  rwa [Nat.add_zero,Fin.ofNat_val_eq_self] at hfirst

theorem Ring.Holds.get {c : Char} (h : r.Holds (c::q)) : { r with tail := r.tail+1 }.Holds q := by
  have hroom := h.room
  have hhead := h.head
  simp only [List.length_cons] at hroom hhead
  refine ⟨by omega,?_,?_⟩
  · simp only [next_val,hhead]
    rw [Nat.mod_add_mod]
    congr 1
    omega
  · intro i d hd
    have hcell := h.cells (i+1) d (by simpa using hd)
    have hidx : Fin.ofNat kbdBufferSize ((r.tail+1).val+i) =
        Fin.ofNat kbdBufferSize (r.tail.val+(i+1)) := by
      rw [Fin.ext_iff,Fin.val_ofNat,Fin.val_ofNat,next_val,Nat.mod_add_mod]
      congr 1
      omega
    rw [hidx]
    exact hcell

theorem Ring.holds_nil (hr : r.Empty) : r.Holds [] := by
  have htail := r.tail.isLt
  refine ⟨by decide,?_,by simp⟩
  rw [show r.head = r.tail from hr,List.length_nil,Nat.add_zero,Nat.mod_eq_of_lt htail]

theorem Traffic.pending_length (t : Traffic) : t.pending.length = t.accepted.length-t.fetched := by
  simp [Traffic.pending]

theorem Traffic.accept_pending (t : Traffic) (c : Char) : (t.accept c).pending = t.pending++[c] := by
  simp [Traffic.pending,Traffic.accept,List.drop_append_of_le_length t.bound]

theorem Traffic.pending_cons {t : Traffic} (h : t.fetched < t.accepted.length) :
    t.pending = t.accepted[t.fetched]::(⟨t.accepted,t.fetched+1,h⟩ : Traffic).pending :=
  List.drop_eq_getElem_cons h

theorem ringStep_refines :
    Refines ringStep Traffic.step (fun _ _ => True) fun r t => r.Holds t.pending := by
  intro r t op h _
  cases op with
  | put c =>
    have hlen := t.pending_length
    simp only [ringStep,Traffic.step,kbdBufferPut,h.full_iff,hlen]
    have hroom := h.room
    rw [hlen,kbdBufferSize] at hroom
    by_cases hc : c = nul
    · rw [if_pos hc,if_neg fun hok => hok.1 hc]
      exact ⟨rfl,h⟩
    · by_cases hfull : t.accepted.length-t.fetched = 127
      · rw [if_neg hc,if_pos hfull,if_neg (by omega)]
        exact ⟨rfl,h⟩
      · have hlt : t.accepted.length-t.fetched < 127 := by omega
        rw [if_neg hc,if_neg hfull,if_pos ⟨hc,hlt⟩]
        refine ⟨rfl,?_⟩
        rw [Traffic.accept_pending]
        exact h.put (by omega) c
  | get =>
    simp only [ringStep,Traffic.step,kbdBufferGet,h.empty_iff]
    by_cases hlt : t.fetched < t.accepted.length
    · have hcons := Traffic.pending_cons hlt
      rw [hcons] at h
      rw [dif_pos hlt,if_neg (by simp [hcons])]
      exact ⟨by rw [h.first],h.get⟩
    · have hnil : t.pending = [] := List.drop_eq_nil_of_le (by omega)
      rw [dif_neg hlt,if_pos hnil]
      exact ⟨rfl,h⟩
  | flush => exact ⟨rfl,Ring.holds_nil (flush_empty r)⟩

/-- From `keyboard_init` on, the ring answers every call as the record does: it is a queue of
capacity 127. -/
theorem keyboard_ring_fifo (ops : List KeyOp) :
    let r := perform ringStep keyboardInit.ring ops
    let t := perform Traffic.step Traffic.none ops
    r.1 = t.1 ∧ r.2.Holds t.2.pending ∧ t.2.pending.length ≤ 127 ∧
      r.2.head.val ≤ 127 ∧ r.2.tail.val ≤ 127 := by
  intro r t
  obtain ⟨hanswers,hholds⟩ := ringStep_refines.perform (Ring.holds_nil (rfl : keyboardInit.ring.Empty))
    (meets_of_forall (fun _ _ => trivial) Traffic.none ops)
  have hroom := hholds.room
  exact ⟨hanswers,hholds,Nat.lt_succ_iff.mp hroom,Nat.lt_succ_iff.mp r.2.head.isLt,
    Nat.lt_succ_iff.mp r.2.tail.isLt⟩

end Drivers
end DonsOs
