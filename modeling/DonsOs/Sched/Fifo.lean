import DonsOs.Sched.Queue

/-! The ready queue as a queue.
What the link fields of the PCBs spell is a list without repetitions; insertion appends to
it, the next process is its head, and removal of a PCB erases it if it is there. -/
namespace DonsOs
namespace Sched

open LinkedQueue

variable {k : Kernel} {xs : List Slot}

theorem add_queue (k : Kernel) (p : Slot) : (readyQueueAdd k p).queue = k.queue.add p := by
  simp only [readyQueueAdd]
  split <;> rfl

theorem next_pop (k : Kernel) :
    (readyQueueNext k).1 = k.queue.pop.1 ∧ (readyQueueNext k).2.queue = k.queue.pop.2 := by
  cases hh : k.queue.head with
  | none => simp [readyQueueNext,Links.pop,hh]
  | some p => simp [readyQueueNext,Links.pop,hh]

theorem represents_add (h : Represents k.queue xs) {p : Slot} (hp : p ∉ xs) :
    Represents (readyQueueAdd k p).queue (xs++[p]) := by
  rw [add_queue]
  exact h.add hp

theorem represents_next (h : Represents k.queue xs) :
    (readyQueueNext k).1 = xs.head? ∧ Represents (readyQueueNext k).2.queue xs.tail := by
  rw [(next_pop k).1,(next_pop k).2]
  exact h.pop

theorem represents_remove (h : Represents k.queue xs) (p : Slot) :
    Represents (readyQueueRemove k p).queue (xs.erase p) :=
  h.remove p

/-- Each operation on the links is the operation on the list. -/
theorem readyQueue_fifo (h : Represents k.queue xs) :
    (∀ p, p ∉ xs → Represents (readyQueueAdd k p).queue (xs++[p])) ∧
      (readyQueueNext k).1 = xs.head? ∧ Represents (readyQueueNext k).2.queue xs.tail ∧
      ∀ p, Represents (readyQueueRemove k p).queue (xs.erase p) :=
  ⟨fun _ hp => represents_add h hp,(represents_next h).1,(represents_next h).2,represents_remove h⟩

/-- Three queued PCBs: one in the middle of the queue leaves, as does one that is not there. -/
theorem readyQueue_fifo_three :
    let k := { boot none with queue := ofList [3,1,2] }
    Represents k.queue [3,1,2] ∧ Represents (readyQueueAdd k 5).queue [3,1,2,5] ∧
      (readyQueueNext k).1 = some 3 ∧ Represents (readyQueueNext k).2.queue [1,2] ∧
      Represents (readyQueueRemove k 1).queue [3,2] ∧
      Represents (readyQueueRemove k 7).queue [3,1,2] := by
  have h : Represents { boot none with queue := ofList [3,1,2] }.queue [3,1,2] :=
    represents_iff.mpr ⟨by decide,rfl⟩
  obtain ⟨hadd,hfirst,hnext,hremove⟩ := readyQueue_fifo h
  exact ⟨h,hadd 5 (by decide),hfirst,hnext,hremove 1,hremove 7⟩

end Sched
end DonsOs
