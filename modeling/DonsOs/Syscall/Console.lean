import DonsOs.Sched.Preempt

/-! Writing to the console: `sys_write` on descriptors 1 and 2.
The call copies the user's bytes chunk by chunk through `g_write_bounce`, one static
buffer for all processes, and puts the characters of a chunk on the serial line and on the
screen one by one.  Interrupts are on throughout, but for `vga_putc` itself, so a tick may
come between any two of the steps below. -/
namespace DonsOs
namespace Console

open Interleave Run Sched

/-- `WRITE_CHUNK`, the size of `g_write_bounce`. -/
def writeChunk : ℕ := 256

inductive Device where
  | serial | vga
deriving DecidableEq

/-- Where a call stands in its chunk loop: about to copy byte `i` of the chunk, about to
read `g_write_bounce[i]`, or about to put the character it read on a device. -/
inductive Phase where
  | copy (i : ℕ)
  | load (i : ℕ)
  | put (d : Device) (i c : ℕ)
deriving DecidableEq

/-- A call of `sys_write`.  `buf` is what the process passed, of which the first `mapped`
bytes can be read, and `written` is how far `user_ptr` has come. -/
structure Call where
  buf : List ℕ
  mapped : ℕ
  written : ℕ
  phase : Phase
deriving DecidableEq

def Call.chunk (c : Call) : ℕ := min writeChunk (c.buf.length-c.written)

/-- A process: its call, if it is in one, and, as a history variable, the bytes it passed
in the calls that have returned. -/
structure Writer where
  call : Option Call
  passed : List ℕ
deriving DecidableEq

/-- What all processes share: `g_write_bounce`, and everything put on a device, with the
process on whose behalf that was done. -/
structure Output where
  bounce : ℕ → ℕ
  log : List (Device × Slot × ℕ)

inductive Op where
  | write (buf : List ℕ) (mapped : ℕ)
  | step
deriving DecidableEq

/-- `sys_write` returns. -/
def Writer.leave (w : Writer) (c : Call) : Writer := ⟨none,w.passed++c.buf⟩

def Writer.at (w : Writer) (c : Call) (phase : Phase) : Writer :=
  { w with call := some { c with phase := phase } }

/-- After the last character of a chunk: the next chunk, if bytes remain. -/
def Writer.nextChunk (w : Writer) (c : Call) : Writer :=
  if c.written+c.chunk < c.buf.length then
    { w with call := some { c with written := c.written+c.chunk, phase := .copy 0 } }
  else w.leave c

/-- One step of the chunk loop of `sys_write`.  A byte that cannot be read makes
`safe_copy_from_user` fail, and the call returns. -/
def advance (self : Slot) (w : Writer) (g : Output) (c : Call) : Writer × Output :=
  match c.phase with
  | .copy i =>
    if c.written+i < c.mapped then
      (w.at c (if i+1 < c.chunk then .copy (i+1) else .load 0),
        { g with bounce := Function.update g.bounce i (c.buf.getD (c.written+i) 0) })
    else (w.leave c,g)
  | .load i => (w.at c (.put .serial i (g.bounce i)),g)
  | .put .serial i ch => (w.at c (.put .vga i ch),{ g with log := g.log++[(.serial,self,ch)] })
  | .put .vga i ch =>
    (if i+1 < c.chunk then w.at c (.load (i+1)) else w.nextChunk c,
      { g with log := g.log++[(.vga,self,ch)] })

def exec (self : Slot) (w : Writer) (g : Output) : Op → Option (Writer × Output)
  | .write buf mapped =>
    if w.call.isSome then none else
    if buf = [] then some (w,g) else some ({ w with call := some ⟨buf,mapped,0,.copy 0⟩ },g)
  | .step => w.call.map (advance self w g)

def console : Program Kernel Slot Writer Output Bool Op :=
  preemptive (fun _ => false) (fun w => w.call.isSome) exec

/-- What has been put on device `d` on behalf of `p`. -/
def Output.emitted (g : Output) (d : Device) (p : Slot) : List ℕ :=
  g.log.filterMap fun x => if x.1 = d ∧ x.2.1 = p then some x.2.2 else none

/-- No process has called `sys_write` yet. -/
def start (k : Kernel) (bounce : ℕ → ℕ) : Machine Kernel Slot Writer Output :=
  ⟨k,fun _ => ⟨none,[]⟩,⟨bounce,[]⟩⟩

/-- The call counts on what is in `g_write_bounce`. -/
def Writer.holds (w : Writer) : Bool := w.call.any fun c => c.phase ≠ .copy 0

/-- The operation stores into `g_write_bounce`. -/
def Writer.stores (w : Writer) : Op → Bool
  | .write _ _ => false
  | .step => w.call.any fun c => match c.phase with
    | .copy _ => true
    | _ => false

/-- Buffers are readable to their end. -/
def Readable (_ : Writer) : Op → Prop
  | .write buf mapped => buf.length ≤ mapped
  | .step => True

instance (w : Writer) : (op : Op) → Decidable (Readable w op)
  | .write buf mapped => inferInstanceAs (Decidable (buf.length ≤ mapped))
  | .step => isTrue trivial

/-- Nothing is stored into `g_write_bounce` while another call counts on it. -/
def Clear (w : Writer) (op : Op) (v : Writer) : Prop := w.stores op = true → v.holds = false

instance (w : Writer) (op : Op) (v : Writer) : Decidable (Clear w op v) :=
  inferInstanceAs (Decidable (w.stores op = true → v.holds = false))

/-! What a call has done so far. -/

/-- How many characters of the current chunk are on device `d`. -/
def Phase.emitted (d : Device) : Phase → ℕ
  | .copy _ => 0
  | .load i => i
  | .put .serial i _ => i
  | .put .vga i _ => if d = .serial then i+1 else i

/-- What is on device `d` of the call that is running. -/
def Writer.sent (w : Writer) (d : Device) : List ℕ :=
  match w.call with
  | none => []
  | some c => c.buf.take (c.written+c.phase.emitted d)

/-- The first `n` bytes of the chunk are in the buffer. -/
def Call.Copied (c : Call) (bounce : ℕ → ℕ) (n : ℕ) : Prop :=
  ∀ j < n, bounce j = c.buf.getD (c.written+j) 0

def Call.Good (c : Call) (bounce : ℕ → ℕ) : Prop :=
  match c.phase with
  | .copy i => i < c.chunk ∧ c.Copied bounce i
  | .load i => i < c.chunk ∧ c.Copied bounce c.chunk
  | .put _ i ch =>
    i < c.chunk ∧ c.Copied bounce c.chunk ∧ ch = c.buf.getD (c.written+i) 0

structure Faithful (p : Slot) (w : Writer) (g : Output) : Prop where
  log : ∀ d, g.emitted d p = w.passed++w.sent d
  mapped : ∀ c, w.call = some c → c.buf.length ≤ c.mapped ∧ c.written < c.buf.length
  good : ∀ c, w.call = some c → c.Good g.bounce

theorem take_next {l : List ℕ} {n : ℕ} (h : n < l.length) :
    l.take (n+1) = l.take n++[l.getD n 0] := by
  rw [List.take_add_one]
  simp [h]

theorem emitted_put (g : Output) (d d' : Device) (p q : Slot) (ch : ℕ) :
    Output.emitted { g with log := g.log++[(d',q,ch)] } d p =
      g.emitted d p++if d' = d ∧ q = p then [ch] else [] := by
  by_cases h : d' = d ∧ q = p <;> simp [Output.emitted,h]

theorem Call.chunk_le (c : Call) : c.chunk ≤ c.buf.length-c.written := Nat.min_le_right _ _

variable {c : Call} {p : Slot} {w : Writer} {g g' : Output}

theorem Call.chunk_pos (h : c.written < c.buf.length) : 0 < c.chunk := by
  simp only [Call.chunk,writeChunk]
  omega

theorem Faithful.at (h : Faithful p w g) (hc : w.call = some c) {phase : Phase}
    (hlog : ∀ d, g'.emitted d p = w.passed++c.buf.take (c.written+phase.emitted d))
    (hgood : Call.Good { c with phase := phase } g'.bounce) : Faithful p (w.at c phase) g' where
  log d := hlog d
  mapped c' hc' := by
    obtain rfl : { c with phase := phase } = c' := Option.some.inj hc'
    exact h.mapped c hc
  good c' hc' := by
    obtain rfl : { c with phase := phase } = c' := Option.some.inj hc'
    exact hgood

theorem Faithful.leave
    (hlog : ∀ d, g.emitted d p = w.passed++c.buf) : Faithful p (w.leave c) g where
  log d := by simp [hlog,Writer.leave,Writer.sent]
  mapped c' hc' := by cases hc'
  good c' hc' := by cases hc'

theorem Faithful.nextChunk (h : Faithful p w g) (hc : w.call = some c)
    (hlog : ∀ d, g'.emitted d p = w.passed++c.buf.take (c.written+c.chunk)) :
    Faithful p (w.nextChunk c) g' := by
  unfold Writer.nextChunk
  split
  · rename_i hlt
    have hmore : c.written+c.chunk < c.buf.length ∧ c.buf.length ≤ c.mapped :=
      ⟨hlt,(h.mapped c hc).1⟩
    refine ⟨hlog,fun c' hc' => ?_,fun c' hc' => ?_⟩ <;> cases hc'
    · exact ⟨hmore.2,hmore.1⟩
    · refine ⟨Call.chunk_pos hmore.1,fun j hj => ?_⟩
      omega
  · rename_i hge
    exact .leave fun d => by rw [hlog d,List.take_of_length_le (by omega)]

theorem Faithful.advance (h : Faithful p w g)
    (hc : w.call = some c) : Faithful p (advance p w g c).1 (advance p w g c).2 := by
  have hlog : ∀ d, g.emitted d p = w.passed++c.buf.take (c.written+c.phase.emitted d) := by
    simpa [Writer.sent,hc] using h.log
  have hgood := h.good c hc
  obtain ⟨hmapped,hwritten⟩ := h.mapped c hc
  have hchunk := c.chunk_le
  unfold Console.advance
  cases hphase : c.phase with
  | copy i =>
    simp only [Call.Good,hphase] at hgood hlog ⊢
    obtain ⟨hi,hcopied⟩ := hgood
    rw [if_pos (by omega)]
    have hcopied' : c.Copied (Function.update g.bounce i (c.buf.getD (c.written+i) 0)) (i+1) := by
      intro j hj
      by_cases hji : j = i
      · simp [hji]
      · simpa [hji] using hcopied j (by omega)
    split
    · rename_i hlt
      exact h.at hc hlog ⟨hlt,hcopied'⟩
    · have hend : c.chunk = i+1 := by omega
      exact h.at hc hlog ⟨Call.chunk_pos hwritten,hend ▸ hcopied'⟩
  | load i =>
    simp only [Call.Good,hphase] at hgood hlog ⊢
    exact h.at hc hlog ⟨hgood.1,hgood.2,hgood.2 i hgood.1⟩
  | put d i ch =>
    simp only [Call.Good,hphase] at hgood hlog
    obtain ⟨hi,hcopied,hch⟩ := hgood
    have hnext := take_next (l:=c.buf) (n:=c.written+i) (by omega)
    cases d with
    | serial =>
      refine h.at hc (fun d => ?_) ⟨hi,hcopied,hch⟩
      rw [emitted_put,hlog d]
      cases d with
      | serial => simp [Phase.emitted,← Nat.add_assoc,hnext,hch]
      | vga => simp [Phase.emitted]
    | vga =>
      have hlog' : ∀ d, Output.emitted { g with log := g.log++[(.vga,p,ch)] } d p =
          w.passed++c.buf.take (c.written+(i+1)) := by
        intro d
        rw [emitted_put,hlog d]
        cases d with
        | serial => simp [Phase.emitted]
        | vga => simp [Phase.emitted,← Nat.add_assoc,hnext,hch]
      simp only
      split
      · rename_i hlt
        exact h.at hc hlog' ⟨hlt,hcopied⟩
      · have hend : c.chunk = i+1 := by omega
        exact h.nextChunk hc (hend ▸ hlog')

theorem advance_emitted {q : Slot} (h : p ≠ q) (w : Writer) (g : Output) (c : Call) (d : Device) :
    (advance p w g c).2.emitted d q = g.emitted d q := by
  unfold advance
  cases c.phase with
  | copy i => simp only; split <;> rfl
  | load i => rfl
  | put d' i ch =>
    cases d' with
    | serial => simpa [h] using emitted_put g d .serial q p ch
    | vga => simpa [h] using emitted_put g d .vga q p ch

theorem advance_bounce (p : Slot) (g : Output) (hc : w.call = some c)
    (h : w.stores .step = false) : (advance p w g c).2.bounce = g.bounce := by
  unfold advance
  cases hphase : c.phase with
  | copy i => simp [Writer.stores,hc,hphase] at h
  | load i => rfl
  | put d i ch => cases d <;> rfl

/-- A call that does not count on the buffer bears any contents of it. -/
theorem Faithful.other {q : Slot} {v : Writer} (h : Faithful q v g)
    (hlog : ∀ d, g'.emitted d q = g.emitted d q)
    (hbounce : g'.bounce = g.bounce ∨ v.holds = false) : Faithful q v g' where
  log d := by rw [hlog d,h.log d]
  mapped := h.mapped
  good c hc := by
    have hgood := h.good c hc
    rcases hbounce with he | hfree
    · rwa [he]
    · have hphase : c.phase = .copy 0 := by simpa [Writer.holds,hc] using hfree
      simp only [Call.Good,hphase] at hgood ⊢
      exact ⟨hgood.1,fun j hj => absurd hj (Nat.not_lt_zero j)⟩

theorem exec_own (p : Slot) (w : Writer) (g : Output) (op : Op) (w' : Writer) (g' : Output)
    (h : Faithful p w g) (hok : Readable w op) (he : exec p w g op = some (w',g')) :
    Faithful p w' g' := by
  cases op with
  | write buf mapped =>
    simp only [exec] at he
    split at he
    · cases he
    rename_i hcall
    have hnone : w.call = none := by simpa using hcall
    split at he <;> cases he
    · exact h
    · rename_i hne
      refine ⟨fun d => ?_,fun c hc => ?_,fun c hc => ?_⟩
      · simpa [Writer.sent,hnone,Phase.emitted] using h.log d
      · cases hc
        exact ⟨hok,List.length_pos_iff.mpr hne⟩
      · cases hc
        exact ⟨Call.chunk_pos (List.length_pos_iff.mpr hne),fun j hj => absurd hj (Nat.not_lt_zero j)⟩
  | step =>
    simp only [exec,Option.map_eq_some_iff] at he
    obtain ⟨c,hc,he⟩ := he
    have := h.advance hc
    rwa [he] at this

theorem exec_other (p q : Slot) (w v : Writer) (g : Output) (op : Op) (w' : Writer) (g' : Output)
    (hpq : p ≠ q) (_ : Faithful p w g) (h : Faithful q v g) (hclear : Clear w op v)
    (he : exec p w g op = some (w',g')) : Faithful q v g' := by
  cases op with
  | write buf mapped =>
    simp only [exec] at he
    split at he
    · cases he
    · split at he <;> cases he <;> exact h
  | step =>
    simp only [exec,Option.map_eq_some_iff] at he
    obtain ⟨c,hc,he⟩ := he
    have hg : (advance p w g c).2 = g' := by rw [he]
    rw [← hg]
    refine h.other (advance_emitted hpq w g c) ?_
    cases hs : w.stores .step with
    | false => exact Or.inl (advance_bounce p g hc hs)
    | true => exact Or.inr (hclear hs)

/-- Processes 1 and 2 each write one character.  The tick that takes the processor from the
first comes after it has filled the buffer and before it reads it back. -/
def overlappingWrites : List (Event Bool Op) :=
  [.exec (.write [65] 1),.exec .step,.tick false,.exec (.write [66] 1),.exec .step,.tick false,
    .exec .step,.exec .step,.exec .step]

/-- The first process has passed `A`; a `B` is put out on its behalf. -/
theorem overlapping_writes_mixed :
    (run console.step (start twoProcesses fun _ => 0) overlappingWrites).map
        (fun m => ((m.thread 1).call,(m.thread 1).passed,m.shared.emitted .vga 1)) =
      some (none,[65],[66]) := by
  decide +kernel

/-- As long as no process stores into the buffer that another process is reading back, what is
put on either device on behalf of a process is what the process passed: all of it when
the process is in no call, and up to some point in the buffer while it is in one. -/
theorem console_output_exact (k : Kernel) (bounce : ℕ → ℕ) {es : List (Event Bool Op)}
    {m : Machine Kernel Slot Writer Output}
    (ha : Admits console.step (Undisturbed console Readable Clear) (start k bounce) es)
    (hr : run console.step (start k bounce) es = some m) (d : Device) (p : Slot) :
    match (m.thread p).call with
    | none => m.shared.emitted d p = (m.thread p).passed
    | some c => ∃ n ≤ c.buf.length, m.shared.emitted d p = (m.thread p).passed++c.buf.take n := by
  have h : Faithful p (m.thread p) m.shared := by
    refine run_threads Faithful exec_own exec_other (fun i => ?_) ha hr p
    exact ⟨fun d => rfl,fun c hc => (by cases hc),fun c hc => (by cases hc)⟩
  have hlog := h.log d
  cases hc : (m.thread p).call with
  | none => simpa [Writer.sent,hc] using hlog
  | some c =>
    simp only [Writer.sent,hc] at hlog
    refine ⟨min c.buf.length (c.written+c.phase.emitted d),Nat.min_le_left _ _,?_⟩
    rw [hlog,List.take_eq_take_min,Nat.min_comm]

/-- Two processes that write one after the other. -/
def separateWrites : List (Event Bool Op) :=
  [.exec (.write [65] 1),.exec .step,.exec .step,.exec .step,.exec .step,.tick true,
    .exec (.write [66] 1),.exec .step,.exec .step,.exec .step,.exec .step]

theorem console_output_exact_separate :
    ∃ m, run console.step (start twoProcesses fun _ => 0) separateWrites = some m ∧
      (m.thread 2).passed = [66] ∧ m.shared.emitted .vga 2 = (m.thread 2).passed := by
  have ha : Admits console.step (Undisturbed console Readable Clear)
      (start twoProcesses fun _ => 0) separateWrites := by decide +kernel
  have hm : (run console.step (start twoProcesses fun _ => 0) separateWrites).map
      (fun m => ((m.thread 2).call,(m.thread 2).passed)) = some (none,[66]) := by decide +kernel
  obtain ⟨m,hr,he⟩ := Option.map_eq_some_iff.mp hm
  have hexact := console_output_exact twoProcesses _ ha hr .vga 2
  rw [(Prod.mk.inj he).1] at hexact
  exact ⟨m,hr,(Prod.mk.inj he).2,hexact⟩

end Console
end DonsOs
