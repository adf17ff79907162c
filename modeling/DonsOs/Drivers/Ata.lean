import Mathlib.Data.List.Basic
import Mathlib.Tactic.IntervalCases
import Mathlib.Tactic.Ring

/-! The write path of the ATA driver, over the ports of the primary channel.
The device is any machine that answers port reads; the channel records what the
host programs into the address registers and every command it sends, with the
registers as they stand at that moment.  The boot area is the part of the master
below `writeProtectLbas`. -/
namespace DonsOs
namespace Drivers

inductive Port
  | seccount | lbaLo | lbaMid | lbaHi | driveHead | status | altStatus
  deriving DecidableEq, Repr

/-- What a port access does to the device, and what it reads. -/
structure Device (σ : Type) where
  inb : Port → σ → BitVec 8 × σ
  outb : Port → BitVec 8 → σ → σ
  outw : BitVec 16 → σ → σ

/-- The address registers as the host last wrote them. -/
structure Taskfile where
  seccount : BitVec 8
  lbaLo : BitVec 8
  lbaMid : BitVec 8
  lbaHi : BitVec 8
  driveHead : BitVec 8
  deriving DecidableEq, Repr

/-- A byte written to the command port, and the registers it finds. -/
structure Command where
  opcode : BitVec 8
  regs : Taskfile
  deriving DecidableEq, Repr

structure Channel (σ : Type) where
  regs : Taskfile
  commands : List Command
  device : σ

def srBsy : BitVec 8 := 0x80
def srDf : BitVec 8 := 0x20
def srDrq : BitVec 8 := 0x08
def srErr : BitVec 8 := 0x01
def cmdWriteSectors : BitVec 8 := 0x30
def cmdFlushCache : BitVec 8 := 0xE7
def ataDriveMaster : BitVec 8 := 0
def ataDriveSlave : BitVec 8 := 1
def driveMasterLba : BitVec 8 := 0xE0
def driveSlaveLba : BitVec 8 := 0xF0
def writeProtectLbas : ℕ := 2048

/-! How the controller reads the registers of a command. -/

/-- Bit 4 of the drive/head register selects the slave. -/
def Command.toMaster (m : Command) : Bool := !m.regs.driveHead.getLsbD 4

def Command.address (m : Command) : BitVec 28 :=
  m.regs.driveHead.extractLsb' 0 4 ++ m.regs.lbaHi ++ m.regs.lbaMid ++ m.regs.lbaLo

def Command.sectors (m : Command) : ℕ :=
  if m.regs.seccount = 0 then 256 else m.regs.seccount.toNat

/-- The controller counts on from the address in its 28 bits. -/
def Command.Covers (m : Command) (s : ℕ) : Prop :=
  ∃ i < m.sectors, s = (m.address.toNat+i)%2^28

/-- No write command to the master covers a sector of the boot area. -/
def Protected (sent : List Command) : Prop :=
  ∀ m ∈ sent, m.opcode = cmdWriteSectors → m.toMaster → ∀ s, m.Covers s → writeProtectLbas ≤ s

section Driver
variable {σ : Type} (D : Device σ)

def Channel.inb (p : Port) (c : Channel σ) : BitVec 8 × Channel σ :=
  ((D.inb p c.device).1,{ c with device := (D.inb p c.device).2 })

def Taskfile.set (r : Taskfile) (v : BitVec 8) : Port → Taskfile
  | .seccount => { r with seccount := v }
  | .lbaLo => { r with lbaLo := v }
  | .lbaMid => { r with lbaMid := v }
  | .lbaHi => { r with lbaHi := v }
  | .driveHead => { r with driveHead := v }
  | .status => r
  | .altStatus => r

/-- A byte for the status port is a command. -/
def Channel.outb (p : Port) (v : BitVec 8) (c : Channel σ) : Channel σ where
  regs := c.regs.set v p
  commands := if p = .status then c.commands++[⟨v,c.regs⟩] else c.commands
  device := D.outb p v c.device

def Channel.outw (v : BitVec 16) (c : Channel σ) : Channel σ :=
  { c with device := D.outw v c.device }

/-- `ata_400ns_delay`: four reads of the alternate status, the values dropped. -/
def ata400nsDelay (c : Channel σ) : Channel σ :=
  (((c.inb D .altStatus).2.inb D .altStatus).2.inb D .altStatus).2.inb D .altStatus |>.2

/-- Both polling loops: read the status until `verdict` decides, or give up. -/
def poll (verdict : BitVec 8 → Option ℤ) : ℕ → Channel σ → ℤ × Channel σ
  | 0, c => (-1,c)
  | n+1, c =>
    if (c.inb D .status).1 = 0xFF then (-1,(c.inb D .status).2)
    else match verdict (c.inb D .status).1 with
      | some rc => (rc,(c.inb D .status).2)
      | none => poll verdict n (c.inb D .status).2

def bsyClear (st : BitVec 8) : Option ℤ :=
  if st&&&srBsy = 0 then
    if st&&&srErr ≠ 0 then some (-2) else if st&&&srDf ≠ 0 then some (-2) else some 0
  else none

def drqSet (st : BitVec 8) : Option ℤ :=
  if st&&&srBsy = 0 then
    if st&&&srErr ≠ 0 then some (-2) else if st&&&srDf ≠ 0 then some (-2)
    else if st&&&srDrq ≠ 0 then some 0 else none
  else none

def ataPollBsyClear (c : Channel σ) : ℤ × Channel σ := poll D bsyClear 1000000 c

def ataPollDrq (c : Channel σ) : ℤ × Channel σ := poll D drqSet 1000000 c

/-- `sel`: the drive, in LBA mode, with the top four bits of the address. -/
def selectByte (drive : BitVec 8) (lba : BitVec 32) : BitVec 8 :=
  (if drive = ataDriveMaster then driveMasterLba else driveSlaveLba)
    |||((lba>>>24)&&&0x0F).setWidth 8

def ataSelectDrive (drive : BitVec 8) (lba : BitVec 32) (c : Channel σ) : Channel σ :=
  ata400nsDelay D (c.outb D .driveHead (selectByte drive lba))

/-- The data phase of a write command: one DRQ block of 256 words a sector. -/
def sendSectors (buf : ℕ → BitVec 16) : ℕ → ℕ → Channel σ → ℤ × Channel σ
  | 0, _, c => (0,c)
  | n+1, p, c =>
    if (ataPollDrq D c).1 ≠ 0 then ataPollDrq D c
    else sendSectors buf n (p+256) (ata400nsDelay D
      ((List.range 256).foldl (fun c i => c.outw D (buf (p+i))) (ataPollDrq D c).2))

/-- The five address registers, then the command. -/
def programWrite (drive : BitVec 8) (lba : BitVec 32) (count : BitVec 8) (c : Channel σ) :
    Channel σ :=
  let c := ataSelectDrive D drive lba c
  let c := c.outb D .seccount count
  let c := c.outb D .lbaLo ((lba&&&0xFF).setWidth 8)
  let c := c.outb D .lbaMid (((lba>>>8)&&&0xFF).setWidth 8)
  let c := c.outb D .lbaHi (((lba>>>16)&&&0xFF).setWidth 8)
  ata400nsDelay D (c.outb D .status cmdWriteSectors)

def ataWriteChunk (drive : BitVec 8) (lba : BitVec 32) (count : BitVec 8) (buf : ℕ → BitVec 16)
    (c : Channel σ) : ℤ × Channel σ :=
  if (ataPollBsyClear D c).1 ≠ 0 then ataPollBsyClear D c
  else sendSectors D buf (if count = 0 then 256 else count.toNat) 0
    (programWrite D drive lba count (ataPollBsyClear D c).2)

/-- `chunk`, at most 256 sectors of what is left. -/
def chunkOf (count : BitVec 32) : BitVec 32 := if 256 < count then 256 else count

/-- `sc`: the sector count register writes 256 as 0. -/
def sectorCount (chunk : BitVec 32) : BitVec 8 := if chunk = 256 then 0 else chunk.setWidth 8

/-- The loop of `ata_write_sectors_drive`; `n` bounds its turns. -/
def writeChunks (drive : BitVec 8) : ℕ → BitVec 32 → BitVec 32 → (ℕ → BitVec 16) → Channel σ →
    ℤ × Channel σ
  | 0, _, _, _, c => (0,c)
  | n+1, lba, count, buf, c =>
    if count = 0 then (0,c)
    else
      let r := ataWriteChunk D drive lba (sectorCount (chunkOf count)) buf c
      if r.1 ≠ 0 then r
      else writeChunks drive n (lba+chunkOf count) (count-chunkOf count)
        (fun k => buf (k+(chunkOf count).toNat*256)) r.2

def flushCache (c : Channel σ) : ℤ × Channel σ :=
  if (ataPollBsyClear D c).1 ≠ 0 then ataPollBsyClear D c
  else ataPollBsyClear D (ata400nsDelay D ((ataPollBsyClear D c).2.outb D .status cmdFlushCache))

/-- `s_present`, `s_default_drive` and the disk layout the kernel is built for. -/
structure Setup where
  present : BitVec 8 → Bool
  defaultDrive : BitVec 8
  singleDrive : Bool

variable (u : Setup)

def Setup.fatDrive : BitVec 8 := if u.singleDrive then ataDriveMaster else ataDriveSlave

def Setup.fatPartitionOffset : BitVec 32 := if u.singleDrive then 2048 else 0

def ataWriteSectorsDrive (drive : BitVec 8) (lba count : BitVec 32) (buf : ℕ → BitVec 16)
    (c : Channel σ) : ℤ × Channel σ :=
  if ataDriveSlave < drive then (-1,c)
  else if u.present drive = false then (-1,c)
  else if count = 0 then (0,c)
  else if drive = ataDriveMaster ∧ lba.toNat < writeProtectLbas then (-2,c)
  else if lba+count ≤ lba then (-1,c)
  else
    let r := writeChunks D drive count.toNat lba count buf c
    if r.1 ≠ 0 then r else flushCache D r.2

def ataWriteSectorDrive (drive : BitVec 8) (lba : BitVec 32) (buf : ℕ → BitVec 16)
    (c : Channel σ) : ℤ × Channel σ :=
  ataWriteSectorsDrive D u drive lba 1 buf c

def ataWriteSectors (lba count : BitVec 32) (buf : ℕ → BitVec 16) (c : Channel σ) :
    ℤ × Channel σ :=
  ataWriteSectorsDrive D u u.defaultDrive lba count buf c

def ataWriteSector (lba : BitVec 32) (buf : ℕ → BitVec 16) (c : Channel σ) : ℤ × Channel σ :=
  ataWriteSectorDrive D u u.defaultDrive lba buf c

inductive DResult
  | ok | error | parerr
  deriving DecidableEq, Repr

/-- FatFs counts sectors from the start of its volume. -/
def diskWrite (pdrv : BitVec 8) (buf : ℕ → BitVec 16) (sector count : BitVec 32)
    (c : Channel σ) : DResult × Channel σ :=
  if pdrv ≠ 0 ∨ count = 0 then (.parerr,c)
  else
    let r := ataWriteSectorsDrive D u u.fatDrive (sector+u.fatPartitionOffset) count buf c
    (if r.1 = 0 then .ok else .error,r.2)

/-- The ways into the write path. -/
inductive Call
  | sectorsDrive (drive : BitVec 8) (lba count : BitVec 32) (buf : ℕ → BitVec 16)
  | sectorDrive (drive : BitVec 8) (lba : BitVec 32) (buf : ℕ → BitVec 16)
  | sectors (lba count : BitVec 32) (buf : ℕ → BitVec 16)
  | sector (lba : BitVec 32) (buf : ℕ → BitVec 16)
  | diskWrite (pdrv : BitVec 8) (buf : ℕ → BitVec 16) (lba count : BitVec 32)

def Call.perform : Call → Channel σ → Channel σ
  | .sectorsDrive drive lba count buf, c => (ataWriteSectorsDrive D u drive lba count buf c).2
  | .sectorDrive drive lba buf, c => (ataWriteSectorDrive D u drive lba buf c).2
  | .sectors lba count buf, c => (ataWriteSectors D u lba count buf c).2
  | .sector lba buf, c => (ataWriteSector D u lba buf c).2
  | .diskWrite pdrv buf lba count, c => (Drivers.diskWrite D u pdrv buf lba count c).2

def performAll (calls : List Call) (c : Channel σ) : Channel σ :=
  calls.foldl (fun c k => k.perform D u c) c

/-! What the calls put on the command log. -/

/-- The write command `ata_write_chunk` programs. -/
def writeCommand (drive : BitVec 8) (lba : BitVec 32) (count : BitVec 8) : Command where
  opcode := cmdWriteSectors
  regs :=
    { seccount := count
      lbaLo := (lba&&&0xFF).setWidth 8
      lbaMid := ((lba>>>8)&&&0xFF).setWidth 8
      lbaHi := ((lba>>>16)&&&0xFF).setWidth 8
      driveHead := selectByte drive lba }

theorem writeCommand_address (drive : BitVec 8) (lba : BitVec 32) (count : BitVec 8) :
    (writeCommand drive lba count).address = lba.setWidth 28 := by
  unfold Command.address writeCommand selectByte driveMasterLba driveSlaveLba
  ext i hi
  by_cases h : drive = ataDriveMaster
  all_goals
    simp only [h,if_true,if_false,BitVec.getElem_append]
    interval_cases i <;> simp

theorem writeCommand_toMaster (drive : BitVec 8) (lba : BitVec 32) (count : BitVec 8) :
    (writeCommand drive lba count).toMaster ↔ drive = ataDriveMaster := by
  unfold Command.toMaster writeCommand selectByte driveMasterLba driveSlaveLba
  split_ifs <;> simp [*]

theorem chunkOf_toNat (count : BitVec 32) : (chunkOf count).toNat = min 256 count.toNat := by
  unfold chunkOf
  split_ifs with h
  · have : 256 < count.toNat := h
    rw [min_eq_left this.le]
    rfl
  · have : count.toNat ≤ 256 := Nat.le_of_not_lt h
    exact (min_eq_right this).symm

variable {count : BitVec 32} {m : Command} {c : Channel σ}

/-- The register and the loop agree on the size of a chunk. -/
theorem writeCommand_sectors (drive : BitVec 8) (lba : BitVec 32) (h : count ≠ 0) :
    (writeCommand drive lba (sectorCount (chunkOf count))).sectors = min 256 count.toNat := by
  have hc := chunkOf_toNat count
  have h₀ : count.toNat ≠ 0 := by simpa [BitVec.toNat_eq] using h
  unfold Command.sectors writeCommand sectorCount
  by_cases h₁ : chunkOf count = 256
  · have h₂ : (chunkOf count).toNat = 256 := by rw [h₁]; rfl
    simp only [h₁,if_true]
    omega
  · have h₂ : (chunkOf count).toNat ≠ 256 := by simpa [BitVec.toNat_eq] using h₁
    have h₃ : ((chunkOf count).setWidth 8).toNat = min 256 count.toNat := by
      rw [BitVec.toNat_setWidth]
      omega
    have h₄ : (chunkOf count).setWidth 8 ≠ 0 := by
      simp only [ne_eq,BitVec.toNat_eq,h₃]
      simp
      omega
    simp only [h₁,if_false,h₄,h₃]

@[simp] theorem ata400nsDelay_commands (c : Channel σ) :
    (ata400nsDelay D c).commands = c.commands := rfl

theorem poll_commands (verdict : BitVec 8 → Option ℤ) (n : ℕ) (c : Channel σ) :
    (poll D verdict n c).2.commands = c.commands := by
  induction n generalizing c with
  | zero => rfl
  | succ n ih =>
    unfold poll
    split_ifs with h
    · rfl
    · cases verdict (c.inb D .status).1 with
      | some rc => rfl
      | none => exact ih _

@[simp] theorem ataPollBsyClear_commands (c : Channel σ) :
    (ataPollBsyClear D c).2.commands = c.commands := poll_commands D _ _ _

@[simp] theorem ataPollDrq_commands (c : Channel σ) :
    (ataPollDrq D c).2.commands = c.commands := poll_commands D _ _ _

theorem outWords_commands (f : ℕ → BitVec 16) (l : List ℕ) (c : Channel σ) :
    (l.foldl (fun c i => c.outw D (f i)) c).commands = c.commands := by
  induction l generalizing c with
  | nil => rfl
  | cons i l ih => rw [List.foldl_cons,ih]; rfl

theorem sendSectors_commands (buf : ℕ → BitVec 16) (n p : ℕ) (c : Channel σ) :
    (sendSectors D buf n p c).2.commands = c.commands := by
  induction n generalizing p c with
  | zero => rfl
  | succ n ih =>
    unfold sendSectors
    split_ifs with h
    · exact ataPollDrq_commands D c
    · rw [ih,ata400nsDelay_commands,outWords_commands D (fun i => buf (p+i)),ataPollDrq_commands]

/-- All five registers are written before the command, whatever they held. -/
theorem programWrite_commands (drive : BitVec 8) (lba : BitVec 32) (count : BitVec 8)
    (c : Channel σ) :
    (programWrite D drive lba count c).commands = c.commands++[writeCommand drive lba count] :=
  rfl

theorem ataWriteChunk_commands (drive : BitVec 8) (lba : BitVec 32) (count : BitVec 8)
    (buf : ℕ → BitVec 16) (c : Channel σ) :
    ((ataWriteChunk D drive lba count buf c).1 ≠ 0 ∧
      (ataWriteChunk D drive lba count buf c).2.commands = c.commands) ∨
    (ataWriteChunk D drive lba count buf c).2.commands =
      c.commands++[writeCommand drive lba count] := by
  unfold ataWriteChunk
  by_cases h : (ataPollBsyClear D c).1 ≠ 0
  · rw [if_pos h]
    exact .inl ⟨h,ataPollBsyClear_commands D c⟩
  · rw [if_neg h]
    exact .inr (by rw [sendSectors_commands,programWrite_commands,ataPollBsyClear_commands])

/-- A write command for some of the sectors of a request, counted in 28 bits. -/
structure Part (drive : BitVec 8) (lba count : BitVec 32) (m : Command) : Prop where
  opcode : m.opcode = cmdWriteSectors
  drive : m.toMaster ↔ drive = ataDriveMaster
  range : ∃ off, off+m.sectors ≤ count.toNat ∧ m.address.toNat = (lba.toNat+off)%2^28

theorem part_first (drive : BitVec 8) (lba : BitVec 32) (h : count ≠ 0) :
    Part drive lba count (writeCommand drive lba (sectorCount (chunkOf count))) where
  opcode := rfl
  drive := writeCommand_toMaster _ _ _
  range := by
    refine ⟨0,?_,?_⟩
    · rw [writeCommand_sectors drive lba h]
      omega
    · rw [writeCommand_address,BitVec.toNat_setWidth,Nat.add_zero]

theorem Part.rest {drive : BitVec 8} {lba : BitVec 32}
    (h : Part drive (lba+chunkOf count) (count-chunkOf count) m) : Part drive lba count m := by
  obtain ⟨off,h₁,h₂⟩ := h.range
  have hc := chunkOf_toNat count
  rw [BitVec.toNat_sub_of_le (by rw [BitVec.le_def]; omega)] at h₁
  rw [BitVec.toNat_add] at h₂
  exact ⟨h.opcode,h.drive,(chunkOf count).toNat+off,by omega,by omega⟩

theorem writeChunks_commands (drive : BitVec 8) (n : ℕ) (lba count : BitVec 32)
    (buf : ℕ → BitVec 16) (c : Channel σ) :
    ∃ sent, (writeChunks D drive n lba count buf c).2.commands = c.commands++sent ∧
      (∀ m ∈ sent, Part drive lba count m) ∧
      (count.toNat ≤ n → (writeChunks D drive n lba count buf c).1 = 0 →
        ∀ i < count.toNat, ∃ m ∈ sent, m.Covers ((lba.toNat+i)%2^28)) := by
  induction n generalizing lba count buf c with
  | zero => exact ⟨[],by simp [writeChunks],by simp,fun h _ i hi => by omega⟩
  | succ n ih =>
    unfold writeChunks
    by_cases h₀ : count = 0
    · subst h₀
      exact ⟨[],by simp,by simp,fun _ _ i hi => by simp at hi⟩
    simp only [h₀,if_false]
    set m := writeCommand drive lba (sectorCount (chunkOf count)) with hm
    have hsec : m.sectors = min 256 count.toNat := writeCommand_sectors drive lba h₀
    have hadr : m.address.toNat = lba.toNat%2^28 := by
      rw [hm,writeCommand_address,BitVec.toNat_setWidth]
    obtain ⟨hne,hcmd⟩ | hcmd := ataWriteChunk_commands D drive lba (sectorCount (chunkOf count)) buf c
    · rw [if_pos hne]
      exact ⟨[],by simp [hcmd],by simp,fun _ h => absurd h hne⟩
    split_ifs with hrc
    · exact ⟨[m],hcmd,by simpa using part_first drive lba h₀,fun _ h => absurd h hrc⟩
    · obtain ⟨sent,h₁,h₂,h₃⟩ := ih (lba+chunkOf count) (count-chunkOf count)
        (fun k => buf (k+(chunkOf count).toNat*256))
        (ataWriteChunk D drive lba (sectorCount (chunkOf count)) buf c).2
      have hc := chunkOf_toNat count
      have hn : count.toNat ≠ 0 := by simpa [BitVec.toNat_eq] using h₀
      rw [BitVec.toNat_sub_of_le (by rw [BitVec.le_def]; omega),BitVec.toNat_add] at h₃
      refine ⟨m::sent,by rw [h₁,hcmd]; simp [hm],?_,fun hfuel hok i hi => ?_⟩
      · rintro m' (_|⟨_,hm'⟩)
        · exact part_first drive lba h₀
        · exact (h₂ m' hm').rest
      · by_cases hlt : i < m.sectors
        · exact ⟨m,by simp,i,hlt,by omega⟩
        · obtain ⟨m',hm',hcov⟩ := h₃ (by omega) hok (i-(chunkOf count).toNat) (by omega)
          refine ⟨m',by simp [hm'],?_⟩
          convert hcov using 1
          omega

theorem flushCache_commands (c : Channel σ) :
    ∃ sent, (flushCache D c).2.commands = c.commands++sent ∧
      ∀ m ∈ sent, m.opcode ≠ cmdWriteSectors := by
  unfold flushCache
  split_ifs with h
  · exact ⟨[],by simp,by simp⟩
  · refine ⟨[⟨cmdFlushCache,(ataPollBsyClear D c).2.regs⟩],?_,by simp [cmdFlushCache,cmdWriteSectors]⟩
    rw [ataPollBsyClear_commands,ata400nsDelay_commands]
    simp [Channel.outb]

/-- What every way in asks of `ata_write_sectors_drive`. -/
structure Request where
  drive : BitVec 8
  lba : BitVec 32
  count : BitVec 32
  buf : ℕ → BitVec 16

/-- The checks before the loop let the request through. -/
structure Request.Accepted (r : Request) : Prop where
  drive : r.drive ≤ ataDriveSlave
  present : u.present r.drive = true
  some : r.count ≠ 0
  floor : r.drive = ataDriveMaster → writeProtectLbas ≤ r.lba.toNat
  noWrap : r.lba.toNat+r.count.toNat < 2^32

/-- In the 28 bits of the controller the request keeps above the boot area and
does not run over the end. -/
def Request.Within (r : Request) : Prop :=
  writeProtectLbas ≤ r.lba.toNat%2^28 ∧ r.lba.toNat%2^28+r.count.toNat ≤ 2^28

def Request.perform (r : Request) (c : Channel σ) : ℤ × Channel σ :=
  ataWriteSectorsDrive D u r.drive r.lba r.count r.buf c

def Request.chunks (r : Request) (c : Channel σ) : ℤ × Channel σ :=
  writeChunks D r.drive r.count.toNat r.lba r.count r.buf c

variable {r : Request}

theorem perform_of_accepted (h : r.Accepted u) (c : Channel σ) : r.perform D u c =
      if (r.chunks D c).1 ≠ 0 then r.chunks D c else flushCache D (r.chunks D c).2 := by
  have h₁ : ¬ataDriveSlave < r.drive := BitVec.not_lt.2 h.drive
  have h₂ : ¬(r.drive = ataDriveMaster ∧ r.lba.toNat < writeProtectLbas) :=
    fun ⟨hd,hl⟩ => absurd (h.floor hd) (Nat.not_le.2 hl)
  have h₀ : r.count.toNat ≠ 0 := by simpa [BitVec.toNat_eq] using h.some
  have h₃ : ¬r.lba+r.count ≤ r.lba := by
    rw [BitVec.le_def,BitVec.toNat_add,Nat.mod_eq_of_lt h.noWrap]
    omega
  simp only [Request.perform,ataWriteSectorsDrive,h₁,h.present,h.some,h₂,h₃,if_false,
    Bool.true_eq_false]
  rfl

theorem perform_of_refused (h : ¬r.Accepted u) (c : Channel σ) : (r.perform D u c).2 = c := by
  unfold Request.perform ataWriteSectorsDrive
  split_ifs with h₁ h₂ h₃ h₄ h₅
  any_goals rfl
  all_goals
    refine absurd ⟨BitVec.not_lt.1 h₁,by simpa using h₂,h₃,fun hd => ?_,?_⟩ h
    · exact Nat.le_of_not_lt fun hl => h₄ ⟨hd,hl⟩
    · rw [BitVec.le_def,BitVec.toNat_add] at h₅
      omega

theorem perform_commands (r : Request) (c : Channel σ) :
    ∃ sent, (r.perform D u c).2.commands = c.commands++sent ∧
      (∀ m ∈ sent, m.opcode = cmdWriteSectors →
        r.Accepted u ∧ Part r.drive r.lba r.count m) ∧
      (r.Accepted u → (r.chunks D c).1 = 0 → ∀ i < r.count.toNat,
        ∃ m ∈ sent, Part r.drive r.lba r.count m ∧ m.Covers ((r.lba.toNat+i)%2^28)) := by
  by_cases h : r.Accepted u
  · obtain ⟨sent,h₁,h₂,h₃⟩ := writeChunks_commands D r.drive r.count.toNat r.lba r.count r.buf c
    have hall := fun hrc i hi => h₃ le_rfl hrc i hi
    obtain ⟨flush,hf₁,hf₂⟩ := flushCache_commands D (r.chunks D c).2
    rw [perform_of_accepted D u h]
    split_ifs with hrc
    · exact ⟨sent,h₁,fun m hm _ => ⟨h,h₂ m hm⟩,fun _ h₀ => absurd h₀ hrc⟩
    · refine ⟨sent++flush,?_,?_,fun _ h₀ i hi => ?_⟩
      · rw [hf₁,← List.append_assoc]
        exact congrArg (·++flush) h₁
      · intro m hm hop
        rcases List.mem_append.1 hm with hm|hm
        · exact ⟨h,h₂ m hm⟩
        · exact absurd hop (hf₂ m hm)
      · obtain ⟨m,hm,hcov⟩ := hall h₀ i hi
        exact ⟨m,List.mem_append_left _ hm,h₂ m hm,hcov⟩
  · exact ⟨[],by rw [perform_of_refused D u h]; simp,by simp,fun h' => absurd h' h⟩

/-- The request a call comes to, if it gets that far. -/
def Call.request : Call → Option Request
  | .sectorsDrive drive lba count buf => some ⟨drive,lba,count,buf⟩
  | .sectorDrive drive lba buf => some ⟨drive,lba,1,buf⟩
  | .sectors lba count buf => some ⟨u.defaultDrive,lba,count,buf⟩
  | .sector lba buf => some ⟨u.defaultDrive,lba,1,buf⟩
  | .diskWrite pdrv buf lba count =>
    if pdrv ≠ 0 ∨ count = 0 then none else some ⟨u.fatDrive,lba+u.fatPartitionOffset,count,buf⟩

theorem call_perform (k : Call) (c : Channel σ) :
    k.perform D u c = (k.request u).elim c fun r => (r.perform D u c).2 := by
  cases k with
  | diskWrite pdrv buf lba count =>
    simp only [Call.perform,Call.request,Drivers.diskWrite]
    split_ifs <;> rfl
  | _ => rfl

/-- A call the driver accepts for the master does not leave the 28 bits. -/
def Call.InBounds (k : Call) : Prop :=
  ∀ r ∈ k.request u, r.Accepted u → r.drive = ataDriveMaster → r.Within

theorem Part.protected (hp : Part r.drive r.lba r.count m)
    (hw : r.Within) {s : ℕ} (hs : m.Covers s) : writeProtectLbas ≤ s := by
  obtain ⟨off,h₁,h₂⟩ := hp.range
  obtain ⟨i,hi,rfl⟩ := hs
  obtain ⟨h₃,h₄⟩ := hw
  rw [h₂]
  omega

theorem perform_protected {k : Call} (hk : k.InBounds u)
    (hc : Protected c.commands) : Protected (k.perform D u c).commands := by
  rw [call_perform]
  cases hr : k.request u with
  | none => exact hc
  | some r =>
    obtain ⟨sent,h₁,h₂,-⟩ := perform_commands D u r c
    intro m hm hop hmaster s hs
    rw [Option.elim_some,h₁] at hm
    rcases List.mem_append.1 hm with hm|hm
    · exact hc m hm hop hmaster s hs
    · obtain ⟨hacc,hp⟩ := h₂ m hm hop
      exact hp.protected (hk r hr hacc (hp.drive.1 hmaster)) hs

theorem performAll_protected {calls : List Call} (hk : ∀ k ∈ calls, k.InBounds u)
    (hc : Protected c.commands) : Protected (performAll D u calls c).commands := by
  induction calls generalizing c with
  | nil => exact hc
  | cons k calls ih =>
    exact ih (fun k' hk' => hk k' (by simp [hk'])) (perform_protected D u (hk k (by simp)) hc)

theorem perform_mem {k : Call} (hm : m ∈ c.commands) : m ∈ (k.perform D u c).commands := by
  rw [call_perform]
  cases k.request u with
  | none => exact hm
  | some r =>
    obtain ⟨sent,h₁,-⟩ := perform_commands D u r c
    rw [Option.elim_some,h₁]
    exact List.mem_append_left _ hm

theorem performAll_mem {calls : List Call} (hm : m ∈ c.commands) :
    m ∈ (performAll D u calls c).commands := by
  induction calls generalizing c with
  | nil => exact hm
  | cons k calls ih => exact ih (perform_mem D u hm)

end Driver

/-! A device that is always ready takes every chunk. -/

def ready : Device Unit where
  inb _ _ := (0x48,())
  outb _ _ _ := ()
  outw _ _ := ()

theorem ready_poll {verdict : BitVec 8 → Option ℤ} (h : verdict 0x48 = some 0) (n : ℕ)
    (c : Channel Unit) : (poll ready verdict (n+1) c).1 = 0 := by
  have hst : (c.inb ready .status).1 = 0x48 := rfl
  have hne : (0x48 : BitVec 8) ≠ 0xFF := by decide
  rw [poll,hst,if_neg hne,h]

theorem ready_pollBsyClear (c : Channel Unit) : (ataPollBsyClear ready c).1 = 0 :=
  ready_poll rfl 999999 c

theorem ready_pollDrq (c : Channel Unit) : (ataPollDrq ready c).1 = 0 :=
  ready_poll rfl 999999 c

theorem ready_sendSectors (buf : ℕ → BitVec 16) (n p : ℕ) (c : Channel Unit) :
    (sendSectors ready buf n p c).1 = 0 := by
  induction n generalizing p c with
  | zero => rfl
  | succ n ih =>
    rw [sendSectors,if_neg (not_not.2 (ready_pollDrq c))]
    exact ih _ _

theorem ready_writeChunks (drive : BitVec 8) (n : ℕ) (lba count : BitVec 32)
    (buf : ℕ → BitVec 16) (c : Channel Unit) :
    (writeChunks ready drive n lba count buf c).1 = 0 := by
  induction n generalizing lba count buf c with
  | zero => rfl
  | succ n ih =>
    have h (sc : BitVec 8) : (ataWriteChunk ready drive lba sc buf c).1 = 0 := by
      rw [ataWriteChunk,if_neg (not_not.2 (ready_pollBsyClear c))]
      exact ready_sendSectors ..
    unfold writeChunks
    split_ifs with h₀
    · rfl
    · simp only [h,ne_eq,not_true_eq_false,if_false]
      exact ih _ _ _ _

/-- Every sector of an accepted request is sent, its number cut to 28 bits. -/
theorem ready_covers {u : Setup} {r : Request} (h : r.Accepted u) (hd : r.drive = ataDriveMaster)
    (c : Channel Unit) {i : ℕ} (hi : i < r.count.toNat) :
    ∃ m ∈ (r.perform ready u c).2.commands, m.opcode = cmdWriteSectors ∧ m.toMaster ∧
      m.Covers ((r.lba.toNat+i)%2^28) := by
  obtain ⟨sent,h₁,-,h₂⟩ := perform_commands ready u r c
  obtain ⟨m,hm,hp,hcov⟩ := h₂ h (ready_writeChunks ..) i hi
  exact ⟨m,by rw [h₁]; exact List.mem_append_right _ hm,hp.opcode,hp.drive.2 hd,hcov⟩

/-- A request that is not within the 28 bits has a sector in the boot area. -/
theorem exists_low_sector {r : Request} (h₀ : r.count ≠ 0) (h : ¬r.Within) :
    ∃ i < r.count.toNat, (r.lba.toNat+i)%2^28 < writeProtectLbas := by
  have hn : r.count.toNat ≠ 0 := by simpa [BitVec.toNat_eq] using h₀
  by_cases hlow : r.lba.toNat%2^28 < writeProtectLbas
  · exact ⟨0,by omega,by simpa using hlow⟩
  · have hover : 2^28 < r.lba.toNat%2^28+r.count.toNat := by
      unfold Request.Within at h
      omega
    refine ⟨2^28-r.lba.toNat%2^28,by omega,?_⟩
    unfold writeProtectLbas
    omega

theorem perform_breach {u : Setup} {k : Call} (hb : ¬k.InBounds u) (c : Channel Unit) :
    ∃ m ∈ (k.perform ready u c).commands, m.opcode = cmdWriteSectors ∧ m.toMaster ∧
      ∃ s < writeProtectLbas, m.Covers s := by
  unfold Call.InBounds at hb
  push Not at hb
  obtain ⟨r,hr,hacc,hd,hw⟩ := hb
  obtain ⟨i,hi,hlow⟩ := exists_low_sector hacc.some hw
  obtain ⟨m,hm,hop,hmaster,hcov⟩ := ready_covers hacc hd c hi
  have hr' : k.request u = some r := hr
  rw [call_perform,hr']
  exact ⟨m,hm,hop,hmaster,_,hlow,hcov⟩

theorem performAll_breach {u : Setup} {calls : List Call} {k : Call} (hk : k ∈ calls)
    (hb : ¬k.InBounds u) (c : Channel Unit) :
    ¬Protected (performAll ready u calls c).commands := by
  induction calls generalizing c with
  | nil => simp at hk
  | cons k' calls ih =>
    rcases List.mem_cons.1 hk with rfl|hk
    · obtain ⟨m,hm,hop,hmaster,s,hlow,hcov⟩ := perform_breach hb c
      have hmem : m ∈ (performAll ready u calls (k.perform ready u c)).commands :=
        performAll_mem ready u hm
      exact fun hp => absurd (hp m hmem hop hmaster s hcov) (Nat.not_le.2 hlow)
    · exact ih hk _

/-- The boot area is safe, whatever the drives do, exactly when no accepted call
for the master leaves the 28 bits that reach the controller. -/
theorem boot_area_protected_iff (u : Setup) (calls : List Call) :
    (∀ (σ : Type) (D : Device σ) (c : Channel σ), c.commands = [] →
      Protected (performAll D u calls c).commands) ↔ ∀ k ∈ calls, k.InBounds u := by
  constructor
  · intro h k hk
    by_contra hb
    exact performAll_breach hk hb ⟨⟨0,0,0,0,0⟩,[],()⟩ (h Unit ready _ rfl)
  · intro h σ D c hc
    exact performAll_protected D u h (by simp [hc,Protected])

def bothDrives : Setup := ⟨fun _ => true,ataDriveMaster,false⟩

/-- Sector 0x10000000 of the master passes the floor and is programmed as sector 0. -/
theorem boot_sector_overwritten :
    ∃ m ∈ (ataWriteSector ready bothDrives 0x10000000 (fun _ => 0)
        ⟨⟨0,0,0,0,0⟩,[],()⟩).2.commands,
      m.opcode = cmdWriteSectors ∧ m.toMaster ∧ m.Covers 0 :=
  ready_covers (r:=⟨ataDriveMaster,0x10000000,1,fun _ => 0⟩)
    ⟨by decide,rfl,by decide,fun _ => by decide,by decide⟩ rfl _ (i:=0) (by decide)

end Drivers
end DonsOs
