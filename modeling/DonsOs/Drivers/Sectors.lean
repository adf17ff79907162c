import DonsOs.Drivers.Ata

/-! Transfers of many sectors.
A request is cut into commands of up to 256 sectors.  What the device does with a command is
stated over a view of its state: the registers, the contents of the two disks, the transfer that
is going on, and the sectors that have been transferred so far. -/
namespace DonsOs
namespace Drivers

/-- A device whose data port can be read as well. -/
structure WordDevice (σ : Type) extends Device σ where
  inw : σ → BitVec 16 × σ

def cmdReadSectors : BitVec 8 := 0x20

section Driver
variable {σ : Type} (D : WordDevice σ) (u : Setup)

def Channel.inw (c : Channel σ) : BitVec 16 × Channel σ :=
  ((D.inw c.device).1,{ c with device := (D.inw c.device).2 })

/-- What both kinds of chunk program: the five address registers, then the command. -/
def program (opcode : BitVec 8) (drive : BitVec 8) (lba : BitVec 32) (count : BitVec 8)
    (c : Channel σ) : Channel σ :=
  let c := ataSelectDrive D.toDevice drive lba c
  let c := c.outb D.toDevice .seccount count
  let c := c.outb D.toDevice .lbaLo ((lba&&&0xFF).setWidth 8)
  let c := c.outb D.toDevice .lbaMid (((lba>>>8)&&&0xFF).setWidth 8)
  let c := c.outb D.toDevice .lbaHi (((lba>>>16)&&&0xFF).setWidth 8)
  ata400nsDelay D.toDevice (c.outb D.toDevice .status opcode)

/-- The words of a DRQ block go to the buffer from `p` on. -/
def receiveWords (p n : ℕ) (buf : ℕ → BitVec 16) (c : Channel σ) : (ℕ → BitVec 16) × Channel σ :=
  (List.range n).foldl (fun r i => (Function.update r.1 (p+i) (r.2.inw D).1,(r.2.inw D).2)) (buf,c)

/-- The data phase of a read command: one DRQ block of 256 words a sector. -/
def receiveSectors : ℕ → ℕ → (ℕ → BitVec 16) → Channel σ → ℤ × (ℕ → BitVec 16) × Channel σ
  | 0, _, buf, c => (0,buf,c)
  | n+1, p, buf, c =>
    if (ataPollDrq D.toDevice c).1 ≠ 0 then
      ((ataPollDrq D.toDevice c).1,buf,(ataPollDrq D.toDevice c).2)
    else
      let r := receiveWords D p 256 buf (ataPollDrq D.toDevice c).2
      receiveSectors n (p+256) r.1 (ata400nsDelay D.toDevice r.2)

def ataReadChunk (drive : BitVec 8) (lba : BitVec 32) (count : BitVec 8) (p : ℕ)
    (buf : ℕ → BitVec 16) (c : Channel σ) : ℤ × (ℕ → BitVec 16) × Channel σ :=
  if (ataPollBsyClear D.toDevice c).1 ≠ 0 then
    ((ataPollBsyClear D.toDevice c).1,buf,(ataPollBsyClear D.toDevice c).2)
  else receiveSectors D (if count = 0 then 256 else count.toNat) p buf
    (program D cmdReadSectors drive lba count (ataPollBsyClear D.toDevice c).2)

def ataReadSectorDrive (drive : BitVec 8) (lba : BitVec 32) (p : ℕ) (buf : ℕ → BitVec 16)
    (c : Channel σ) : ℤ × (ℕ → BitVec 16) × Channel σ :=
  if ataDriveSlave < drive then (-1,buf,c)
  else if u.present drive = false then (-1,buf,c)
  else ataReadChunk D drive lba 1 p buf c

/-- The loop of `ata_read_sectors_drive`; `n` bounds its turns. -/
def readChunks (drive : BitVec 8) : ℕ → BitVec 32 → BitVec 32 → ℕ → (ℕ → BitVec 16) → Channel σ →
    ℤ × (ℕ → BitVec 16) × Channel σ
  | 0, _, _, _, buf, c => (0,buf,c)
  | n+1, lba, count, p, buf, c =>
    if count = 0 then (0,buf,c)
    else
      let r := ataReadChunk D drive lba (sectorCount (chunkOf count)) p buf c
      if r.1 ≠ 0 then r
      else readChunks drive n (lba+chunkOf count) (count-chunkOf count)
        (p+(chunkOf count).toNat*256) r.2.1 r.2.2

def ataReadSectorsDrive (drive : BitVec 8) (lba count : BitVec 32) (p : ℕ) (buf : ℕ → BitVec 16)
    (c : Channel σ) : ℤ × (ℕ → BitVec 16) × Channel σ :=
  if ataDriveSlave < drive then (-1,buf,c)
  else if u.present drive = false then (-1,buf,c)
  else if count = 0 then (0,buf,c)
  else readChunks D drive count.toNat lba count p buf c

/-- Consecutive calls for one sector each. -/
def readSingly (drive : BitVec 8) (lba : BitVec 32) (n p : ℕ) (buf : ℕ → BitVec 16)
    (c : Channel σ) : (ℕ → BitVec 16) × Channel σ :=
  (List.range n).foldl (fun r i =>
    (ataReadSectorDrive D u drive (lba+BitVec.ofNat 32 i) (p+i*256) r.1 r.2).2) (buf,c)

def writeSingly (drive : BitVec 8) (lba : BitVec 32) (n : ℕ) (buf : ℕ → BitVec 16)
    (c : Channel σ) : Channel σ :=
  (List.range n).foldl (fun c i =>
    (ataWriteSectorDrive D.toDevice u drive (lba+BitVec.ofNat 32 i) (fun k => buf (k+i*256)) c).2) c

end Driver

/-! ## A device that serves -/

/-- A transfer: `left` sectors from `lba` on, of which `word` words of the first have been
moved. -/
structure Transfer where
  write : Bool
  slave : Bool
  lba : ℕ
  left : ℕ
  word : ℕ

/-- A sector that has been transferred. -/
structure Moved where
  write : Bool
  slave : Bool
  lba : ℕ
deriving DecidableEq

structure View where
  regs : Taskfile
  disk : Bool → ℕ → ℕ → BitVec 16
  pending : Option Transfer
  moved : List Moved

namespace View

/-- The command finds its sectors in the registers. -/
def command (v : View) (opcode : BitVec 8) : View :=
  let m : Command := ⟨opcode,v.regs⟩
  if opcode = cmdReadSectors ∨ opcode = cmdWriteSectors then
    { v with pending := some ⟨opcode = cmdWriteSectors,!m.toMaster,m.address.toNat,m.sectors,0⟩ }
  else v

/-- A word of the transfer `t` has been moved. -/
def advance (v : View) (t : Transfer) : View :=
  if t.word < 255 then { v with pending := some { t with word := t.word+1 } }
  else
    { v with
      pending := if t.left ≤ 1 then none else some { t with lba := t.lba+1, left := t.left-1, word := 0 }
      moved := v.moved++[⟨t.write,t.slave,t.lba⟩] }

def put (v : View) (t : Transfer) (x : BitVec 16) : View :=
  { v with disk := fun d l w => if d = t.slave ∧ l = t.lba ∧ w = t.word then x else v.disk d l w }

end View

/-- Reading the status lets `verdict` decide for success within the turns of a polling loop. -/
def Answers {σ : Type} (D : Device σ) (verdict : BitVec 8 → Option ℤ) (s : σ) : Prop :=
  ∃ n < 1000000, (∀ k < n, (D.inb .status ((fun s => (D.inb .status s).2)^[k] s)).1 ≠ 0xFF ∧
      verdict (D.inb .status ((fun s => (D.inb .status s).2)^[k] s)).1 = none) ∧
    (D.inb .status ((fun s => (D.inb .status s).2)^[n] s)).1 ≠ 0xFF ∧
    verdict (D.inb .status ((fun s => (D.inb .status s).2)^[n] s)).1 = some 0

/-- The device serves the commands of the driver: reading a status changes nothing, an idle device
gets ready, a register keeps what is written to it, and a command for `n` sectors moves the words of
these sectors one after the other. -/
structure Serves {σ : Type} (D : WordDevice σ) (V : σ → View) : Prop where
  inb : ∀ p s, V (D.inb p s).2 = V s
  ready : ∀ s, (V s).pending = none → Answers D.toDevice bsyClear s
  request : ∀ s, (V s).pending ≠ none → Answers D.toDevice drqSet s
  register : ∀ p v s, p ≠ .status → (V s).pending = none →
    V (D.outb p v s) = { V s with regs := (V s).regs.set v p }
  command : ∀ v s, v = cmdReadSectors ∨ v = cmdWriteSectors ∨ v = cmdFlushCache →
    (V s).pending = none → V (D.outb .status v s) = (V s).command v
  inw : ∀ s t, (V s).pending = some t → t.write = false →
    (D.inw s).1 = (V s).disk t.slave t.lba t.word ∧ V (D.inw s).2 = (V s).advance t
  outw : ∀ x s t, (V s).pending = some t → t.write = true →
    V (D.outw x s) = ((V s).put t x).advance t

/-! ## What is to be transferred -/

/-- The buffer with `n` sectors from `lba` on in it, from `p` on. -/
def readInto (disk : ℕ → ℕ → BitVec 16) (lba n p : ℕ) (buf : ℕ → BitVec 16) : ℕ → BitVec 16 :=
  fun a => if p ≤ a ∧ a < p+n*256 then disk (lba+(a-p)/256) ((a-p)%256) else buf a

/-- The disks with `n` sectors from `lba` on written. -/
def writeFrom (disk : Bool → ℕ → ℕ → BitVec 16) (slave : Bool) (lba n : ℕ) (buf : ℕ → BitVec 16) :
    Bool → ℕ → ℕ → BitVec 16 :=
  fun d l w => if d = slave ∧ lba ≤ l ∧ l < lba+n ∧ w < 256 then buf ((l-lba)*256+w) else disk d l w

def sectorsMoved (write slave : Bool) (lba n : ℕ) : List Moved :=
  (List.range n).map fun i => ⟨write,slave,lba+i⟩

theorem readInto_add (disk : ℕ → ℕ → BitVec 16) (lba n k p : ℕ) (buf : ℕ → BitVec 16) :
    readInto disk (lba+n) k (p+n*256) (readInto disk lba n p buf) = readInto disk lba (n+k) p buf := by
  funext a
  simp only [readInto]
  by_cases hlo : p+n*256 ≤ a
  · by_cases hhi : a < p+n*256+k*256
    · have hsector : lba+n+(a-(p+n*256))/256 = lba+(a-p)/256 := by omega
      have hword : (a-(p+n*256))%256 = (a-p)%256 := by omega
      rw [if_pos ⟨hlo,hhi⟩,if_pos ⟨by omega,by omega⟩,hsector,hword]
    · rw [if_neg (by omega),if_neg (by omega),if_neg (by omega)]
  · rw [if_neg (by omega)]
    by_cases h : p ≤ a
    · rw [if_pos (by omega),if_pos (by omega)]
    · rw [if_neg (by omega),if_neg (by omega)]

theorem writeFrom_add (disk : Bool → ℕ → ℕ → BitVec 16) (slave : Bool) (lba n k : ℕ)
    (buf : ℕ → BitVec 16) :
    writeFrom (writeFrom disk slave lba n buf) slave (lba+n) k (fun a => buf (a+n*256)) =
      writeFrom disk slave lba (n+k) buf := by
  funext d l w
  simp only [writeFrom]
  by_cases hd : d = slave ∧ w < 256
  · by_cases hlo : lba+n ≤ l
    · by_cases hhi : l < lba+n+k
      · have hindex : (l-(lba+n))*256+w+n*256 = (l-lba)*256+w := by omega
        rw [if_pos ⟨hd.1,hlo,hhi,hd.2⟩,if_pos ⟨hd.1,by omega,by omega,hd.2⟩,hindex]
      · rw [if_neg (by omega),if_neg (by omega),if_neg (by omega)]
    · rw [if_neg (by omega)]
      by_cases h : lba ≤ l
      · rw [if_pos ⟨hd.1,h,by omega,hd.2⟩,if_pos ⟨hd.1,h,by omega,hd.2⟩]
      · rw [if_neg (by omega),if_neg (by omega)]
  · rw [if_neg (fun h => hd ⟨h.1,h.2.2.2⟩),if_neg (fun h => hd ⟨h.1,h.2.2.2⟩),
      if_neg (fun h => hd ⟨h.1,h.2.2.2⟩)]

theorem sectorsMoved_add (write slave : Bool) (lba n k : ℕ) :
    sectorsMoved write slave lba n++sectorsMoved write slave (lba+n) k =
      sectorsMoved write slave lba (n+k) := by
  simp only [sectorsMoved,List.range_add,List.map_append,List.map_map]
  congr 2
  funext i
  simp [Nat.add_assoc]

/-! ## Polling and programming -/

section
variable {σ : Type} {D : WordDevice σ} {V : σ → View}

theorem poll_answers {verdict : BitVec 8 → Option ℤ} (hV : ∀ p s, V (D.inb p s).2 = V s) {n : ℕ} :
    ∀ (turns : ℕ) (c : Channel σ), n < turns →
      (∀ k < n, (D.inb .status ((fun s => (D.inb .status s).2)^[k] c.device)).1 ≠ 0xFF ∧
        verdict (D.inb .status ((fun s => (D.inb .status s).2)^[k] c.device)).1 = none) →
      (D.inb .status ((fun s => (D.inb .status s).2)^[n] c.device)).1 ≠ 0xFF →
      verdict (D.inb .status ((fun s => (D.inb .status s).2)^[n] c.device)).1 = some 0 →
      (poll D.toDevice verdict turns c).1 = 0 ∧
        V (poll D.toDevice verdict turns c).2.device = V c.device := by
  induction n with
  | zero =>
    intro turns c hlt _ hff hdone
    obtain ⟨turns,rfl⟩ : ∃ t, turns = t+1 := ⟨turns-1,by omega⟩
    simp only [Function.iterate_zero,id] at hff hdone
    simp only [poll,Channel.inb,if_neg hff,hdone]
    exact ⟨trivial,hV _ _⟩
  | succ n ih =>
    intro turns c hlt hwait hff hdone
    obtain ⟨turns,rfl⟩ : ∃ t, turns = t+1 := ⟨turns-1,by omega⟩
    obtain ⟨hff₀,hnone⟩ := hwait 0 (Nat.succ_pos n)
    simp only [Function.iterate_zero,id] at hff₀ hnone
    simp only [poll,Channel.inb,if_neg hff₀,hnone]
    have h := ih turns { c with device := (D.inb .status c.device).2 } (by omega)
      (fun k hk => hwait (k+1) (by omega)) hff hdone
    exact ⟨h.1,h.2.trans (hV _ _)⟩

theorem Serves.bsyClear_poll (h : Serves D V) {c : Channel σ} (hidle : (V c.device).pending = none) :
    (ataPollBsyClear D.toDevice c).1 = 0 ∧ V (ataPollBsyClear D.toDevice c).2.device = V c.device := by
  obtain ⟨n,hn,hwait,hff,hdone⟩ := h.ready _ hidle
  exact poll_answers h.inb _ c hn hwait hff hdone

theorem Serves.drq_poll (h : Serves D V) {c : Channel σ} (hpending : (V c.device).pending ≠ none) :
    (ataPollDrq D.toDevice c).1 = 0 ∧ V (ataPollDrq D.toDevice c).2.device = V c.device := by
  obtain ⟨n,hn,hwait,hff,hdone⟩ := h.request _ hpending
  exact poll_answers h.inb _ c hn hwait hff hdone

theorem Serves.delay (h : Serves D V) (c : Channel σ) :
    V (ata400nsDelay D.toDevice c).device = V c.device := by
  simp only [ata400nsDelay,Channel.inb,h.inb]

theorem Serves.set (h : Serves D V) {p : Port} (hp : p ≠ .status) (v : BitVec 8) {c : Channel σ}
    {w : View} (hc : V c.device = w) (hidle : w.pending = none) :
    V (c.outb D.toDevice p v).device = { w with regs := w.regs.set v p } := by
  subst hc
  exact h.register p v c.device hp hidle

theorem Serves.program (h : Serves D V) {opcode : BitVec 8}
    (hop : opcode = cmdReadSectors ∨ opcode = cmdWriteSectors) (drive : BitVec 8) (lba : BitVec 32)
    (count : BitVec 8) {c : Channel σ} (hidle : (V c.device).pending = none) :
    V (Drivers.program D opcode drive lba count c).device =
      { V c.device with
        regs := (writeCommand drive lba count).regs
        pending := some ⟨opcode = cmdWriteSectors,!(writeCommand drive lba count).toMaster,
          (writeCommand drive lba count).address.toNat,(writeCommand drive lba count).sectors,0⟩ } := by
  have hsel := h.set (p:=.driveHead) (by decide) (selectByte drive lba) rfl hidle
  have hwait : V (ataSelectDrive D.toDevice drive lba c).device = _ := (h.delay _).trans hsel
  have hcount := h.set (p:=.seccount) (by decide) count hwait hidle
  have hlo := h.set (p:=.lbaLo) (by decide) ((lba&&&0xFF).setWidth 8) hcount hidle
  have hmid := h.set (p:=.lbaMid) (by decide) (((lba>>>8)&&&0xFF).setWidth 8) hlo hidle
  have hhi := h.set (p:=.lbaHi) (by decide) (((lba>>>16)&&&0xFF).setWidth 8) hmid hidle
  rw [Drivers.program,h.delay]
  refine (h.command opcode _ (by tauto) ?_).trans ?_
  · exact (congrArg View.pending hhi).trans hidle
  · rw [hhi,View.command,if_pos hop]
    rfl

/-! ## The data phase -/

/-- The transfer of `n` sectors that has just begun, if there are any. -/
def pendingFrom (write slave : Bool) (lba n : ℕ) : Option Transfer :=
  if n = 0 then none else some ⟨write,slave,lba,n,0⟩

theorem advance_last (v : View) (write slave : Bool) (lba n : ℕ) :
    v.advance ⟨write,slave,lba,n+1,255⟩ =
      { v with
        pending := pendingFrom write slave (lba+1) n
        moved := v.moved++[⟨write,slave,lba⟩] } := by
  cases n with
  | zero => rfl
  | succ n => simp [View.advance,pendingFrom]

theorem receiveWords_succ (p k : ℕ) (buf : ℕ → BitVec 16) (c : Channel σ) :
    receiveWords D p (k+1) buf c =
      (Function.update (receiveWords D p k buf c).1 (p+k) ((receiveWords D p k buf c).2.inw D).1,
        ((receiveWords D p k buf c).2.inw D).2) := by
  simp only [receiveWords,List.range_succ,List.foldl_append,List.foldl_cons,List.foldl_nil]

/-- The buffer after `k` words of a sector. -/
def readPart (sector : ℕ → BitVec 16) (p k : ℕ) (buf : ℕ → BitVec 16) : ℕ → BitVec 16 :=
  fun a => if p ≤ a ∧ a < p+k then sector (a-p) else buf a

theorem readPart_succ (sector : ℕ → BitVec 16) (p k : ℕ) (buf : ℕ → BitVec 16) :
    Function.update (readPart sector p k buf) (p+k) (sector k) = readPart sector p (k+1) buf := by
  funext a
  by_cases ha : a = p+k
  · subst ha
    simp [readPart]
  · rw [Function.update_of_ne ha]
    simp only [readPart]
    by_cases h : p ≤ a ∧ a < p+k
    · rw [if_pos h,if_pos ⟨h.1,by omega⟩]
    · rw [if_neg h,if_neg (by omega)]

variable {regs : Taskfile} {disk : Bool → ℕ → ℕ → BitVec 16} {moved : List Moved} {slave : Bool}
  {lba n : ℕ} {c : Channel σ}

theorem Serves.receiveWords (h : Serves D V)
    (hc : V c.device = ⟨regs,disk,some ⟨false,slave,lba,n,0⟩,moved⟩) (p : ℕ) (buf : ℕ → BitVec 16)
    {k : ℕ} (hk : k ≤ 255) :
    (Drivers.receiveWords D p k buf c).1 = readPart (disk slave lba) p k buf ∧
      V (Drivers.receiveWords D p k buf c).2.device =
        ⟨regs,disk,some ⟨false,slave,lba,n,k⟩,moved⟩ := by
  induction k with
  | zero =>
    refine ⟨funext fun a => ?_,hc⟩
    rw [readPart,if_neg (by omega)]
    rfl
  | succ k ih =>
    obtain ⟨hbuf,hview⟩ := ih (by omega)
    obtain ⟨hword,hnext⟩ := h.inw _ ⟨false,slave,lba,n,k⟩ (by rw [hview]) rfl
    rw [receiveWords_succ]
    simp only [Channel.inw,hword,hnext,hview,hbuf]
    refine ⟨readPart_succ _ p k buf,?_⟩
    rw [View.advance,if_pos (show k < 255 by omega)]

theorem Serves.receiveSector (h : Serves D V)
    (hc : V c.device = ⟨regs,disk,some ⟨false,slave,lba,n+1,0⟩,moved⟩) (p : ℕ)
    (buf : ℕ → BitVec 16) :
    (Drivers.receiveWords D p 256 buf c).1 = readInto (disk slave) lba 1 p buf ∧
      V (Drivers.receiveWords D p 256 buf c).2.device =
        ⟨regs,disk,pendingFrom false slave (lba+1) n,moved++[⟨false,slave,lba⟩]⟩ := by
  obtain ⟨hbuf,hview⟩ := h.receiveWords hc p buf (k:=255) le_rfl
  obtain ⟨hword,hnext⟩ := h.inw _ ⟨false,slave,lba,n+1,255⟩ (by rw [hview]) rfl
  rw [receiveWords_succ]
  simp only [Channel.inw,hword,hnext,hview,hbuf]
  refine ⟨(readPart_succ _ p 255 buf).trans (funext fun a => ?_),advance_last ..⟩
  simp only [readPart,readInto]
  by_cases ha : p ≤ a ∧ a < p+256
  · have hsector : lba+(a-p)/256 = lba := by omega
    have hword : (a-p)%256 = a-p := by omega
    rw [if_pos ha,if_pos (by omega),hsector,hword]
  · rw [if_neg ha,if_neg (by omega)]

theorem Serves.receiveSectors (h : Serves D V) (p : ℕ) (buf : ℕ → BitVec 16)
    (hc : V c.device = ⟨regs,disk,pendingFrom false slave lba n,moved⟩) :
    (Drivers.receiveSectors D n p buf c).1 = 0 ∧
      (Drivers.receiveSectors D n p buf c).2.1 = readInto (disk slave) lba n p buf ∧
      V (Drivers.receiveSectors D n p buf c).2.2.device =
        ⟨regs,disk,none,moved++sectorsMoved false slave lba n⟩ := by
  induction n generalizing lba p buf c moved with
  | zero =>
    refine ⟨rfl,funext fun a => ?_,hc.trans ?_⟩
    · rw [readInto,if_neg (by omega)]
      rfl
    · simp [pendingFrom,sectorsMoved]
  | succ n ih =>
    obtain ⟨hrc,hpoll⟩ := h.drq_poll (c:=c) (by rw [hc]; simp [pendingFrom])
    obtain ⟨hbuf,hview⟩ := h.receiveSector (hpoll.trans hc) p buf
    obtain ⟨hrc',hbuf',hview'⟩ := ih (p+256) (Drivers.receiveWords D p 256 buf
      (ataPollDrq D.toDevice c).2).1 ((h.delay _).trans hview)
    simp only [Drivers.receiveSectors,hrc]
    refine ⟨hrc',hbuf'.trans ?_,hview'.trans ?_⟩
    · rw [hbuf,Nat.add_comm n 1,← readInto_add]
    · rw [Nat.add_comm n 1,← sectorsMoved_add,List.append_assoc]
      rfl

/-- The disks after `k` words of a sector. -/
def writePart (disk : Bool → ℕ → ℕ → BitVec 16) (slave : Bool) (lba k : ℕ) (buf : ℕ → BitVec 16) :
    Bool → ℕ → ℕ → BitVec 16 :=
  fun d l w => if d = slave ∧ l = lba ∧ w < k then buf w else disk d l w

theorem put_writePart (k : ℕ) (buf : ℕ → BitVec 16) (write : Bool) (pending : Option Transfer) :
    View.put ⟨regs,writePart disk slave lba k buf,pending,moved⟩ ⟨write,slave,lba,n,k⟩ (buf k) =
      ⟨regs,writePart disk slave lba (k+1) buf,pending,moved⟩ := by
  simp only [View.put,View.mk.injEq,true_and,and_true]
  funext d l w
  simp only [writePart]
  by_cases hdl : d = slave ∧ l = lba
  · by_cases hw : w = k
    · rw [if_pos ⟨hdl.1,hdl.2,hw⟩,if_pos ⟨hdl.1,hdl.2,by omega⟩,hw]
    · rw [if_neg (fun h => hw h.2.2)]
      by_cases hlt : w < k
      · rw [if_pos ⟨hdl.1,hdl.2,hlt⟩,if_pos ⟨hdl.1,hdl.2,by omega⟩]
      · rw [if_neg (fun h => hlt h.2.2),if_neg (by omega)]
  · rw [if_neg (fun h => hdl ⟨h.1,h.2.1⟩),if_neg (fun h => hdl ⟨h.1,h.2.1⟩),
      if_neg (fun h => hdl ⟨h.1,h.2.1⟩)]

theorem Serves.sendWords (h : Serves D V)
    (hc : V c.device = ⟨regs,disk,some ⟨true,slave,lba,n,0⟩,moved⟩) (p : ℕ) (buf : ℕ → BitVec 16)
    {k : ℕ} (hk : k ≤ 255) :
    V ((List.range k).foldl (fun c i => c.outw D.toDevice (buf (p+i))) c).device =
      ⟨regs,writePart disk slave lba k fun i => buf (p+i),some ⟨true,slave,lba,n,k⟩,moved⟩ := by
  induction k with
  | zero =>
    have hnone : writePart disk slave lba 0 (fun i => buf (p+i)) = disk := by
      funext d l w
      rw [writePart,if_neg (by omega)]
    rw [hnone]
    exact hc
  | succ k ih =>
    have hview := ih (by omega)
    have hnext := h.outw (buf (p+k)) _ ⟨true,slave,lba,n,k⟩ (by rw [hview]) rfl
    simp only [List.range_succ,List.foldl_append,List.foldl_cons,List.foldl_nil]
    refine hnext.trans ?_
    rw [hview,put_writePart k fun i => buf (p+i),View.advance,if_pos (show k < 255 by omega)]

theorem Serves.sendSector (h : Serves D V)
    (hc : V c.device = ⟨regs,disk,some ⟨true,slave,lba,n+1,0⟩,moved⟩) (p : ℕ)
    (buf : ℕ → BitVec 16) :
    V ((List.range 256).foldl (fun c i => c.outw D.toDevice (buf (p+i))) c).device =
      ⟨regs,writeFrom disk slave lba 1 fun i => buf (p+i),pendingFrom true slave (lba+1) n,
        moved++[⟨true,slave,lba⟩]⟩ := by
  have hview := h.sendWords hc p buf (k:=255) le_rfl
  have hnext := h.outw (buf (p+255)) _ ⟨true,slave,lba,n+1,255⟩ (by rw [hview]) rfl
  have hlast : writePart disk slave lba (255+1) (fun i => buf (p+i)) =
      writeFrom disk slave lba 1 fun i => buf (p+i) := by
    funext d l w
    simp only [writePart,writeFrom]
    by_cases hdl : d = slave ∧ l = lba ∧ w < 256
    · have hindex : (l-lba)*256+w = w := by omega
      rw [if_pos hdl,if_pos ⟨hdl.1,by omega,by omega,hdl.2.2⟩,hindex]
    · rw [if_neg hdl,if_neg fun h => hdl ⟨h.1,by omega,h.2.2.2⟩]
  rw [List.range_succ,List.foldl_append,List.foldl_cons,List.foldl_nil]
  refine hnext.trans ?_
  rw [hview,put_writePart 255 fun i => buf (p+i),hlast,advance_last]

theorem Serves.sendSectors (h : Serves D V) (p : ℕ) (buf : ℕ → BitVec 16)
    (hc : V c.device = ⟨regs,disk,pendingFrom true slave lba n,moved⟩) :
    (Drivers.sendSectors D.toDevice buf n p c).1 = 0 ∧
      V (Drivers.sendSectors D.toDevice buf n p c).2.device =
        ⟨regs,writeFrom disk slave lba n fun i => buf (p+i),none,
          moved++sectorsMoved true slave lba n⟩ := by
  induction n generalizing lba p c moved disk with
  | zero =>
    refine ⟨rfl,hc.trans ?_⟩
    simp only [pendingFrom,sectorsMoved,if_true,List.range_zero,List.map_nil,List.append_nil,
      View.mk.injEq,true_and,and_true]
    funext d l w
    rw [writeFrom,if_neg (by omega)]
  | succ n ih =>
    obtain ⟨hrc,hpoll⟩ := h.drq_poll (c:=c) (by rw [hc]; simp [pendingFrom])
    have hview := h.sendSector (hpoll.trans hc) p buf
    obtain ⟨hrc',hview'⟩ := ih (p+256) ((h.delay _).trans hview)
    simp only [Drivers.sendSectors,hrc]
    refine ⟨hrc',hview'.trans ?_⟩
    have hdisk := writeFrom_add disk slave lba 1 n fun i => buf (p+i)
    have hshift : (fun i => buf (p+256+i)) = fun a => buf (p+(a+1*256)) := by
      funext a
      congr 1
      omega
    rw [hshift,hdisk,Nat.add_comm n 1,← sectorsMoved_add,List.append_assoc]
    rfl

/-! ## Commands -/

/-- Where the device looks for a drive of the driver. -/
def isSlave (drive : BitVec 8) : Bool := drive ≠ ataDriveMaster

theorem writeCommand_isSlave (drive : BitVec 8) (lba : BitVec 32) (count : BitVec 8) :
    (!(writeCommand drive lba count).toMaster) = isSlave drive := by
  have h := writeCommand_toMaster drive lba count
  by_cases hd : drive = ataDriveMaster
  · simp [isSlave,hd,writeCommand_toMaster]
  · have hno : ¬(writeCommand drive lba count).toMaster = true := fun ht => hd (h.mp ht)
    simp [isSlave,hd,hno]

theorem writeCommand_lba (drive : BitVec 8) {lba : BitVec 32} (count : BitVec 8)
    (hlba : lba.toNat < 2^28) : (writeCommand drive lba count).address.toNat = lba.toNat := by
  rw [writeCommand_address,BitVec.toNat_setWidth,Nat.mod_eq_of_lt hlba]

theorem Serves.programmed (h : Serves D V) {opcode : BitVec 8}
    (hop : opcode = cmdReadSectors ∨ opcode = cmdWriteSectors) {drive : BitVec 8} {lba : BitVec 32}
    {count : BitVec 8} (hlba : lba.toNat < 2^28) (hn : (writeCommand drive lba count).sectors = n)
    (hpos : n ≠ 0) (hc : V c.device = ⟨regs,disk,none,moved⟩) :
    V (Drivers.program D opcode drive lba count (ataPollBsyClear D.toDevice c).2).device =
      ⟨(writeCommand drive lba count).regs,disk,
        pendingFrom (opcode = cmdWriteSectors) (isSlave drive) lba.toNat n,moved⟩ := by
  obtain ⟨-,hpoll⟩ := h.bsyClear_poll (c:=c) (by rw [hc])
  rw [h.program hop drive lba count (by rw [hpoll,hc]),hpoll,hc,writeCommand_isSlave,
    writeCommand_lba drive count hlba,hn,pendingFrom,if_neg hpos]

theorem Serves.readChunk (h : Serves D V) {drive : BitVec 8} {lba : BitVec 32} {count : BitVec 8}
    (p : ℕ) (buf : ℕ → BitVec 16) (hlba : lba.toNat < 2^28)
    (hn : (writeCommand drive lba count).sectors = n) (hpos : n ≠ 0)
    (hc : V c.device = ⟨regs,disk,none,moved⟩) :
    (ataReadChunk D drive lba count p buf c).1 = 0 ∧
      (ataReadChunk D drive lba count p buf c).2.1 =
        readInto (disk (isSlave drive)) lba.toNat n p buf ∧
      ∃ regs', V (ataReadChunk D drive lba count p buf c).2.2.device =
        ⟨regs',disk,none,moved++sectorsMoved false (isSlave drive) lba.toNat n⟩ := by
  obtain ⟨hrc,-⟩ := h.bsyClear_poll (c:=c) (by rw [hc])
  have hprog := h.programmed (Or.inl rfl) hlba hn hpos hc
  obtain ⟨hrc',hbuf,hview⟩ := h.receiveSectors p buf hprog
  have hsectors : (if count = 0 then 256 else count.toNat) = n := hn
  simp only [ataReadChunk,hrc,hsectors]
  exact ⟨hrc',hbuf,_,hview⟩

theorem Serves.writeChunk (h : Serves D V) {drive : BitVec 8} {lba : BitVec 32} {count : BitVec 8}
    (buf : ℕ → BitVec 16) (hlba : lba.toNat < 2^28)
    (hn : (writeCommand drive lba count).sectors = n) (hpos : n ≠ 0)
    (hc : V c.device = ⟨regs,disk,none,moved⟩) :
    (ataWriteChunk D.toDevice drive lba count buf c).1 = 0 ∧
      ∃ regs', V (ataWriteChunk D.toDevice drive lba count buf c).2.device =
        ⟨regs',writeFrom disk (isSlave drive) lba.toNat n buf,none,
          moved++sectorsMoved true (isSlave drive) lba.toNat n⟩ := by
  obtain ⟨hrc,-⟩ := h.bsyClear_poll (c:=c) (by rw [hc])
  have hprog := h.programmed (Or.inr rfl) hlba hn hpos hc
  obtain ⟨hrc',hview⟩ := h.sendSectors 0 buf hprog
  have hsectors : (if count = 0 then 256 else count.toNat) = n := hn
  simp only [ataWriteChunk,hrc,hsectors]
  simp only [Nat.zero_add] at hview
  exact ⟨hrc',_,hview⟩

/-! ## Whole requests -/

theorem chunk_numbers {lba count : BitVec 32} (hfit : lba.toNat+count.toNat ≤ 2^28) :
    (lba+chunkOf count).toNat = lba.toNat+min 256 count.toNat ∧
      (count-chunkOf count).toNat = count.toNat-min 256 count.toNat := by
  have hc := chunkOf_toNat count
  rw [BitVec.toNat_add,BitVec.toNat_sub,hc]
  omega

theorem readInto_zero (sectors : ℕ → ℕ → BitVec 16) (lba p : ℕ) (buf : ℕ → BitVec 16) :
    readInto sectors lba 0 p buf = buf := by
  funext a
  rw [readInto,if_neg (by omega)]

theorem writeFrom_zero (disk : Bool → ℕ → ℕ → BitVec 16) (slave : Bool) (lba : ℕ)
    (buf : ℕ → BitVec 16) : writeFrom disk slave lba 0 buf = disk := by
  funext d l w
  rw [writeFrom,if_neg (by omega)]

@[simp] theorem sectorsMoved_zero (write slave : Bool) (lba : ℕ) :
    sectorsMoved write slave lba 0 = [] := rfl

/-- The loop of a read: by induction on the turns, each of which leaves the sectors of one
command behind. -/
theorem Serves.readChunks (h : Serves D V) (drive : BitVec 8) {turns : ℕ} {lba count : BitVec 32}
    (p : ℕ) (buf : ℕ → BitVec 16) (hturns : count.toNat ≤ turns)
    (hfit : lba.toNat+count.toNat ≤ 2^28) (hc : V c.device = ⟨regs,disk,none,moved⟩) :
    (Drivers.readChunks D drive turns lba count p buf c).1 = 0 ∧
      (Drivers.readChunks D drive turns lba count p buf c).2.1 =
        readInto (disk (isSlave drive)) lba.toNat count.toNat p buf ∧
      ∃ regs', V (Drivers.readChunks D drive turns lba count p buf c).2.2.device =
        ⟨regs',disk,none,moved++sectorsMoved false (isSlave drive) lba.toNat count.toNat⟩ := by
  induction turns generalizing lba count p buf c regs moved with
  | zero =>
    have h0 : count.toNat = 0 := by omega
    rw [h0,readInto_zero,sectorsMoved_zero,List.append_nil]
    exact ⟨rfl,rfl,regs,hc⟩
  | succ turns ih =>
    by_cases hcount : count = 0
    · have h0 : count.toNat = 0 := by rw [hcount]; rfl
      rw [Drivers.readChunks,if_pos hcount,h0,readInto_zero,sectorsMoved_zero,List.append_nil]
      exact ⟨rfl,rfl,regs,hc⟩
    have hpos : count.toNat ≠ 0 := by simpa [BitVec.toNat_eq] using hcount
    have hsplit : min 256 count.toNat+(count.toNat-min 256 count.toNat) = count.toNat := by omega
    obtain ⟨hlba',hcount'⟩ := chunk_numbers hfit
    obtain ⟨hrc,hbuf,regs',hview⟩ := h.readChunk p buf (by omega)
      (writeCommand_sectors drive lba hcount) (by omega) hc
    rw [Drivers.readChunks,if_neg hcount]
    simp only [hrc,hbuf,chunkOf_toNat]
    obtain ⟨hrc',hbuf',hview'⟩ := ih (p+min 256 count.toNat*256)
      (readInto (disk (isSlave drive)) lba.toNat (min 256 count.toNat) p buf)
      (show (count-chunkOf count).toNat ≤ turns by omega)
      (show (lba+chunkOf count).toNat+(count-chunkOf count).toNat ≤ 2^28 by omega) hview
    rw [hlba',hcount',readInto_add,hsplit] at hbuf'
    rw [hlba',hcount',List.append_assoc,sectorsMoved_add,hsplit] at hview'
    exact ⟨hrc',hbuf',hview'⟩

theorem Serves.writeChunks (h : Serves D V) (drive : BitVec 8) {turns : ℕ} {lba count : BitVec 32}
    (buf : ℕ → BitVec 16) (hturns : count.toNat ≤ turns)
    (hfit : lba.toNat+count.toNat ≤ 2^28) (hc : V c.device = ⟨regs,disk,none,moved⟩) :
    (Drivers.writeChunks D.toDevice drive turns lba count buf c).1 = 0 ∧
      ∃ regs', V (Drivers.writeChunks D.toDevice drive turns lba count buf c).2.device =
        ⟨regs',writeFrom disk (isSlave drive) lba.toNat count.toNat buf,none,
          moved++sectorsMoved true (isSlave drive) lba.toNat count.toNat⟩ := by
  induction turns generalizing lba count buf c regs moved disk with
  | zero =>
    have h0 : count.toNat = 0 := by omega
    rw [h0,writeFrom_zero,sectorsMoved_zero,List.append_nil]
    exact ⟨rfl,regs,hc⟩
  | succ turns ih =>
    by_cases hcount : count = 0
    · have h0 : count.toNat = 0 := by rw [hcount]; rfl
      rw [Drivers.writeChunks,if_pos hcount,h0,writeFrom_zero,sectorsMoved_zero,List.append_nil]
      exact ⟨rfl,regs,hc⟩
    have hpos : count.toNat ≠ 0 := by simpa [BitVec.toNat_eq] using hcount
    have hsplit : min 256 count.toNat+(count.toNat-min 256 count.toNat) = count.toNat := by omega
    obtain ⟨hlba',hcount'⟩ := chunk_numbers hfit
    obtain ⟨hrc,regs',hview⟩ := h.writeChunk buf (by omega)
      (writeCommand_sectors drive lba hcount) (by omega) hc
    rw [Drivers.writeChunks,if_neg hcount]
    simp only [hrc,chunkOf_toNat]
    obtain ⟨hrc',hview'⟩ := ih (fun k => buf (k+min 256 count.toNat*256))
      (show (count-chunkOf count).toNat ≤ turns by omega)
      (show (lba+chunkOf count).toNat+(count-chunkOf count).toNat ≤ 2^28 by omega) hview
    rw [hlba',hcount',writeFrom_add,List.append_assoc,sectorsMoved_add,hsplit] at hview'
    exact ⟨hrc',hview'⟩

theorem Serves.flush (h : Serves D V) (hc : V c.device = ⟨regs,disk,none,moved⟩) :
    (flushCache D.toDevice c).1 = 0 ∧
      V (flushCache D.toDevice c).2.device = ⟨regs,disk,none,moved⟩ := by
  obtain ⟨hrc,hpoll⟩ := h.bsyClear_poll (c:=c) (by rw [hc])
  rw [hc] at hpoll
  have hcmd := h.command cmdFlushCache _ (Or.inr (Or.inr rfl))
    (show (V (ataPollBsyClear D.toDevice c).2.device).pending = none by rw [hpoll])
  rw [hpoll,View.command,if_neg (by decide)] at hcmd
  have hwait : V (ata400nsDelay D.toDevice ((ataPollBsyClear D.toDevice c).2.outb D.toDevice .status
      cmdFlushCache)).device = ⟨regs,disk,none,moved⟩ := (h.delay _).trans hcmd
  obtain ⟨hrc',hpoll'⟩ := h.bsyClear_poll (by rw [hwait])
  simp only [flushCache,hrc]
  exact ⟨hrc',hpoll'.trans hwait⟩

variable {u : Setup} {drive : BitVec 8}

/-- The drive is one of the two, and it is there. -/
def Setup.Usable (u : Setup) (drive : BitVec 8) : Prop :=
  ¬ataDriveSlave < drive ∧ u.present drive = true

theorem Serves.readSectorsDrive (h : Serves D V) (hu : u.Usable drive) {lba count : BitVec 32}
    (p : ℕ) (buf : ℕ → BitVec 16) (hfit : lba.toNat+count.toNat ≤ 2^28)
    (hc : V c.device = ⟨regs,disk,none,moved⟩) :
    (ataReadSectorsDrive D u drive lba count p buf c).1 = 0 ∧
      (ataReadSectorsDrive D u drive lba count p buf c).2.1 =
        readInto (disk (isSlave drive)) lba.toNat count.toNat p buf ∧
      ∃ regs', V (ataReadSectorsDrive D u drive lba count p buf c).2.2.device =
        ⟨regs',disk,none,moved++sectorsMoved false (isSlave drive) lba.toNat count.toNat⟩ := by
  have hloop := h.readChunks drive p buf (le_refl count.toNat) hfit hc
  rw [ataReadSectorsDrive,if_neg hu.1,if_neg (by simp [hu.2])]
  split
  · rename_i h0
    subst h0
    exact hloop
  · exact hloop

theorem Serves.readSectorDrive (h : Serves D V) (hu : u.Usable drive) {lba : BitVec 32}
    (p : ℕ) (buf : ℕ → BitVec 16) (hfit : lba.toNat < 2^28)
    (hc : V c.device = ⟨regs,disk,none,moved⟩) :
    (ataReadSectorDrive D u drive lba p buf c).2.1 =
        readInto (disk (isSlave drive)) lba.toNat 1 p buf ∧
      ∃ regs', V (ataReadSectorDrive D u drive lba p buf c).2.2.device =
        ⟨regs',disk,none,moved++sectorsMoved false (isSlave drive) lba.toNat 1⟩ := by
  rw [ataReadSectorDrive,if_neg hu.1,if_neg (by simp [hu.2])]
  exact (h.readChunk p buf hfit rfl one_ne_zero hc).2

theorem Serves.writeSectorsDrive (h : Serves D V) (hu : u.Usable drive) {lba count : BitVec 32}
    (buf : ℕ → BitVec 16) (hfit : lba.toNat+count.toNat ≤ 2^28)
    (hfloor : drive = ataDriveMaster → writeProtectLbas ≤ lba.toNat)
    (hc : V c.device = ⟨regs,disk,none,moved⟩) :
    (ataWriteSectorsDrive D.toDevice u drive lba count buf c).1 = 0 ∧
      ∃ regs', V (ataWriteSectorsDrive D.toDevice u drive lba count buf c).2.device =
        ⟨regs',writeFrom disk (isSlave drive) lba.toNat count.toNat buf,none,
          moved++sectorsMoved true (isSlave drive) lba.toNat count.toNat⟩ := by
  obtain ⟨hrc,regs',hview⟩ := h.writeChunks drive buf (le_refl count.toNat) hfit hc
  rw [ataWriteSectorsDrive,if_neg hu.1,if_neg (by simp [hu.2])]
  by_cases hcount : count = 0
  · have h0 : count.toNat = 0 := by rw [hcount]; rfl
    rw [if_pos hcount,h0,writeFrom_zero,sectorsMoved_zero,List.append_nil]
    exact ⟨rfl,regs,hc⟩
  have hpos : count.toNat ≠ 0 := by simpa [BitVec.toNat_eq] using hcount
  have hwrap : ¬lba+count ≤ lba := by
    rw [BitVec.le_def,BitVec.toNat_add]
    omega
  rw [if_neg hcount,if_neg fun hlow => absurd (hfloor hlow.1) (not_le.mpr hlow.2),if_neg hwrap]
  simp only [hrc]
  obtain ⟨hrc',hflush⟩ := h.flush hview
  exact ⟨hrc',regs',hflush⟩

/-! ## One call for many sectors, and many calls for one -/

theorem offset_toNat {lba : BitVec 32} {i : ℕ} (hfit : lba.toNat+i < 2^28) :
    (lba+BitVec.ofNat 32 i).toNat = lba.toNat+i := by
  rw [BitVec.toNat_add,BitVec.toNat_ofNat]
  omega

theorem Serves.readSingly (h : Serves D V) (hu : u.Usable drive) {lba : BitVec 32} (p : ℕ)
    (buf : ℕ → BitVec 16) (hfit : lba.toNat+n ≤ 2^28) (hc : V c.device = ⟨regs,disk,none,moved⟩) :
    (Drivers.readSingly D u drive lba n p buf c).1 =
        readInto (disk (isSlave drive)) lba.toNat n p buf ∧
      ∃ regs', V (Drivers.readSingly D u drive lba n p buf c).2.device =
        ⟨regs',disk,none,moved++sectorsMoved false (isSlave drive) lba.toNat n⟩ := by
  induction n with
  | zero =>
    rw [readInto_zero,sectorsMoved_zero,List.append_nil]
    exact ⟨rfl,regs,hc⟩
  | succ n ih =>
    obtain ⟨hbuf,regs',hview⟩ := ih (by omega)
    have hlba : (lba+BitVec.ofNat 32 n).toNat = lba.toNat+n := offset_toNat (by omega)
    obtain ⟨hbuf',regs'',hview'⟩ := h.readSectorDrive hu (p+n*256)
      (Drivers.readSingly D u drive lba n p buf c).1
      (show (lba+BitVec.ofNat 32 n).toNat < 2^28 by omega) hview
    rw [Drivers.readSingly,List.range_succ,List.foldl_append,List.foldl_cons,List.foldl_nil]
    refine ⟨hbuf'.trans ?_,regs'',hview'.trans ?_⟩
    · rw [hbuf,hlba,readInto_add]
    · rw [hlba,List.append_assoc,sectorsMoved_add]

theorem Serves.writeSingly (h : Serves D V) (hu : u.Usable drive) {lba : BitVec 32}
    (buf : ℕ → BitVec 16) (hfit : lba.toNat+n ≤ 2^28)
    (hfloor : drive = ataDriveMaster → writeProtectLbas ≤ lba.toNat)
    (hc : V c.device = ⟨regs,disk,none,moved⟩) :
    ∃ regs', V (Drivers.writeSingly D u drive lba n buf c).device =
      ⟨regs',writeFrom disk (isSlave drive) lba.toNat n buf,none,
        moved++sectorsMoved true (isSlave drive) lba.toNat n⟩ := by
  induction n with
  | zero =>
    rw [writeFrom_zero,sectorsMoved_zero,List.append_nil]
    exact ⟨regs,hc⟩
  | succ n ih =>
    obtain ⟨regs',hview⟩ := ih (by omega)
    have hlba : (lba+BitVec.ofNat 32 n).toNat = lba.toNat+n := offset_toNat (by omega)
    have hfit' : (lba+BitVec.ofNat 32 n).toNat+(1 : BitVec 32).toNat ≤ 2^28 := by
      rw [hlba]
      exact hfit
    obtain ⟨-,regs'',hview'⟩ := h.writeSectorsDrive hu (fun k => buf (k+n*256)) hfit'
      (fun hd => (hfloor hd).trans (by omega)) hview
    rw [Drivers.writeSingly,List.range_succ,List.foldl_append,List.foldl_cons,List.foldl_nil]
    refine ⟨regs'',hview'.trans ?_⟩
    rw [hlba,show (1 : BitVec 32).toNat = 1 from rfl,writeFrom_add,List.append_assoc,
      sectorsMoved_add]

theorem unusable_calls (hu : ¬u.Usable drive) (lba count : BitVec 32) (p : ℕ)
    (buf : ℕ → BitVec 16) (c : Channel σ) :
    (ataReadSectorsDrive D u drive lba count p buf c).2 = (buf,c) ∧
      (ataReadSectorDrive D u drive lba p buf c).2 = (buf,c) ∧
      (ataWriteSectorsDrive D.toDevice u drive lba count buf c).2 = c := by
  simp only [Setup.Usable,not_and_or,not_not,Bool.not_eq_true] at hu
  simp only [ataReadSectorsDrive,ataReadSectorDrive,ataWriteSectorsDrive]
  by_cases hslave : ataDriveSlave < drive
  · simp only [if_pos hslave,and_self]
  · simp only [if_neg hslave,if_pos (hu.resolve_left hslave),and_self]

theorem unusable_singly (hu : ¬u.Usable drive) (lba : BitVec 32) (n p : ℕ)
    (buf : ℕ → BitVec 16) (c : Channel σ) :
    Drivers.readSingly D u drive lba n p buf c = (buf,c) ∧
      Drivers.writeSingly D u drive lba n buf c = c := by
  induction n with
  | zero => exact ⟨rfl,rfl⟩
  | succ n ih =>
    constructor
    · rw [Drivers.readSingly,List.range_succ,List.foldl_append,List.foldl_cons,List.foldl_nil]
      rw [Drivers.readSingly] at ih
      rw [ih.1]
      exact (unusable_calls hu _ 0 _ _ _).2.1
    · rw [Drivers.writeSingly,List.range_succ,List.foldl_append,List.foldl_cons,List.foldl_nil]
      rw [Drivers.writeSingly] at ih
      rw [ih.2]
      exact (unusable_calls hu _ 1 0 _ _).2.2

end

/-- On a device that serves, a call for many sectors leaves buffer and disk as consecutive calls
for one sector each do, and transfers the same sectors: on a drive that is there every one of them
once, in order, with return value 0. -/
theorem multi_sector_eq_single {σ : Type} (D : WordDevice σ) (V : σ → View) (h : Serves D V)
    (u : Setup) (drive : BitVec 8) (lba count : BitVec 32) (hfit : lba.toNat+count.toNat ≤ 2^28)
    (c : Channel σ) (hidle : (V c.device).pending = none) (p : ℕ) (buf : ℕ → BitVec 16) :
    (let multi := ataReadSectorsDrive D u drive lba count p buf c
    let single := readSingly D u drive lba count.toNat p buf c
    multi.2.1 = single.1 ∧ (V multi.2.2.device).disk = (V single.2.device).disk ∧
      (V multi.2.2.device).moved = (V single.2.device).moved ∧
      (u.Usable drive → multi.1 = 0 ∧
        multi.2.1 = readInto ((V c.device).disk (isSlave drive)) lba.toNat count.toNat p buf ∧
        (V multi.2.2.device).disk = (V c.device).disk ∧
        (V multi.2.2.device).moved =
          (V c.device).moved++sectorsMoved false (isSlave drive) lba.toNat count.toNat)) ∧
    ((drive = ataDriveMaster → writeProtectLbas ≤ lba.toNat) →
      let multi := ataWriteSectorsDrive D.toDevice u drive lba count buf c
      let single := writeSingly D u drive lba count.toNat buf c
      (V multi.2.device).disk = (V single.device).disk ∧
        (V multi.2.device).moved = (V single.device).moved ∧
        (u.Usable drive → multi.1 = 0 ∧
          (V multi.2.device).disk =
            writeFrom (V c.device).disk (isSlave drive) lba.toNat count.toNat buf ∧
          (V multi.2.device).moved =
            (V c.device).moved++sectorsMoved true (isSlave drive) lba.toNat count.toNat)) := by
  have hc : V c.device = ⟨(V c.device).regs,(V c.device).disk,none,(V c.device).moved⟩ := by
    rw [← hidle]
  by_cases hu : u.Usable drive
  · constructor
    · obtain ⟨hrc,hbuf,_,hview⟩ := h.readSectorsDrive hu p buf hfit hc
      obtain ⟨hbuf',_,hview'⟩ := h.readSingly hu p buf hfit hc
      simp only [hrc,hbuf,hbuf',hview,hview']
      simp
    · intro hfloor
      obtain ⟨hrc,_,hview⟩ := h.writeSectorsDrive hu buf hfit hfloor hc
      obtain ⟨_,hview'⟩ := h.writeSingly hu buf hfit hfloor hc
      simp only [hrc,hview,hview']
      simp
  · obtain ⟨hread,-,hwrite⟩ := unusable_calls (D:=D) hu lba count p buf c
    obtain ⟨hread',hwrite'⟩ := unusable_singly (D:=D) hu lba count.toNat p buf c
    simp only [hread,hread',hwrite,hwrite']
    simp [hu]

/-- A device that is always ready. -/
def readyDisk : WordDevice View where
  inb _ v := (if v.pending.isSome then 0x58 else 0x50,v)
  outb p x v := if p = .status then v.command x else { v with regs := v.regs.set x p }
  outw x v := match v.pending with
    | none => v
    | some t => (v.put t x).advance t
  inw v := match v.pending with
    | none => (0,v)
    | some t => (v.disk t.slave t.lba t.word,v.advance t)

theorem readyDisk_serves : Serves readyDisk id where
  inb _ _ := rfl
  ready v hv := ⟨0,by decide,fun k hk => absurd hk (Nat.not_lt_zero k),by
    simp only [id] at hv
    simp [readyDisk,hv],by
    simp only [id] at hv
    simp [readyDisk,hv]
    decide⟩
  request v hv := ⟨0,by decide,fun k hk => absurd hk (Nat.not_lt_zero k),by
    simp only [id,ne_eq,← Option.isSome_iff_ne_none] at hv
    simp [readyDisk,hv],by
    simp only [id,ne_eq,← Option.isSome_iff_ne_none] at hv
    simp [readyDisk,hv]
    decide⟩
  register p x v hp _ := if_neg hp
  command x v _ _ := by simp [readyDisk]
  inw v t ht _ := by
    simp only [id] at ht
    simp [readyDisk,ht]
  outw x v t ht _ := by
    simp only [id] at ht
    simp [readyDisk,ht]

/-- Both drives are there, and every word of a disk shows where it is. -/
def numberedDisks : Channel View :=
  ⟨⟨0,0,0,0,0⟩,[],⟨⟨0,0,0,0,0⟩,fun _ l w => BitVec.ofNat 16 (l*256+w),none,[]⟩⟩

theorem multi_sector_eq_single_numbered :
    (ataReadSectorsDrive readyDisk ⟨fun _ => true,0,true⟩ 1 5 300 0 (fun _ => 0) numberedDisks).2.1
      (299*256+7) = BitVec.ofNat 16 (304*256+7) := by
  have h := (multi_sector_eq_single readyDisk id readyDisk_serves ⟨fun _ => true,0,true⟩ 1 5 300
    (by decide) numberedDisks rfl 0 fun _ => 0).1
  rw [(h.2.2.2 ⟨by decide,rfl⟩).2.1,readInto,if_pos (by decide)]
  rfl

end Drivers
end DonsOs
