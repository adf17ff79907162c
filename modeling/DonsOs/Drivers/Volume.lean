import DonsOs.Drivers.Sectors
import DonsOs.Lib.Refine

/-! The FAT volume.
FatFs works on an array of sectors.  `diskio.c` keeps it on one of the two drives: on the slave
from the first sector on, or behind the boot area of the master. -/
namespace DonsOs
namespace Drivers

open Refine

section
variable {σ : Type} (D : WordDevice σ) (u : Setup)

def diskRead (pdrv : BitVec 8) (buf : ℕ → BitVec 16) (sector count : BitVec 32) (c : Channel σ) :
    DResult × (ℕ → BitVec 16) × Channel σ :=
  if pdrv ≠ 0 ∨ count = 0 then (.parerr,buf,c)
  else
    let r := ataReadSectorsDrive D u u.fatDrive (sector+u.fatPartitionOffset) count 0 buf c
    (if r.1 = 0 then .ok else .error,r.2)

def Setup.fatVolumeSectors : ℕ := if u.singleDrive then 40960-2048 else 40960

/-- What FatFs asks for: a transfer from or to `buf`. -/
structure Transaction where
  write : Bool
  pdrv : BitVec 8
  buf : ℕ → BitVec 16
  sector : BitVec 32
  count : BitVec 32

/-- FatFs gets the result and finds its buffer. -/
def transact (c : Channel σ) (r : Transaction) : (DResult × (ℕ → BitVec 16)) × Channel σ :=
  if r.write then
    let w := diskWrite D.toDevice u r.pdrv r.buf r.sector r.count c
    ((w.1,r.buf),w.2)
  else
    let w := diskRead D u r.pdrv r.buf r.sector r.count c
    ((w.1,w.2.1),w.2.2)

/-- The volume as FatFs takes it to be: a sector holds what was last written to it. -/
def onSectors (vol : ℕ → ℕ → BitVec 16) (r : Transaction) :
    (DResult × (ℕ → BitVec 16)) × (ℕ → ℕ → BitVec 16) :=
  if r.pdrv ≠ 0 ∨ r.count = 0 then ((.parerr,r.buf),vol)
  else if r.write then
    ((.ok,r.buf),fun l w =>
      if r.sector.toNat ≤ l ∧ l < r.sector.toNat+r.count.toNat ∧ w < 256 then
        r.buf ((l-r.sector.toNat)*256+w)
      else vol l w)
  else ((.ok,readInto vol r.sector.toNat r.count.toNat 0 r.buf),vol)

def Transaction.Inside (r : Transaction) : Prop :=
  r.sector.toNat+r.count.toNat ≤ u.fatVolumeSectors

instance (r : Transaction) : Decidable (r.Inside u) := inferInstanceAs (Decidable (_ ≤ _))

/-- The idle device holds the volume `vol`, and outside of it what was there `before`. -/
structure HoldsVolume (V : σ → View) (before : Bool → ℕ → ℕ → BitVec 16) (c : Channel σ)
    (vol : ℕ → ℕ → BitVec 16) : Prop where
  idle : (V c.device).pending = none
  inside : ∀ l, (V c.device).disk (isSlave u.fatDrive) (l+u.fatPartitionOffset.toNat) = vol l
  outside : ∀ d l, ¬(d = isSlave u.fatDrive ∧ u.fatPartitionOffset.toNat ≤ l ∧
      l < u.fatVolumeSectors+u.fatPartitionOffset.toNat) → (V c.device).disk d l = before d l

variable {D u}

/-- The sectors of a request lie behind the boot area, and their numbers fit. -/
theorem Transaction.Inside.place {r : Transaction} (h : r.Inside u) :
    (r.sector+u.fatPartitionOffset).toNat = r.sector.toNat+u.fatPartitionOffset.toNat ∧
      r.sector.toNat+u.fatPartitionOffset.toNat+r.count.toNat ≤ 2^28 ∧
      (u.fatDrive = ataDriveMaster → writeProtectLbas ≤ u.fatPartitionOffset.toNat) := by
  simp only [Transaction.Inside,Setup.fatVolumeSectors] at h
  rw [BitVec.toNat_add]
  cases hs : u.singleDrive <;>
    simp [hs,Setup.fatPartitionOffset,Setup.fatDrive,ataDriveMaster,ataDriveSlave,writeProtectLbas]
      at h ⊢ <;> omega

theorem transact_refines {V : σ → View} (h : Serves D V) (hu : u.Usable u.fatDrive)
    (before : Bool → ℕ → ℕ → BitVec 16) :
    Refines (transact D u) onSectors (fun _ r => r.Inside u) (HoldsVolume u V before) := by
  intro c vol r hc hr
  obtain ⟨hlba,hfit,hfloor⟩ := hr.place
  have hview : V c.device = ⟨(V c.device).regs,(V c.device).disk,none,(V c.device).moved⟩ := by
    rw [← hc.idle]
  rw [← hlba] at hfit
  simp only [transact,onSectors,diskRead,diskWrite]
  by_cases hbad : r.pdrv ≠ 0 ∨ r.count = 0
  · simp only [if_pos hbad]
    split <;> exact ⟨rfl,hc⟩
  simp only [if_neg hbad]
  cases r.write with
  | true =>
    obtain ⟨hrc,regs,hafter⟩ := h.writeSectorsDrive hu r.buf hfit
      (fun hd => (hfloor hd).trans (by omega)) hview
    simp only [if_true,hrc]
    refine ⟨trivial,by rw [hafter],fun l => ?_,fun d l hout => ?_⟩
    · rw [hafter,hlba]
      funext w
      simp only [writeFrom,true_and,← hc.inside,Nat.add_sub_add_right]
      exact if_congr (by omega) rfl rfl
    · rw [hafter,← hc.outside d l hout,hlba]
      funext w
      exact if_neg fun hin => hout ⟨hin.1,by omega,by unfold Transaction.Inside at hr; omega⟩
  | false =>
    obtain ⟨hrc,hbuf,regs,hafter⟩ := h.readSectorsDrive hu 0 r.buf hfit hview
    have hread : readInto ((V c.device).disk (isSlave u.fatDrive)) (r.sector+u.fatPartitionOffset).toNat
        r.count.toNat 0 r.buf = readInto vol r.sector.toNat r.count.toNat 0 r.buf := by
      funext a
      simp only [readInto,hlba,← hc.inside,Nat.add_right_comm]
    simp only [Bool.false_eq_true,if_false,if_true,hrc,hbuf,hread]
    exact ⟨trivial,by rw [hafter],by rw [hafter]; exact hc.inside,by rw [hafter]; exact hc.outside⟩

end

/-- Whatever FatFs reads and writes within its volume, it finds in a sector what it last wrote
there, with the result `RES_OK`; nothing outside of the volume ever changes. -/
theorem volume_is_sectors {σ : Type} (D : WordDevice σ) (V : σ → View) (h : Serves D V) (u : Setup)
    (hu : u.Usable u.fatDrive) (c : Channel σ) (hidle : (V c.device).pending = none)
    (rs : List Transaction) (hrs : ∀ r ∈ rs, r.Inside u) :
    let vol := fun l => (V c.device).disk (isSlave u.fatDrive) (l+u.fatPartitionOffset.toNat)
    (perform (transact D u) c rs).1 = (perform onSectors vol rs).1 ∧
      HoldsVolume u V (V c.device).disk (perform (transact D u) c rs).2 (perform onSectors vol rs).2 := by
  exact (transact_refines h hu (V c.device).disk).perform ⟨hidle,fun _ => rfl,fun _ _ _ => rfl⟩
    (meets_of_mem fun r hr _ => hrs r hr)

/-- A sector behind the boot area of the master is written and read back. -/
theorem volume_is_sectors_back :
    (perform (transact readyDisk ⟨fun _ => true,0,true⟩) numberedDisks
      [⟨true,0,fun _ => 7,5,1⟩,⟨false,0,fun _ => 0,5,1⟩]).1.map (fun r => (r.1,r.2 9)) =
        [(.ok,7),(.ok,7)] := by
  rw [(volume_is_sectors readyDisk id readyDisk_serves ⟨fun _ => true,0,true⟩
    ⟨by decide,rfl⟩ numberedDisks rfl [⟨true,0,fun _ => 7,5,1⟩,⟨false,0,fun _ => 0,5,1⟩] (by decide)).1]
  decide +kernel

end Drivers
end DonsOs
