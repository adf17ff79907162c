import DonsOs.Sched.Model

/-! The keyboard: the ring of `keyboard.c`, its scancode tables, and what `irq1_handler` makes of
a scancode. -/
namespace DonsOs
namespace Drivers

open Sched (kbdBufferSize)

def nul : Char := Char.ofNat 0

/-- `kbd_buffer`, `kbd_head` and `kbd_tail`; the indices are taken modulo the size. -/
structure Ring where
  buffer : Fin kbdBufferSize → Char
  head : Fin kbdBufferSize
  tail : Fin kbdBufferSize

instance : NeZero kbdBufferSize := ⟨by decide⟩

/-- Nothing has arrived that was not fetched. -/
def Ring.Empty (r : Ring) : Prop := r.head = r.tail

instance (r : Ring) : Decidable r.Empty := inferInstanceAs (Decidable (_ = _))

/-- `kbd_buffer_put`: whether the character was stored, and the ring. -/
def kbdBufferPut (r : Ring) (c : Char) : Bool × Ring :=
  if c = nul then (false,r)
  else if r.head+1 = r.tail then (false,r)
  else (true,{ r with buffer := Function.update r.buffer r.head c, head := r.head+1 })

def kbdBufferGet (r : Ring) : Option Char × Ring :=
  if r.head = r.tail then (none,r)
  else (some (r.buffer r.tail),{ r with tail := r.tail+1 })

def keyboardBufferFlush (r : Ring) : Ring := { r with head := 0, tail := 0 }

theorem flush_empty (r : Ring) : (keyboardBufferFlush r).Empty := rfl

/-- An empty ring is one that has nothing to give. -/
theorem get_none_iff (r : Ring) : (kbdBufferGet r).1 = none ↔ r.Empty := by
  unfold kbdBufferGet Ring.Empty
  split_ifs with h <;> simp [h]

/-- A stretch of consecutive keys. -/
def keyRow (first : ℕ) (chars : String) : List (ℕ × Char) :=
  (List.range' first chars.length).zip chars.toList

def asciiKeys : List (ℕ × Char) :=
  keyRow 0x02 "1234567890-=\x08\t"++keyRow 0x10 "qwertyuiop[]\n"++keyRow 0x1E "asdfghjkl;'`"
    ++keyRow 0x2C "zxcvbnm,./"++keyRow 0x39 " "

def shiftKeys : List (ℕ × Char) :=
  keyRow 0x02 "!@#$%^&*()_+"++keyRow 0x10 "QWERTYUIOP\x7b\x7d"++keyRow 0x1E "ASDFGHJKL:\"~"
    ++keyRow 0x2C "ZXCVBNM<>?"++keyRow 0x39 " "

/-- `scancode_ascii` and `scancode_shift`: keys not listed are 0. -/
def keyChar (keys : List (ℕ × Char)) (code : BitVec 8) : Char := (keys.lookup code.toNat).getD nul

/-- Break codes give 0; caps lock turns letters into capitals unless shift is down. -/
def scancodeToAscii (sc : BitVec 8) (shift caps : Bool) : Char :=
  if sc&&&0x80 ≠ 0 then nul
  else
    let ch := keyChar (if shift then shiftKeys else asciiKeys) (sc&&&0x7F)
    if ch = nul then nul
    else if caps ∧ shift = false ∧ 'a' ≤ ch ∧ ch ≤ 'z' then
      Char.ofNat (ch.toNat - 'a'.toNat + 'A'.toNat)
    else ch

structure Keyboard where
  ring : Ring
  shift : Bool
  caps : Bool

/-- `irq1_handler` up to `kbd_buffer_put`: the modifiers, and the character if there is one. -/
def decodeKey (kb : Keyboard) (status sc : BitVec 8) : Option Char × Keyboard :=
  if status&&&0x01 = 0 then (none,kb)
  else if sc = 0x2A ∨ sc = 0x36 then (none,{ kb with shift := true })
  else if sc = 0xAA ∨ sc = 0xB6 then (none,{ kb with shift := false })
  else if sc = 0x3A then (none,{ kb with caps := !kb.caps })
  else if scancodeToAscii sc kb.shift kb.caps = nul then (none,kb)
  else (some (scancodeToAscii sc kb.shift kb.caps),kb)

theorem decodeKey_ring (kb : Keyboard) (status sc : BitVec 8) :
    (decodeKey kb status sc).2.ring = kb.ring := by
  unfold decodeKey
  split_ifs <;> rfl

/-- `keyboard_init`. -/
def keyboardInit : Keyboard := ⟨⟨fun _ => nul,0,0⟩,false,false⟩

end Drivers
end DonsOs
