import DevopsBroker.Lib.Text

/-!
# Texts that are read through a register

A `Cursor` goes over a text that ends with a `NUL`. The register holds the next characters, eight
at most; when it is used up the next eight are loaded. **`Cursor.Reads.char`**: whatever is
behind the `NUL`, and wherever a load falls, the cursor shows the text character by character.
-/

namespace DevopsBroker.Lib

/-- A register with characters, the address of the first one, and how many there are. -/
structure Cursor where
  register : Nat
  address : Nat
  counter : Nat

namespace Cursor

/-- Eight characters are loaded. -/
def load (mem : Mem) (address : Nat) : Cursor := ⟨orBytes mem 8 address 0 0, address, 8⟩

/-- The next character. -/
def char (c : Cursor) : UInt8 := lowByte c.register

/-- The character is shifted out, and the next eight are loaded when it was the last one. -/
def next (mem : Mem) (c : Cursor) : Cursor :=
  if c.counter - 1 = 0 then load mem (c.address + 1)
  else ⟨c.register / 256, c.address + 1, c.counter - 1⟩

/-- The cursor is at the start of a text, with some of its characters in the register. -/
structure Reads (mem : Mem) (c : Cursor) (text : List UInt8) : Prop where
  inMemory : TextAt mem c.address text
  loaded : Loaded c.register text c.counter
  pos : 0 < c.counter

@[simp] theorem next_address (mem : Mem) (c : Cursor) : (c.next mem).address = c.address + 1 := by
  unfold next
  split <;> rfl

theorem reads_load {mem : Mem} {address : Nat} {text : List UInt8} (h : TextAt mem address text) :
    (load mem address).Reads mem text := ⟨h, h.loaded 8, Nat.succ_pos 7⟩

/-- **The cursor shows the next character**, or the `NUL`. -/
theorem Reads.char {mem : Mem} {c : Cursor} {text : List UInt8} (h : c.Reads mem text) :
    c.char = text.headD 0 := by
  have hloaded := h.loaded
  obtain ⟨m, hm⟩ : ∃ m, c.counter = m + 1 := ⟨c.counter - 1, by have := h.pos; omega⟩
  rw [hm] at hloaded
  exact hloaded.lowByte_eq

theorem Reads.ne_zero {mem : Mem} {c : Cursor} {ch : UInt8} {text : List UInt8}
    (h : c.Reads mem (ch :: text)) : ch ≠ 0 := h.inMemory.ne_zero

/-- **Going on**, in a memory that is the same behind the character. -/
theorem Reads.next {mem mem' : Mem} {c : Cursor} {ch : UInt8} {text : List UInt8}
    (h : c.Reads mem (ch :: text)) (hsame : ∀ a, c.address < a → mem' a = mem a) :
    (c.next mem').Reads mem' text := by
  have htext' : TextAt mem' (c.address + 1) text :=
    h.inMemory.tail.congr fun a hle _ => hsame a hle
  have hloaded := h.loaded
  obtain ⟨m, hm⟩ : ∃ m, c.counter = m + 1 := ⟨c.counter - 1, by have := h.pos; omega⟩
  rw [hm] at hloaded
  unfold Cursor.next
  rw [hm, Nat.add_sub_cancel]
  split
  next _ => exact reads_load htext'
  next hne => exact ⟨htext', hloaded.shift, Nat.pos_of_ne_zero hne⟩

end Cursor

end DevopsBroker.Lib
