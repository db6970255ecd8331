import Mathlib.Algebra.Group.Nat.Basic
import Mathlib.Algebra.Group.Int

/-!
# `memset` of the 6809 headers

`asm-6809.h` replaces the library `memset` by an inline one that picks its
loop from the length: four 16-bit stores an iteration when `n % 8 == 0`, one
16-bit store an iteration when `n % 2 == 0`, and one byte store an iteration
otherwise. The word paths store `((U16)c << 8) | c`, the byte path
`c & 0xFF`.

Memory is the byte at each address. The 6809 is big-endian, so a store
through a `U16 *` writes the high byte at the lower address. Addresses are
not wrapped: `s[0..n)` lies inside one object. `n` is a
`long unsigned int`, so `n % 8`, `n / 8` and the rest are exact.
-/

namespace FreewpcSched

/-- `*p = b` for a byte. -/
def storeByte (mem : Nat → Nat) (p b : Nat) : Nat → Nat :=
  fun a => if a = p then b else mem a

/-- `*p = w` through a `U16 *`: the high byte at `p`, the low byte after it. -/
def storeWord (mem : Nat → Nat) (p w : Nat) : Nat → Nat :=
  storeByte (storeByte mem p (w / 256 % 256)) (p + 1) (w % 256)

/-- `((U16)c << 8) | c` as a `U16 *` stores it. The store keeps the low 16
bits of the `int` result, and those are the bits of `(c mod 2^16) << 8`
or-ed with `c mod 2^16`, whether `int` has 16 bits or 32. -/
def fillWord (c : Int) : Nat :=
  ((c % 65536).toNat <<< 8 ||| (c % 65536).toNat) % 65536

/-- `c & 0xFF` stored into a `char`. -/
def fillByte (c : Int) : Nat := (c % 256).toNat

/-- The `n % 8 == 0` loop: `k` rounds of four word stores from `p`. -/
def wordLoop4 (w : Nat) : Nat → Nat → (Nat → Nat) → Nat → Nat
  | 0, _, mem => mem
  | k + 1, p, mem =>
    wordLoop4 w k (p + 8)
      (storeWord (storeWord (storeWord (storeWord mem p w) (p + 2) w) (p + 4) w) (p + 6) w)

/-- The `n % 2 == 0` loop: `k` word stores from `p`. -/
def wordLoop (w : Nat) : Nat → Nat → (Nat → Nat) → Nat → Nat
  | 0, _, mem => mem
  | k + 1, p, mem => wordLoop w k (p + 2) (storeWord mem p w)

/-- The byte loop: `k` byte stores from `p`. -/
def byteLoop (b : Nat) : Nat → Nat → (Nat → Nat) → Nat → Nat
  | 0, _, mem => mem
  | k + 1, p, mem => byteLoop b k (p + 1) (storeByte mem p b)

/-- `memset (s, c, n)`: the memory it leaves, and the pointer it returns. -/
def memset (mem : Nat → Nat) (s : Nat) (c : Int) (n : Nat) : (Nat → Nat) × Nat :=
  (if n % 8 = 0 then wordLoop4 (fillWord c) (n / 8) s mem
    else if n % 2 = 0 then wordLoop (fillWord c) (n / 2) s mem
    else byteLoop (fillByte c) n s mem, s)

end FreewpcSched
