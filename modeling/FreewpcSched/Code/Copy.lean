import FreewpcSched.Code.Memset

/-!
# The copy and clear routines of the 6809 headers

Beside `memset`, `asm-6809.h` replaces `memcpy`, `memmove` and `strlen` by
inline ones, and adds `__blockclear16` and `__blockcopy16` for blocks whose
size is a multiple of 16.

`memcpy` moves one byte an iteration, from the low address up, counting `n`
down to zero; `memmove` calls `memcpy`, under a `TODO` saying that this will
not always work. The block routines are `do`-`while` loops of eight 16-bit
moves a round, that take 16 from `n` after each round and stop when it is
zero. `n` is a `long unsigned int`, 32 bits on the 6809, so `n -= 16` wraps
modulo `2^32`: a length that is not a multiple of 16 never reaches zero. The
loop is therefore given a bound on its rounds, and is `none` when the bound
runs out. `strlen` counts the bytes before a zero byte, with the same kind of
bound.

Memory is the byte at each address, as for `memset`. A move through `U16 *`
loads both bytes of the source word before it stores either of them.
-/

namespace FreewpcSched

/-- The `while (n > 0)` loop of `memcpy`: `k` moves `*_s1++ = *_s2++` of one
byte, from `p` and `q` up. -/
def copyLoop : Nat → Nat → Nat → (Nat → Nat) → Nat → Nat
  | 0, _, _, mem => mem
  | k + 1, p, q, mem => copyLoop k (p + 1) (q + 1) (storeByte mem p (mem q))

/-- `memcpy (s1, s2, n)`: the memory it leaves, and the pointer it returns. -/
def memcpy (mem : Nat → Nat) (s1 s2 n : Nat) : (Nat → Nat) × Nat :=
  (copyLoop n s1 s2 mem, s1)

/-- `memmove (s1, s2, n)`, which returns `memcpy (s1, s2, n)`. -/
def memmove (mem : Nat → Nat) (s1 s2 n : Nat) : (Nat → Nat) × Nat :=
  memcpy mem s1 s2 n

/-- `*_s1++ = 0UL` through a `U16 *`: the word at `p` cleared; `q` is not read. -/
def clearWord (mem : Nat → Nat) (p _q : Nat) : Nat → Nat :=
  storeWord mem p 0

/-- `*_s1++ = *_s2++` through `U16 *`: the word at `q` loaded, then stored at
`p`, high byte first. -/
def copyWord (mem : Nat → Nat) (p q : Nat) : Nat → Nat :=
  storeByte (storeByte mem p (mem q)) (p + 1) (mem (q + 1))

/-- `k` of the 16-bit moves `move`, storing from `p` up and reading from `q`
up. -/
def wordMoves (move : (Nat → Nat) → Nat → Nat → Nat → Nat) :
    Nat → Nat → Nat → (Nat → Nat) → Nat → Nat
  | 0, _, _, mem => mem
  | k + 1, p, q, mem => wordMoves move k (p + 2) (q + 2) (move mem p q)

/-- `n -= 16` on a 32-bit `long unsigned int`. -/
def sub16 (n : Nat) : Nat := (n + (2 ^ 32 - 16)) % 2 ^ 32

/-- The `do { eight moves; n -= 16; } while (n > 0);` loop of the block
routines, run for at most `fuel` rounds. -/
def block16 (move : (Nat → Nat) → Nat → Nat → Nat → Nat) :
    Nat → (Nat → Nat) → Nat → Nat → Nat → Option (Nat → Nat)
  | 0, _, _, _, _ => none
  | fuel + 1, mem, p, q, n =>
    let mem := wordMoves move 8 p q mem
    if 0 < sub16 n then block16 move fuel mem (p + 16) (q + 16) (sub16 n) else some mem

/-- `__blockclear16 (s1, n)`, run for at most `fuel` rounds. -/
def blockclear16 (fuel : Nat) (mem : Nat → Nat) (s1 n : Nat) : Option (Nat → Nat) :=
  block16 clearWord fuel mem s1 s1 n

/-- `__blockcopy16 (s1, s2, n)`, run for at most `fuel` rounds. -/
def blockcopy16 (fuel : Nat) (mem : Nat → Nat) (s1 s2 n : Nat) : Option (Nat → Nat) :=
  block16 copyWord fuel mem s1 s2 n

/-- The `while (*s != '\0')` loop of `strlen`, for at most `fuel` bytes. -/
def strlenLoop : Nat → (Nat → Nat) → Nat → Nat → Option Nat
  | 0, _, _, _ => none
  | fuel + 1, mem, s, len => if mem s ≠ 0 then strlenLoop fuel mem (s + 1) (len + 1) else some len

/-- `strlen (s)`, reading at most `fuel` bytes. -/
def strlen (fuel : Nat) (mem : Nat → Nat) (s : Nat) : Option Nat :=
  strlenLoop fuel mem s 0

end FreewpcSched
