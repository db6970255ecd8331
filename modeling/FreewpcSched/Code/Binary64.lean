import Mathlib.Data.Rat.Defs
import Mathlib.Algebra.Group.Nat.Basic
import Mathlib.Algebra.Group.Int

/-!
# `double` and `float`

`sched.c` keeps every length and cost in a `double`: a task's `len`, a tick's
accumulated `len`, the `total_len` and `best_len` of `find_best_tick`.
`parse_schedule` reads a length into a `float` first, `parse_time` divides a
cycle count by `1.0 * cycles_per_interrupt`, a period goes through
`(unsigned int)`, and the emitter's advice loop through `(int)`. This file
gives those operations their IEEE 754 meaning, round to nearest with ties to
even, so that the scheduler's comparisons are the ones the compiled program
makes.

A finite value is a sign, a significand and the exponent of its unit, in the
canonical form rounding produces: the significand has all its bits unless the
unit is the least one. Every operation writes its exact result as
`num / den * 2^e` over naturals and rounds it once. Everything is structural,
so `decide` evaluates concrete arithmetic; the sign of a zero is kept, though
only `%g` could show it.
-/

namespace FreewpcSched

/-- The number of binary digits of `n`, walking 32 bits at a time while the
value is long; `fuel` only bounds the recursion, and `n` itself is enough. -/
def bitLen : Nat → Nat → Nat
  | 0, _ => 0
  | fuel + 1, n =>
    if n = 0 then 0
    else if n >>> 32 = 0 then bitLen fuel (n / 2) + 1
    else bitLen fuel (n >>> 32) + 32

/-- A binary format: significand bits, and the unit exponents of the least
subnormal and of the largest finite value. -/
structure Format where
  prec : Nat
  emin : Int
  emax : Int

/-- IEEE 754 binary64, C's `double`. -/
def binary64 : Format := ⟨53, -1074, 971⟩

/-- IEEE 754 binary32, C's `float`. -/
def binary32 : Format := ⟨24, -149, 104⟩

/-- The significand and unit exponent of `f` nearest to `num / den * 2^e`,
ties to even, or `none` when the value rounds past the largest finite one.
The quotient is taken with `prec + 2` spare bits and a sticky bit below them,
so a tie is only ever seen on an exact value. -/
def Format.roundPair (f : Format) (num den : Nat) (e : Int) : Option (Nat × Int) :=
  if num = 0 then some (0, f.emin) else
  let k := f.prec + 2 + bitLen den den
  let q := (num <<< k) / den
  let n := 2 * q + if (num <<< k) % den = 0 then 0 else 1
  let en := e - k - 1
  let u := max (en + (bitLen n n : Int) - f.prec) f.emin
  let s := (u - en).toNat
  let r := n % (1 <<< s)
  let half := 1 <<< (s - 1)
  let m := n >>> s
  let m := if half < r ∨ (r = half ∧ m % 2 = 1) then m + 1 else m
  let mu := if m = 1 <<< f.prec then (1 <<< (f.prec - 1), u + 1) else (m, u)
  if f.emax < mu.2 then none else some mu

/-- A `double`: a finite `(-1)^neg * m * 2^e` in the form `binary64.roundPair`
gives, an infinity, or a NaN. -/
inductive Binary64 where
  | finite (neg : Bool) (m : Nat) (e : Int)
  | infinity (neg : Bool)
  | nan
  deriving DecidableEq, Repr

namespace Binary64

/-- The `double` nearest to `(-1)^neg * num / den * 2^e`. -/
def round (neg : Bool) (num den : Nat) (e : Int) : Binary64 :=
  match binary64.roundPair num den e with
  | some (m, u) => finite neg m u
  | none => infinity neg

/-- The rational number a finite `double` stands for; an infinity or a NaN
stands for none. -/
def toRat? : Binary64 → Option ℚ
  | finite s m e =>
    some ((if s then -1 else 1) *
      if 0 ≤ e then ((m * 2 ^ e.toNat : Nat) : ℚ) else (m : ℚ) / ((2 ^ (-e).toNat : Nat) : ℚ))
  | _ => none

/-- An `unsigned int` or a literal converted to `double`. -/
def ofNat (n : Nat) : Binary64 := round false n 1 0

/-- `0.0`, the value `expand_ticks` and the zeroed globals start a tick at. -/
def zero : Binary64 := finite false 0 binary64.emin

/-- `-x`. -/
def neg : Binary64 → Binary64
  | finite s m e => finite (!s) m e
  | infinity s => infinity (!s)
  | nan => nan

/-- The signed significands of two finite values over their common unit. -/
def align (s₁ : Bool) (m₁ : Nat) (e₁ : Int) (s₂ : Bool) (m₂ : Nat) (e₂ : Int) :
    Int × Int × Int :=
  let e := min e₁ e₂
  let a : Int := (m₁ <<< (e₁ - e).toNat : Nat)
  let b : Int := (m₂ <<< (e₂ - e).toNat : Nat)
  (if s₁ then -a else a, if s₂ then -b else b, e)

/-- `x + y`. An exact zero sum is `+0.0` unless both addends are `-0.0`. -/
def add : Binary64 → Binary64 → Binary64
  | nan, _ => nan
  | _, nan => nan
  | infinity s, infinity t => if s = t then infinity s else nan
  | infinity s, finite .. => infinity s
  | finite .., infinity t => infinity t
  | finite s₁ m₁ e₁, finite s₂ m₂ e₂ =>
    let (a, b, e) := align s₁ m₁ e₁ s₂ m₂ e₂
    if a + b = 0 then finite (s₁ && s₂ && m₁ == 0) 0 binary64.emin
    else round (decide (a + b < 0)) (a + b).natAbs 1 e

/-- `x / d` for an unsigned divisor converted to `double`. -/
def divNat (x : Binary64) (d : Nat) : Binary64 :=
  match x with
  | finite s m e => if d = 0 then (if m = 0 then nan else infinity s) else round s m d e
  | infinity s => infinity s
  | nan => nan

/-- `x * d` for an unsigned factor converted to `double`. -/
def mulNat (x : Binary64) (d : Nat) : Binary64 :=
  match x with
  | finite s m e => round s (m * d) 1 e
  | infinity s => if d = 0 then nan else infinity s
  | nan => nan

/-- The order of two `double`s, `none` when one is a NaN. -/
def compare? : Binary64 → Binary64 → Option Ordering
  | nan, _ => none
  | _, nan => none
  | infinity s, infinity t => some (if s = t then .eq else if s then .lt else .gt)
  | infinity s, finite .. => some (if s then .lt else .gt)
  | finite .., infinity t => some (if t then .gt else .lt)
  | finite s₁ m₁ e₁, finite s₂ m₂ e₂ =>
    let (a, b, _) := align s₁ m₁ e₁ s₂ m₂ e₂
    some (compare a b)

/-- C's `x < y`: false whenever a NaN is involved. -/
def lt (x y : Binary64) : Bool := compare? x y == some .lt

/-- C's `x >= y`: false whenever a NaN is involved. -/
def ge (x y : Binary64) : Bool := compare? x y == some .gt || compare? x y == some .eq

/-- `(float) x`: the nearest binary32 value, held as the `double` it widens
back to when passed to `add_task`. -/
def toFloat : Binary64 → Binary64
  | finite s m e =>
    match binary32.roundPair m 1 e with
    | some (m', u) => round s m' 1 u
    | none => infinity s
  | x => x

/-- The integral part of a finite value, truncated toward zero, as a sign and
a magnitude. -/
def trunc (s : Bool) (m : Nat) (e : Int) : Bool × Nat :=
  (s, if 0 ≤ e then m <<< e.toNat else m >>> (-e).toNat)

/-- `(unsigned int) x`: `none` where C leaves the conversion undefined, on a
NaN, an infinity, or an integral part outside `[0, 2^32)`. -/
def toUInt32? : Binary64 → Option Nat
  | finite s m e =>
    let (s, t) := trunc s m e
    if t = 0 then some 0 else if s ∨ 2 ^ 32 ≤ t then none else some t
  | _ => none

/-- `(int) x`: `none` where C leaves the conversion undefined, on a NaN, an
infinity, or an integral part outside `[-2^31, 2^31)`. -/
def toInt32? : Binary64 → Option Int
  | finite s m e =>
    let (s, t) := trunc s m e
    if s then (if t ≤ 2 ^ 31 then some (-(t : Int)) else none)
    else if t < 2 ^ 31 then some t else none
  | _ => none

end Binary64

end FreewpcSched
