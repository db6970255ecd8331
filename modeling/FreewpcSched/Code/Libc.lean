import FreewpcSched.Code.Binary64

/-!
# The C library calls `sched.c` makes

The scheduler reads its input through `fgets`, splits a line with `strtok`,
and converts numbers with `strtod` and `strtoul`, always passing a null end
pointer, so only the value matters. Each is modelled on the bytes it reads,
as glibc behaves: `strtod` takes the longest prefix that is a number,
decimal, hexadecimal, an infinity or a NaN, after optional white space and a
sign, and is `0.0` when there is none; the value is the exact number rounded
once. `strtoul` with base `0` picks hexadecimal, octal or decimal from the
prefix and saturates at `ULONG_MAX`.

Bytes are `Char`s; a text with a byte at or above 256 is not one the program
can receive. A C string ends at its first NUL byte (`cstr`).
-/

namespace FreewpcSched

/-- The C string a buffer holds: its bytes up to the first NUL. -/
def cstr (buf : List Char) : List Char := buf.takeWhile (· ≠ '\x00')

/-- The value of a byte as a `char`, which is signed on the target. -/
def charValue (c : Char) : Int :=
  if c.toNat % 256 < 128 then c.toNat % 256 else (c.toNat % 256 : Int) - 256

/-- `isspace` in the C locale. -/
def isSpace (c : Char) : Bool :=
  c = ' ' || c = '\t' || c = '\n' || c = '\x0b' || c = '\x0c' || c = '\r'

/-- The value of a decimal digit. -/
def decDigit (c : Char) : Option Nat :=
  if '0' ≤ c ∧ c ≤ '9' then some (c.toNat - '0'.toNat) else none

/-- The value of a hexadecimal digit. -/
def hexDigit (c : Char) : Option Nat :=
  if '0' ≤ c ∧ c ≤ '9' then some (c.toNat - '0'.toNat)
  else if 'a' ≤ c ∧ c ≤ 'f' then some (c.toNat - 'a'.toNat + 10)
  else if 'A' ≤ c ∧ c ≤ 'F' then some (c.toNat - 'A'.toNat + 10)
  else none

/-- The longest run of digits at the front of a text, read in `base` on top of
`acc`: its value, how many digits it had, and the text after it. -/
def takeDigits (base : Nat) (digit : Char → Option Nat) :
    List Char → Nat → Nat → Nat × Nat × List Char
  | [], acc, n => (acc, n, [])
  | c :: cs, acc, n =>
    match digit c with
    | some d => takeDigits base digit cs (acc * base + d) (n + 1)
    | none => (acc, n, c :: cs)

/-- An optional sign and at least one decimal digit, as `strtod` reads an
exponent; `none` when the text does not start with one. -/
def readExponent (cs : List Char) : Option Int :=
  let (neg, ds) := match cs with
    | '-' :: r => (true, r)
    | '+' :: r => (false, r)
    | r => (false, r)
  let (v, n, _) := takeDigits 10 decDigit ds 0 0
  if n = 0 then none else some (if neg then -(v : Int) else v)

/-- Whether a text starts with a word, ignoring case. -/
def startsWithCI (cs : List Char) (word : List Char) : Bool :=
  (cs.take word.length).map Char.toLower == word

/-- The `double` nearest to `(-1)^neg * n * 10^e`. Far outside the range of
`double` the answer is known without building the power: at least `10^401`
overflows and below `10^-400` rounds to zero. -/
def decimalValue (neg : Bool) (n : Nat) (digits : Nat) (e : Int) : Binary64 :=
  if n = 0 then .finite neg 0 binary64.emin
  else if 400 < e then .infinity neg
  else if (digits : Int) + e < -400 then .finite neg 0 binary64.emin
  else if 0 ≤ e then Binary64.round neg (n * 10 ^ e.toNat) 1 0
  else Binary64.round neg n (10 ^ (-e).toNat) 0

/-- The `double` nearest to `(-1)^neg * n * 2^e`, with the same shortcut. -/
def binaryValue (neg : Bool) (n : Nat) (e : Int) : Binary64 :=
  if n = 0 then .finite neg 0 binary64.emin
  else if 1100 < e then .infinity neg
  else if (bitLen n n : Int) + e < -1200 then .finite neg 0 binary64.emin
  else Binary64.round neg n 1 e

/-- The number a `strtod` subject starts with, after white space and sign. -/
def strtodBody (neg : Bool) (cs : List Char) : Binary64 :=
  if startsWithCI cs "inf".toList then .infinity neg
  else if startsWithCI cs "nan".toList then .nan
  else
    let hex := match cs with
      | '0' :: x :: r =>
        if x = 'x' ∨ x = 'X' then
          let (ip, ni, r1) := takeDigits 16 hexDigit r 0 0
          let (v, nf, r2) := match r1 with
            | '.' :: r' => takeDigits 16 hexDigit r' ip 0
            | _ => (ip, 0, r1)
          if ni + nf = 0 then none
          else
            let p := match r2 with
              | c :: r' => if c = 'p' ∨ c = 'P' then (readExponent r').getD 0 else 0
              | [] => 0
            some (binaryValue neg v (p - 4 * nf))
        else none
      | _ => none
    match hex with
    | some v => v
    | none =>
      let (ip, ni, r1) := takeDigits 10 decDigit cs 0 0
      let (v, nf, r2) := match r1 with
        | '.' :: r' => takeDigits 10 decDigit r' ip 0
        | _ => (ip, 0, r1)
      if ni + nf = 0 then .zero
      else
        let p := match r2 with
          | c :: r' => if c = 'e' ∨ c = 'E' then (readExponent r').getD 0 else 0
          | [] => 0
        decimalValue neg v (ni + nf) (p - nf)

/-- `strtod (string, NULL)`. -/
def strtod (s : List Char) : Binary64 :=
  match s.dropWhile isSpace with
  | '-' :: r => strtodBody true r
  | '+' :: r => strtodBody false r
  | r => strtodBody false r

/-- `strtoul (string, NULL, 0)` on a 64-bit `unsigned long`. -/
def strtoul (s : List Char) : Nat :=
  let (neg, r) := match s.dropWhile isSpace with
    | '-' :: r => (true, r)
    | '+' :: r => (false, r)
    | r => (false, r)
  let (v, _, _) := match r with
    | '0' :: x :: d :: r' =>
      if (x = 'x' ∨ x = 'X') ∧ (hexDigit d).isSome then takeDigits 16 hexDigit (d :: r') 0 0
      else takeDigits 8 (fun c => (decDigit c).filter (· < 8)) r 0 0
    | '0' :: _ => takeDigits 8 (fun c => (decDigit c).filter (· < 8)) r 0 0
    | _ => takeDigits 10 decDigit r 0 0
  if 2 ^ 64 ≤ v then 2 ^ 64 - 1 else if neg then (2 ^ 64 - v) % 2 ^ 64 else v

/-- A delimiter of `parse_schedule`'s `strtok` calls, `" \t\n"`. -/
def isDelim (c : Char) : Bool := c = ' ' || c = '\t' || c = '\n'

/-- One `strtok` call on the C string it resumes at: `none` when only
delimiters are left, otherwise the number of delimiters skipped before the
token, the token, and the text after the delimiter that ends it (which
`strtok` overwrites with NUL). -/
def strtok (s : List Char) : Option (Nat × List Char × List Char) :=
  match s.dropWhile isDelim with
  | [] => none
  | t => some ((s.takeWhile isDelim).length, t.takeWhile (! isDelim ·),
      (t.dropWhile (! isDelim ·)).drop 1)

/-- One `fgets (line, k + 1, f)` on the bytes left in `f`: it stores at most
`k` bytes, up to and including a newline. The result is the bytes stored, the
bytes left, and whether the call ran into end of file, which `feof` then
reports. -/
def fgets : Nat → List Char → List Char × List Char × Bool
  | 0, rest => ([], rest, false)
  | _ + 1, [] => ([], [], true)
  | k + 1, c :: rest =>
    if c = '\n' then ([c], rest, false)
    else
      let (line, rest', eof) := fgets k rest
      (c :: line, rest', eof)

end FreewpcSched
