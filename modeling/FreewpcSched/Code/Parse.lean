import FreewpcSched.Code.Table

/-!
# `parse_schedule`

The input loop calls `fgets (line, 511, f)` and stops as soon as `feof (f)`
holds, before looking at what that last call stored. `readLines` is that loop
on its own: the lines the body ever sees, in order. The body, `parseLine`,
splits the C string in the buffer with `strtok`, skips a blank line or one
whose first token starts with `#`, converts the period with
`(unsigned int) parse_time (...)` and the length with a `float` assignment,
checks `period & (period - 1)` and `len >= period`, and hands the line to
`addTask`. A missing token is passed to `parse_time` as a null pointer,
undefined behaviour.

`readLines` runs on fuel, one unit a line, and `parseSchedule` passes the
length of the input plus one: every line but the last one read consumes at
least a byte.
-/

namespace FreewpcSched

/-- `parse_time (string)`: a last byte `c` or `C` makes the number a count of
CPU cycles, divided by `1.0 * cycles_per_interrupt`. -/
def parseTime (string : List Char) : Binary64 :=
  match string.getLast? with
  | some 'c' | some 'C' => (strtod string).divNat cyclesPerTick
  | _ => strtod string

/-- The lines the `for (;;)` loop of `parse_schedule` hands to its body: each
`fgets (line, 511, f)` stores at most 510 bytes, and the loop ends on the
first call that meets end of file, whatever that call stored. -/
def readLines : Nat → List Char → List (List Char)
  | 0, _ => []
  | fuel + 1, input =>
    match fgets 510 input with
    | (line, rest, false) => line :: readLines fuel rest
    | (_, _, true) => []

/-- The body of the `parse_schedule` loop on the buffer `line`. -/
def parseLine (o : Options) (s : Sched) (line : List Char) : Except Fault Sched :=
  match strtok (cstr line) with
  | none => .ok s
  | some (lead, name, rest) =>
    if name.head? = some '#' then .ok s
    else match strtok rest with
      | none => .error (.undefined "parse_time (NULL) for the period")
      | some (_, periodToken, rest) =>
        match (parseTime periodToken).toUInt32? with
        | none => .error (.undefined "(unsigned int) of a period out of range")
        | some period =>
          if period &&& (period - 1) ≠ 0 then .error (.fatal (.invalidPeriod period name))
          else match strtok rest with
            | none => .error (.undefined "parse_time (NULL) for the length")
            | some (_, lenToken, _) =>
              let len := (parseTime lenToken).toFloat
              if len.ge (.ofNat period) then .error (.fatal (.lengthTooLong name))
              else addTask o s lead name period len

/-- `parse_schedule (f)` on the bytes of `f`. -/
def parseSchedule (o : Options) (s : Sched) (input : List Char) : Except Fault Sched :=
  (readLines (input.length + 1) input).foldlM (parseLine o) s

end FreewpcSched
