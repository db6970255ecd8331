import FreewpcSched.Code.Parse
import FreewpcSched.Code.Emit

/-!
# `main`

`main` calls `init_schedule`, walks its arguments in order, and writes the
driver once at the end. An argument starting with `-` is an option: its
second byte picks it, and the argument after it is consumed whether the
letter is known or not (`argv[argn++]` in the `switch`, then `argn++`). A
known option with nothing after it reads `argv[argc]`, a null pointer: `-D`
stores it in `conditionals[]`, which nothing reads again since no file
follows, and the others hand it to `fopen`, `strcpy`, `strtoul` or, through
`prefix`, to `fprintf`. Any
other argument names an input file, parsed with the options as they stand
at that point, so `-M` and `-D` apply to the files after them. `files` gives
the bytes of each file that opens; one that does not hands a null `FILE *`
to `parse_schedule`. `-o` only chooses where the text goes, and opening it
is assumed to succeed.
-/

namespace FreewpcSched

/-- One option with its value: `-i`, `-M`, `-p` and `-D` change the options,
`-o` and unknown letters leave them. -/
def applyOption (o : Options) (letter : Option Char) (arg : List Char) : Except Fault Options :=
  match letter with
  | some 'i' =>
    if maxIncludeFiles ≤ o.includes.length then .error (.undefined "include_files past MAX_INCLUDE_FILES")
    else if maxId ≤ arg.length then .error (.undefined "strcpy past an include name")
    else .ok { o with includes := o.includes ++ [arg] }
  | some 'M' => .ok { o with maxTicks := strtoul arg % 2 ^ 32 }
  | some 'p' => .ok { o with pfx := arg }
  | some 'D' =>
    if maxConditionals ≤ o.conditionals.length then
      .error (.undefined "conditionals past MAX_CONDITIONALS")
    else .ok { o with conditionals := o.conditionals ++ [arg] }
  | _ => .ok o

/-- The option letters that read the argument after them. -/
def takesArgument (letter : Option Char) : Bool :=
  letter = some 'o' || letter = some 'i' || letter = some 'M' || letter = some 'p' ||
    letter = some 'D'

/-- The `while (argn < argc)` loop of `main`. -/
def mainLoop (files : List Char → Option (List Char)) :
    List (List Char) → Options → Sched → Except Fault (Options × Sched)
  | [], o, s => .ok (o, s)
  | ('-' :: opt) :: args, o, s =>
    match args with
    | [] =>
      if opt.head? = some 'D' then
        if maxConditionals ≤ o.conditionals.length then
          .error (.undefined "conditionals past MAX_CONDITIONALS")
        else .ok (o, s)
      else if takesArgument opt.head? then .error (.undefined "an option reads argv[argc]")
      else .ok (o, s)
    | arg :: rest => do
      let o ← applyOption o opt.head? arg
      mainLoop files rest o s
  | file :: args, o, s =>
    match files file with
    | none => .error (.undefined "parse_schedule on a file that did not open")
    | some input => do
      let s ← parseSchedule o s input
      mainLoop files args o s

/-- What a run that returns `0` leaves: the options and the state the driver
was written from, and the lines written. -/
structure Output where
  options : Options
  sched : Sched
  program : List CLine

/-- `main (argc, argv)` on `argv[1..]`. -/
def main (argv : List (List Char)) (files : List Char → Option (List Char)) :
    Except Fault Output := do
  let (o, s) ← mainLoop files argv .default initSchedule
  match emitFault? s with
  | some f => throw f
  | none => return ⟨o, s, writeTickDriver o s⟩

end FreewpcSched
