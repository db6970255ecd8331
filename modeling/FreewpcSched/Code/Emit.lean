import FreewpcSched.Code.Table

/-!
# `write_tick_driver`

The emitter prints the generated C file line by line. `CLine` keeps each
printed line as the declaration, statement or brace it is, with the symbols
it names; indentation and the `%g` renderings of lengths are not kept. A
call line also records which entry of the task table its slot pointed at:
that index is not printed, it is how a call is traced back to its task.

Each handler body walks the dividers `1, 2, 4, …` up to `max_divider`,
writes the slots of each in slot order, and opens an
`if (!(<prefix>_divider & (d - 1)))` block before the first slot of a
divider above 1. The blocks are all closed together after the last divider,
so they nest. Then come the counter increment in the last handler, the
assignment of the successor handler, and the cost comment.

`write_tick_driver` is total here; `emitFault?` names the first place where
the C code would leave defined behaviour instead, and `main` checks it before
emitting.
-/

namespace FreewpcSched

/-- One printed line of the generated file. -/
inductive CLine where
  /-- `/* <text> */` -/
  | comment (text : List Char)
  /-- `ATTR_FASTVAR void (*<prefix>_function) (void);` -/
  | functionVar (pfx : List Char)
  /-- `ATTR_FASTVAR unsigned char <prefix>_divider;` -/
  | dividerVar (pfx : List Char)
  /-- `#include "<file>"` -/
  | include (file : List Char)
  /-- an empty line -/
  | blank
  /-- `static __interrupt__ void <prefix>_<n> (void);` -/
  | prototype (pfx : List Char) (n : Nat)
  /-- `static __interrupt__ void <prefix>_<n> (void)` -/
  | handlerHead (pfx : List Char) (n : Nat)
  /-- `{` -/
  | blockBegin
  /-- `}` -/
  | blockEnd
  /-- `if (!(<prefix>_divider & <mask>))` -/
  | ifDivider (pfx : List Char) (mask : Nat)
  /-- `extern void <name> (void);` -/
  | declare (name : List Char)
  /-- `<name> (); /* <len> interrupts / … cycles */`, written for task `task` -/
  | call (name : List Char) (task : Nat) (len : Binary64)
  /-- `<prefix>_divider++;` -/
  | incDivider (pfx : List Char)
  /-- `<prefix>_function = <prefix>_<n>;` -/
  | setFunction (pfx : List Char) (n : Nat)
  /-- `/* <len> interrupts / … cycles */` -/
  | timeComment (len : Binary64)
  /-- ` void <prefix>_driver (void)` -/
  | driverHead (pfx : List Char)
  /-- `#ifdef __m6809__` -/
  | ifdefM6809
  /-- `asm ("jmp [_<prefix>_function]");` -/
  | jumpFunction (pfx : List Char)
  /-- `#else` -/
  | elseDirective
  /-- `(*<prefix>_function) ();` -/
  | callFunction (pfx : List Char)
  /-- `#endif` -/
  | endifDirective
  /-- `void <prefix>_init (void)` -/
  | initHead (pfx : List Char)
  /-- `<prefix>_divider = 0;` -/
  | clearDivider (pfx : List Char)
  deriving DecidableEq, Repr

/-- The task a slot points at; a slot only ever points into the table. -/
def Sched.task (s : Sched) (t : Nat) : Task := s.tasks.getD t ⟨[], 0, .zero, 0, 0⟩

/-- The values of `div` in `for (div = 1; div <= max_divider; div *= 2)`: the
powers of two up to `max_divider`, in ascending order. The unsigned loop
reaches at most `2^31` before it would wrap, and `max_divider` stays below
256. -/
def dividerLoop (maxDivider : Nat) : List Nat :=
  ((List.range 32).map (2 ^ ·)).filter (· ≤ maxDivider)

/-- The name a call site in handler `n` uses for `task`: its name without a
leading `!`, and for a pre-unrolled task the suffix
`_<(n % (already_unrolled_count * period)) / period>`, computed in
`unsigned int`. -/
def callName (n : Nat) (task : Task) : List Char :=
  let name := if task.name.head? = some '!' then task.name.tail else task.name
  if task.alreadyUnrolledCount = 0 then name
  else
    let n1 := n % ((task.alreadyUnrolledCount * task.period) % 2 ^ 32).toNat
    name ++ '_' :: (showUnsignedAsInt (n1 / task.period)).toList

/-- The lines for one slot: the `extern` prototype unless the task is an
inline macro (`!`), then the call. -/
def slotLines (s : Sched) (n : Nat) (sl : Slot) : List CLine :=
  let task := s.task sl.task
  (if task.name.head? = some '!' then [] else [.declare (callName n task)]) ++
    [.call (callName n task) sl.task task.len]

/-- One round of the divider loop in handler `n`: the slots with divider
`div`, in slot order, after the opening of their `if` block when `div > 1`
and there is any. -/
def dividerGroup (o : Options) (s : Sched) (n div : Nat) : List CLine :=
  let slots := (s.ticks n).slots.filter (·.divider = div)
  (if 1 < div ∧ slots ≠ [] then [.blank, .ifDivider o.pfx (div - 1), .blockBegin] else []) ++
    slots.flatMap (slotLines s n)

/-- How many `if` blocks handler `n` opens: `divider_count`. -/
def openedBlocks (s : Sched) (n : Nat) : Nat :=
  ((dividerLoop s.maxDivider).filter fun d =>
    1 < d ∧ (s.ticks n).slots.filter (·.divider = d) ≠ []).length

/-- The lines between the braces of handler `n`. -/
def handlerBody (o : Options) (s : Sched) (n : Nat) : List CLine :=
  (dividerLoop s.maxDivider).flatMap (dividerGroup o s n) ++
    List.replicate (openedBlocks s n) .blockEnd ++
    (if n = s.nTicks - 1 ∧ 1 < s.maxDivider then [.incDivider o.pfx] else []) ++
    (if 1 < s.nTicks then [.setFunction o.pfx ((n + 1) % s.nTicks)] else []) ++
    [.timeComment (s.ticks n).len]

/-- The definition of handler `n`. -/
def handlerDef (o : Options) (s : Sched) (n : Nat) : List CLine :=
  [.handlerHead o.pfx n, .blockBegin] ++ handlerBody o s n ++ [.blockEnd, .blank]

/-- The driver: one jump, or one call, through `<prefix>_function`. -/
def driverDef (pfx : List Char) : List CLine :=
  [.driverHead pfx, .blockBegin, .ifdefM6809, .jumpFunction pfx, .elseDirective,
    .callFunction pfx, .endifDirective, .blockEnd, .blank]

/-- `<prefix>_init`. -/
def initDef (pfx : List Char) : List CLine :=
  [.initHead pfx, .blockBegin, .setFunction pfx 0, .clearDivider pfx, .blockEnd, .blank]

/-- `write_tick_driver (f)`: everything it prints to the output. -/
def writeTickDriver (o : Options) (s : Sched) : List CLine :=
  [.comment "Automatically generated by gensched".toList, .functionVar o.pfx, .blank,
    .dividerVar o.pfx] ++ o.includes.map .include ++ [.blank, .blank] ++
    (List.range s.nTicks).map (.prototype o.pfx) ++ [.blank] ++
    (List.range s.nTicks).flatMap (handlerDef o s) ++ driverDef o.pfx ++ initDef o.pfx

/-- `(int) (task->len * CYCLES_PER_TICK)` in the advice loop, where it leaves
`int`. -/
def adviceFault? (task : Task) : Option Fault :=
  match (task.len.mulNat cyclesPerTick).toInt32? with
  | none => some (.undefined "(int) of a cycle count out of range")
  | some _ => none

/-- A call-site name whose suffix divides by zero or does not fit in
`task_name[MAX_ID]`. -/
def nameFault? (n : Nat) (task : Task) : Option Fault :=
  if task.alreadyUnrolledCount = 0 then none
  else if (task.alreadyUnrolledCount * task.period) % 2 ^ 32 = 0 ∨ task.period = 0 then
    some .divByZero
  else if maxId ≤ (callName n task).length then some (.undefined "sprintf past task_name")
  else none

/-- The first place `write_tick_driver` leaves defined behaviour, in the order
it runs: the advice loop over the tasks, then the call sites of each
handler. -/
def emitFault? (s : Sched) : Option Fault :=
  (s.tasks.findSome? adviceFault?).orElse fun _ =>
    (List.range s.nTicks).findSome? fun n =>
      ((dividerLoop s.maxDivider).flatMap fun d =>
        (s.ticks n).slots.filter (·.divider = d)).findSome? fun sl =>
          nameFault? n (s.task sl.task)

end FreewpcSched
