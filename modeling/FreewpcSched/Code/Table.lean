import FreewpcSched.Code.Libc

/-!
# The tick table and `add_task`

The globals of `sched.c` in two records: `Sched`, what `add_task` changes
(the tick table, the task table, `n_ticks`, `max_divider`), and `Options`,
what `main` sets from the command line. A slot's back-pointer to its task is
the task's index in the task table, which only ever grows.

`add_task` is cut along the source's own seams: the conditional and
`/<digit>` suffixes of the name, the branch that fixes the slot count and
divider (`slotPlan`, possibly unrolling the table with `expandTicks`),
`findBestTick`, and the placement loop around `allocSlot`. Every division and
remainder goes through `udiv`/`umod`, which stop on a zero divisor the way
the program dies of `SIGFPE`; a store past a fixed table, or a pointer formed
before the line buffer, is undefined behaviour, and the model stops there
too.
-/

namespace FreewpcSched

/-- `MAX_ID`, the size of a name buffer. -/
def maxId : Nat := 128

/-- `MAX_SLOTS_PER_TICK`. -/
def maxSlotsPerTick : Nat := 32

/-- `MAX_TASKS`. -/
def maxTasks : Nat := 64

/-- `MAX_INCLUDE_FILES`. -/
def maxIncludeFiles : Nat := 16

/-- `MAX_CONDITIONALS`. -/
def maxConditionals : Nat := 32

/-- `CYCLES_PER_TICK`, also `cycles_per_interrupt`. -/
def cyclesPerTick : Nat := 1952

/-- `struct task`. -/
structure Task where
  name : List Char
  period : Nat
  len : Binary64
  alreadyUnrolledCount : Int
  nSlots : Nat
  deriving DecidableEq, Repr

/-- `struct slot`, pointing at its task by index. -/
structure Slot where
  divider : Nat
  task : Nat
  deriving DecidableEq, Repr

/-- `struct tick`; its `n_slots` is the length of `slots`. -/
structure Tick where
  slots : List Slot
  len : Binary64
  deriving DecidableEq, Repr

/-- A tick as the zeroed globals and `expand_ticks` leave it. -/
def Tick.empty : Tick := ⟨[], .zero⟩

/-- The globals `add_task` changes: `n_ticks`, `ticks[]`, the task table and
`max_divider`. -/
structure Sched where
  nTicks : Nat
  ticks : Nat → Tick
  tasks : List Task
  maxDivider : Nat

/-- The globals `main` sets from its options: `max_ticks` (`-M`), the defined
conditionals (`-D`), the symbol prefix (`-p`) and the include files (`-i`). -/
structure Options where
  maxTicks : Nat
  conditionals : List (List Char)
  pfx : List Char
  includes : List (List Char)
  deriving DecidableEq, Repr

/-- The options before any is given. -/
def Options.default : Options := ⟨8, [], "tick".toList, []⟩

/-- The state after `init_schedule ()`: no ticks, no tasks, the tick table
zeroed and `max_divider = 1` as the globals start. -/
def initSchedule : Sched := ⟨0, fun _ => .empty, [], 1⟩

/-- The fatal diagnostics, each printed to `stderr` before `exit (1)`. -/
inductive Diagnostic where
  | invalidPeriod (period : Nat) (name : List Char)
  | lengthTooLong (name : List Char)
  | tooManySlots
  | periodTooLarge
  deriving DecidableEq, Repr

/-- `%d` of an `unsigned int`. -/
def showUnsignedAsInt (n : Nat) : String :=
  if n < 2 ^ 31 then toString n else toString ((n : Int) - 2 ^ 32)

/-- The text of a diagnostic. -/
def Diagnostic.text : Diagnostic → String
  | .invalidPeriod p name =>
    "error: invalid period '" ++ showUnsignedAsInt p ++ "' for '" ++ String.mk name ++
      "' (must be power of 2)\n"
  | .lengthTooLong name => "error: '" ++ String.mk name ++ "' has length greater than its period\n"
  | .tooManySlots =>
    "error: too many tasks scheduled in same tick\n" ++
      "Please increase MAX_SLOTS_PER_TICK and rebuild scheduler\n"
  | .periodTooLarge => "error: period too large\n"

/-- How a run stops before `main` returns `0`. -/
inductive Fault where
  /-- A diagnostic, then `exit (1)`. -/
  | fatal (d : Diagnostic)
  /-- An unsigned division or remainder by zero, which kills the process. -/
  | divByZero
  /-- Behaviour the C standard leaves undefined. -/
  | undefined (what : String)
  deriving DecidableEq, Repr

/-- Outcomes compare by value, so concrete runs can be decided. -/
instance instDecidableEqExcept {ε α : Type} [DecidableEq ε] [DecidableEq α] :
    DecidableEq (Except ε α)
  | .ok a, .ok b => decidable_of_iff (a = b) ⟨congrArg _, Except.ok.inj⟩
  | .error a, .error b => decidable_of_iff (a = b) ⟨congrArg _, Except.error.inj⟩
  | .ok _, .error _ => isFalse fun h => Except.noConfusion h
  | .error _, .ok _ => isFalse fun h => Except.noConfusion h

/-- Unsigned `a / b`. -/
def udiv (a b : Nat) : Except Fault Nat := if b = 0 then .error .divByZero else .ok (a / b)

/-- Unsigned `a % b`. -/
def umod (a b : Nat) : Except Fault Nat := if b = 0 then .error .divByZero else .ok (a % b)

/-- `ticks[i] = t`. -/
def Sched.setTick (s : Sched) (i : Nat) (t : Tick) : Sched :=
  { s with ticks := fun j => if j = i then t else s.ticks j }

/-- `expand_ticks (new_tick_count)`. The count it caps at `max_ticks` is never
read again: the table is always unrolled to 8 ticks, as the source's `TODO`
says, and the first 8 are cleared. -/
def expandTicks (s : Sched) (_newTickCount : Nat) : Sched :=
  { s with nTicks := 8, ticks := fun i => if i < 8 then .empty else s.ticks i }

/-- The cost `find_best_tick` charges candidate `tickno` (one of `cands`) for a
bucket already doing `candidateLen`. -/
def bucketCost (s : Sched) (period cands tickno : Nat) (len candidateLen : Binary64) :
    Binary64 :=
  if (candidateLen.add len).ge (.ofNat 1) then .ofNat 99999
  else if s.nTicks < period ∧ tickno = cands - 1 then (Binary64.ofNat 1).neg
  else candidateLen

/-- `total_len` for candidate `tickno`: its `count` buckets, `cands` apart. -/
def candidateCost (s : Sched) (period count cands : Nat) (len : Binary64) (tickno : Nat) :
    Binary64 :=
  (List.range count).foldl (fun total index =>
    total.add (bucketCost s period cands tickno len (s.ticks (tickno + cands * index)).len))
    .zero

/-- `find_best_tick (period, count, len)`: the first candidate whose total is
below every earlier one, starting from `best_len = 99999.0`. -/
def findBestTick (s : Sched) (period count : Nat) (len : Binary64) : Except Fault Nat := do
  let cands ← udiv s.nTicks count
  return ((List.range cands).foldl (fun (best : Nat × Binary64) tickno =>
    let total := candidateCost s period count cands len tickno
    if total.lt best.2 then (tickno, total) else best) (0, .ofNat 99999)).1

/-- `alloc_slot (tickno)` and the stores `add_task` makes through it: the slot
with its divider and task, and the tick's length grown by `len / divider`. -/
def allocSlot (s : Sched) (tickno divider t : Nat) (len : Binary64) : Except Fault Sched :=
  let tick := s.ticks tickno
  if tick.slots.length + 1 = maxSlotsPerTick then .error (.fatal .tooManySlots)
  else .ok (s.setTick tickno ⟨tick.slots ++ [⟨divider, t⟩], tick.len.add (len.divNat divider)⟩)

/-- The `while (count > 0)` loop of `add_task`: a slot at `base`, then
`base = (base + period) % n_ticks`, counting the task's `n_slots`. A period
reaching this loop is an `unsigned int` that is `0` or a power of two, so
`base + period` never wraps. -/
def placeSlots (period divider t : Nat) (len : Binary64) :
    Nat → Nat → Sched × Nat → Except Fault (Sched × Nat)
  | 0, _, acc => .ok acc
  | count + 1, base, (s, nSlots) => do
    let s' ← allocSlot s base divider t len
    let base' ← umod (base + period) s.nTicks
    placeSlots period divider t len count base' (s', nSlots + 1)

/-- The name `add_task` keeps after a `?cond` suffix, or `none` when `cond` is
not a defined conditional and the entry is skipped. -/
def stripConditional (conds : List (List Char)) (name : List Char) : Option (List Char) :=
  match name.span (· ≠ '?') with
  | (_, []) => some name
  | (base, _ :: cond) => if cond ∈ conds then some base else none

/-- The `<function>/<digit>` suffix: the stored name and
`already_unrolled_count`. `lead` bytes of the line buffer precede the name, so
`name + strlen (name) - 2` is a pointer into the buffer only when
`lead + strlen (name) ≥ 2`; those bytes are delimiters, never `'/'`. -/
def stripUnrolled (lead : Nat) (name : List Char) : Except Fault (List Char × Int) :=
  if lead + name.length < 2 then .error (.undefined "name + strlen (name) - 2 before the buffer")
  else match name.reverse with
    | d :: '/' :: base => .ok (base.reverse, charValue d - charValue '0')
    | _ => .ok (name, 0)

/-- The branch of `add_task` that fixes the slot count and the divider,
unrolling the table or raising `max_divider` on the way. -/
def slotPlan (o : Options) (s : Sched) (period : Nat) : Except Fault (Sched × Nat × Nat) :=
  if s.nTicks < period then
    if period ≤ o.maxTicks then do
      let s := expandTicks s period
      let count ← udiv s.nTicks period
      return (s, count, 1)
    else do
      let divider ← udiv period s.nTicks
      if s.maxDivider < divider then
        if 256 ≤ divider then throw (.fatal .periodTooLarge)
        return ({ s with maxDivider := divider }, 1, divider)
      else return (s, 1, divider)
  else do
    let count ← udiv s.nTicks period
    return (s, count, 1)

/-- `add_task (name, period, len)`, where `lead` bytes of the line buffer
precede `name`. -/
def addTask (o : Options) (s : Sched) (lead : Nat) (name : List Char) (period : Nat)
    (len : Binary64) : Except Fault Sched :=
  match stripConditional o.conditionals name with
  | none => .ok s
  | some name => do
    let (name, alreadyUnrolledCount) ← stripUnrolled lead name
    if maxTasks ≤ s.tasks.length then throw (.undefined "tasks[n_tasks++] past MAX_TASKS")
    if maxId ≤ name.length then throw (.undefined "strcpy past task->name")
    let (s, count, divider) ← slotPlan o s period
    let base ← findBestTick s period count len
    let (s, nSlots) ← placeSlots period divider s.tasks.length len count base (s, 0)
    return { s with tasks := s.tasks ++ [⟨name, period, len, alreadyUnrolledCount, nSlots⟩] }

end FreewpcSched
