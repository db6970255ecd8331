import FreewpcSched.Code.Emit

/-!
# What the generated file does

The generated file is the second program of this development, and this is
its meaning. A function is found the way a compiler finds it: the first line
naming it, an opening brace, and everything up to the matching closing brace
(`funcBody`). A body runs line by line with a stack of open blocks, one flag
each: a statement runs when every flag is set, an
`if (!(<prefix>_divider & m))` line decides the flag of the block it opens,
and a brace outside an `if` opens a block that runs.

The generated functions touch two globals, so that is the whole machine:
the handler `<prefix>_function` points at and `<prefix>_divider`, an
`unsigned char`. `<prefix>_init` sets both; the driver, on either branch of
its `#ifdef`, passes control once through the pointer, so one interrupt is
one run of the handler it points at.

A call line calls whatever its name names. Mostly that is a task outside
the file, and the call is only recorded. But a task may be named like one of
the file's own functions: `<prefix>_<n>` then runs handler `n`, and
`<prefix>_init` resets both globals, in the middle of the handler that
called them; `<prefix>_driver`, and an inline task `<prefix>_function`, call
through the pointer (`resolve`, `Run.call`). A task declared under the name
of one of the two globals does not compile (`compiles`). Calls nest at most
`maxDepth` deep, the most a 64 KiB stack of return addresses holds; a run
that goes deeper has overflowed its stack and has no meaning.
-/

namespace FreewpcSched

/-- A call made by the generated code: the function's name, and the task
whose slot the call line was written for. -/
structure Call where
  name : List Char
  task : Nat
  deriving DecidableEq, Repr

/-- A body part way through: the flags of the open blocks, innermost first;
the condition of the last `if`, waiting for its block; the calls made; the
divider; and the handler last stored in the function pointer. -/
structure Run where
  blocks : List Bool
  cond : Bool
  calls : List Call
  divider : Nat
  function : Option Nat
  deriving DecidableEq, Repr

/-- A body entered with the divider at `v` and the pointer at `f`. -/
def Run.start (v : Nat) (f : Option Nat) : Run := ⟨[], true, [], v, f⟩

/-- Whether a statement at this point runs. -/
def Run.active (r : Run) : Bool := r.blocks.all id

/-- What a statement does when it runs; a call is recorded, and `Run.call`
adds what the callee does when it is one of the file's own functions. -/
def Run.exec (r : Run) : CLine → Run
  | .ifDivider _ m => { r with cond := r.divider &&& m = 0 }
  | .call name t _ => { r with calls := r.calls ++ [⟨name, t⟩] }
  | .incDivider _ => { r with divider := (r.divider + 1) % 256 }
  | .setFunction _ n => { r with function := some n }
  | .clearDivider _ => { r with divider := 0 }
  | _ => r

/-- One line of a body. -/
def Run.step (r : Run) : CLine → Run
  | .blockBegin => { r with blocks := r.cond :: r.blocks, cond := true }
  | .blockEnd => { r with blocks := r.blocks.tail }
  | l => if r.active then r.exec l else r

/-- Running the lines of a body whose calls all leave the file. -/
def execBody (body : List CLine) (r : Run) : Run := body.foldl Run.step r

/-- The lines up to the brace that closes the block `d` levels out, or `none`
when it is never closed. -/
def takeBlock (d : Nat) : List CLine → Option (List CLine)
  | [] => none
  | l :: rest =>
    if l = .blockEnd then (if d = 0 then some [] else (l :: ·) <$> takeBlock (d - 1) rest)
    else (l :: ·) <$> takeBlock (if l = .blockBegin then d + 1 else d) rest

/-- The body of the function whose definition starts with `head`. -/
def funcBody (head : CLine) : List CLine → Option (List CLine)
  | [] => none
  | l :: rest =>
    if l = head then (if rest.head? = some .blockBegin then takeBlock 0 rest.tail else none)
    else funcBody head rest

/-- The function a head line defines, under the name a call uses:
`<prefix>_<n>` as `"%s_%d"` prints it, `<prefix>_driver` and `<prefix>_init`. -/
def CLine.defines : CLine → Option (List Char)
  | .handlerHead pfx n => some (pfx ++ '_' :: (showUnsignedAsInt n).toList)
  | .driverHead pfx => some (pfx ++ "_driver".toList)
  | .initHead pfx => some (pfx ++ "_init".toList)
  | _ => none

/-- Where a call line leads. -/
inductive Callee where
  /-- a function the file defines: its body -/
  | body (lines : List CLine)
  /-- the handler `<prefix>_function` points at -/
  | pointer
  /-- a function outside the file -/
  | external
  deriving DecidableEq, Repr

/-- The callee of a call of `name` in `prog`: the first function the file
defines under that name, the driver being a call through the pointer; an
inline task named `<prefix>_function` calls through the pointer itself. -/
def resolve (prog : List CLine) (pfx name : List Char) : Callee :=
  if name = pfx ++ "_function".toList then .pointer
  else match prog.find? (·.defines = some name) with
    | some (.driverHead _) => .pointer
    | some head => .body ((funcBody head prog).getD [])
    | none => .external

/-- A call that runs: recorded, then the callee, if the file defines it, run
by `sub` with the globals shared and a block stack of its own. A call
through a null pointer has no meaning. -/
def Run.call (prog : List CLine) (pfx : List Char) (sub : List CLine → Run → Option Run)
    (r : Run) (name : List Char) (t : Nat) : Option Run :=
  let r := { r with calls := r.calls ++ [⟨name, t⟩] }
  let enter := fun lines => (sub lines { r with blocks := [], cond := true }).map
    fun r' => { r' with blocks := r.blocks, cond := r.cond }
  match resolve prog pfx name with
  | .external => some r
  | .body lines => enter lines
  | .pointer => r.function.bind fun f => (funcBody (.handlerHead pfx f) prog).bind enter

/-- One line of a body in `prog`, with `sub` running the bodies it calls. -/
def Run.stepIn (prog : List CLine) (pfx : List Char) (sub : List CLine → Run → Option Run)
    (r : Run) : CLine → Option Run
  | .call name t _ => if r.active then r.call prog pfx sub name t else some r
  | l => some (r.step l)

/-- Running a body in `prog`, with calls nested at most `depth` deep. -/
def runBody (prog : List CLine) (pfx : List Char) : Nat → List CLine → Run → Option Run
  | 0, body, r => body.foldlM (Run.stepIn prog pfx fun _ _ => none) r
  | depth + 1, body, r => body.foldlM (Run.stepIn prog pfx fun b r => runBody prog pfx depth b r) r

/-- The deepest calls nest: each pushes a two-byte return address on the
6809's stack, in a 64 KiB address space. -/
def maxDepth : Nat := 2 ^ 15

/-- Whether the file compiles as far as its own symbols go: an `extern void`
declaration of `<prefix>_function` or `<prefix>_divider` redeclares a
global with another type, and a call of `<prefix>_divider` calls an
`unsigned char`. -/
def compiles (prog : List CLine) (pfx : List Char) : Bool :=
  prog.all fun
    | .declare name => name != pfx ++ "_function".toList && name != pfx ++ "_divider".toList
    | .call name _ _ => name != pfx ++ "_divider".toList
    | _ => true

/-- The globals of the generated file: the handler `<prefix>_function` points
at, and `<prefix>_divider`. -/
structure Machine where
  function : Nat
  divider : Nat
  deriving DecidableEq, Repr

/-- `<prefix>_init ()`, from the zeroed globals, in a file that compiles. -/
def boot (prog : List CLine) (pfx : List Char) : Option Machine :=
  if compiles prog pfx then do
    let body ← funcBody (.initHead pfx) prog
    let r ← runBody prog pfx maxDepth body (.start 0 none)
    let f ← r.function
    return ⟨f, r.divider⟩
  else none

/-- One interrupt: the calls made while the handler `<prefix>_function`
points at runs, and the globals it leaves. -/
def interrupt (prog : List CLine) (pfx : List Char) (m : Machine) :
    Option (List Call × Machine) := do
  let body ← funcBody (.handlerHead pfx m.function) prog
  let r ← runBody prog pfx maxDepth body (.start m.divider (some m.function))
  return (r.calls, ⟨r.function.getD m.function, r.divider⟩)

/-- The globals after `<prefix>_init` and `k` interrupts. -/
def machineAt (prog : List CLine) (pfx : List Char) : Nat → Option Machine
  | 0 => boot prog pfx
  | k + 1 => do
    let m ← machineAt prog pfx k
    let r ← interrupt prog pfx m
    return r.2

/-- The calls made at interrupt `k`, counting from `0`. -/
def callsAt (prog : List CLine) (pfx : List Char) (k : Nat) : Option (List Call) := do
  let m ← machineAt prog pfx k
  let r ← interrupt prog pfx m
  return r.1

end FreewpcSched
