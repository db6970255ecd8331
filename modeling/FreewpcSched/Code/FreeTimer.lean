import Mathlib.Data.List.Defs

/-!
# `freetimer.c`

Free timers are `MAX_FREE_TIMERS` one-byte counters, `free_timers[]`, that
the real-time interrupt counts down through `free_timer_rtt` and that tasks
set, clear and read by index. Nothing runs when one reaches zero: a timer is
running while it reads nonzero, and that is all a caller asks of it.

The array is kept with its length, so a state with another number of timers
cannot be built. The index is a `free_timer_id_t`, a `U8`, and no function
checks it against `MAX_FREE_TIMERS`: an index past the array reads or writes
outside it, which C leaves undefined, and such a call is `none` here.

What touches the array is the interrupt and the four calls a task makes
(`TimerOp`); a run is those in the order they happen (`runTimers`).
-/

namespace FreewpcSched

/-- `MAX_FREE_TIMERS`. -/
def maxFreeTimers : Nat := 32

/-- `U8 free_timers[MAX_FREE_TIMERS]`. -/
structure FreeTimers where
  timers : List UInt8
  length_eq : timers.length = maxFreeTimers

/-- The array as a C program starts with it, zeroed. -/
def FreeTimers.zero : FreeTimers := ⟨List.replicate maxFreeTimers 0, List.length_replicate _ _⟩

/-- `free_timers[i]`, for an index inside the array. -/
def FreeTimers.get (ft : FreeTimers) (i : Nat) : UInt8 := ft.timers.getD i 0

/-- `free_timers[i] = ticks`, for an index inside the array. -/
def FreeTimers.set (ft : FreeTimers) (i : Nat) (ticks : UInt8) : FreeTimers :=
  ⟨ft.timers.set i ticks, by rw [List.length_set, ft.length_eq]⟩

/-- The body of the `free_timer_rtt` loop on one timer:
`if (*timer_ptr) (*timer_ptr)--;`. -/
def rttBody (t : UInt8) : UInt8 := if t ≠ 0 then t - 1 else t

/-- The `do`-`while` loop of `free_timer_rtt` from `timer_ptr = &free_timers[i]`
with `n` timers left before `&free_timers[MAX_FREE_TIMERS]`: the body on the
timer the pointer is at, then `++timer_ptr`, and on while timers are left.
The array is not empty, so the `do` runs the body no more often than a
`while` would. -/
def rttLoop : Nat → Nat → List UInt8 → List UInt8
  | 0, _, timers => timers
  | n + 1, i, timers => rttLoop n (i + 1) (List.modify rttBody i timers)

theorem length_rttLoop : ∀ (n i : Nat) (timers : List UInt8),
    (rttLoop n i timers).length = timers.length
  | 0, _, _ => rfl
  | n + 1, i, timers => by rw [rttLoop, length_rttLoop n, List.length_modify]

/-- `free_timer_rtt ()`. -/
def freeTimerRtt (ft : FreeTimers) : FreeTimers :=
  ⟨rttLoop maxFreeTimers 0 ft.timers, by rw [length_rttLoop, ft.length_eq]⟩

/-- `free_timers[tid] = ticks` through a `U8` index, which may point past
the array. -/
def FreeTimers.store (ft : FreeTimers) (tid ticks : UInt8) : Option FreeTimers :=
  if tid.toNat < maxFreeTimers then some (ft.set tid.toNat ticks) else none

/-- `free_timer_test (tid)`: `return free_timers[tid];`. -/
def freeTimerTest (ft : FreeTimers) (tid : UInt8) : Option UInt8 :=
  if tid.toNat < maxFreeTimers then some (ft.get tid.toNat) else none

/-- `free_timer_restart (tid, ticks)`: `free_timers[tid] = ticks;`. -/
def freeTimerRestart (ft : FreeTimers) (tid ticks : UInt8) : Option FreeTimers :=
  ft.store tid ticks

/-- `free_timer_start (tid, ticks)`: the store only when the timer reads zero. -/
def freeTimerStart (ft : FreeTimers) (tid ticks : UInt8) : Option FreeTimers := do
  if (← freeTimerTest ft tid) = 0 then ft.store tid ticks else some ft

/-- `free_timer_stop (tid)`: `free_timers[tid] = 0;`. -/
def freeTimerStop (ft : FreeTimers) (tid : UInt8) : Option FreeTimers :=
  ft.store tid 0

/-- What touches the free timers: the real-time interrupt, and the calls a
task makes. -/
inductive TimerOp where
  | rtt
  | restart (tid ticks : UInt8)
  | start (tid ticks : UInt8)
  | stop (tid : UInt8)
  | test (tid : UInt8)
  deriving DecidableEq, Repr

/-- The array after one of them; a test leaves it as it is. -/
def TimerOp.apply (ft : FreeTimers) : TimerOp → Option FreeTimers
  | .rtt => some (freeTimerRtt ft)
  | .restart tid ticks => freeTimerRestart ft tid ticks
  | .start tid ticks => freeTimerStart ft tid ticks
  | .stop tid => freeTimerStop ft tid
  | .test tid => (freeTimerTest ft tid).map fun _ => ft

end FreewpcSched
