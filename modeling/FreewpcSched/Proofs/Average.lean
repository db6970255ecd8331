import FreewpcSched.Proofs.Dispatch
import Mathlib.Algebra.BigOperators.Group.List
import Mathlib.Algebra.Order.Field.Rat
import Mathlib.Tactic.Ring

/-!
# A tick's length is its time on average

`add_task` adds `task->len / divider` to each tick a slot goes into, with
the comment that the tick's `len` is the running count of how much time is
spent running the tick, on average. This file proves what that average is
over: the `max_divider` rounds of the table. A slot behind the divider `d`
runs in the rounds `r` with `r & (d - 1) == 0`, the multiples of `d`, which
are `max_divider / d` of the `max_divider` rounds since `d` divides
`max_divider`. So, weighing each call by any weight of its task (its length,
to read time), the calls made at tick `i` over those rounds weigh
`max_divider` times the sum of the tick's shares `weight / divider`
(`main_tick_average`). The double `ticks[i].len` is that sum of shares for
the lengths, rounded at each addition.
-/

namespace FreewpcSched

/-- Over `q` periods of `d`, a value taken at the multiples of `d` adds up
to `q` of it. -/
theorem sum_range_dvd {d : Nat} (hd : 0 < d) (x : ℚ) :
    ∀ q, ((List.range (d * q)).map fun r => if d ∣ r then x else 0).sum = q * x
  | 0 => by simp
  | q + 1 => by
    have hrest : ∀ j ∈ List.range (d - 1), ¬ d ∣ d * q + (j + 1) := fun j hj h => by
      rw [List.mem_range] at hj
      have := Nat.le_of_dvd (by omega) ((Nat.dvd_add_right (Nat.dvd_mul_right d q)).1 h)
      omega
    obtain ⟨d', rfl⟩ : ∃ d', d = d' + 1 := ⟨d - 1, by omega⟩
    rw [Nat.mul_succ, List.range_add, List.map_append, List.sum_append, sum_range_dvd hd x q,
      List.range_succ_eq_map, List.map_cons, List.map_cons, List.sum_cons, List.map_map,
      List.map_map, List.sum_eq_zero fun y hy => ?_]
    · simp only [Nat.add_zero, Nat.dvd_mul_right, if_true]
      push_cast; ring
    · obtain ⟨j, hj, rfl⟩ := List.mem_map.1 hy
      simp only [Function.comp, Nat.succ_eq_add_one]
      exact if_neg (hrest j hj)

/-- Over the `max_divider` rounds, a list of slots whose dividers are powers
of two up to `max_divider` runs each slot `max_divider / divider` times. -/
theorem sum_rounds_slots {M : Nat} (hM : M.isPowerOfTwo) (w : Nat → ℚ) :
    ∀ (l : List Slot), (∀ sl ∈ l, sl.divider.isPowerOfTwo ∧ sl.divider ≤ M) →
      ((List.range M).map fun r =>
        ((l.filter fun sl => r &&& (sl.divider - 1) = 0).map fun sl => w sl.task).sum).sum =
        M * (l.map fun sl => w sl.task / sl.divider).sum
  | [], _ => by simp
  | sl :: l, hl => by
    obtain ⟨hpow, hle⟩ := hl sl (List.mem_cons_self _ _)
    have hd : 0 < sl.divider := Nat.pos_of_isPowerOfTwo hpow
    obtain ⟨q, hq⟩ := isPowerOfTwo_dvd_of_le hpow hM hle
    have hsplit : ∀ r, ((((sl :: l).filter fun sl => r &&& (sl.divider - 1) = 0).map
        fun sl => w sl.task).sum) = (if sl.divider ∣ r then w sl.task else 0) +
          ((l.filter fun sl => r &&& (sl.divider - 1) = 0).map fun sl => w sl.task).sum := by
      intro r
      have hg := land_pred_eq_zero_iff_dvd r hpow
      by_cases h : sl.divider ∣ r <;> simp [List.filter_cons, h, hg]
    simp only [hsplit]
    rw [List.sum_map_add, sum_rounds_slots hM w l fun x hx => hl x (List.mem_cons_of_mem _ hx),
      List.map_cons, List.sum_cons, hq, sum_range_dvd hd]
    have hd' : (sl.divider : ℚ) ≠ 0 := by exact_mod_cast hd.ne'
    push_cast
    rw [mul_add, mul_right_comm (sl.divider : ℚ) q (w sl.task / sl.divider),
      mul_div_cancel₀ _ hd', mul_comm (w sl.task)]

/-- After `k = i + n_ticks * r` interrupts, for a round `r` below
`max_divider`, the divider reads `r`. -/
theorem dividerAt_round {s : Sched} (hs : Inv s) (hN : 0 < s.nTicks) {i r : Nat}
    (hi : i < s.nTicks) (hr : r < s.maxDivider) : dividerAt s (i + s.nTicks * r) = r := by
  have h128 := hs.maxDivider_le
  unfold dividerAt
  split_ifs with hm
  · rw [Nat.add_mul_div_left _ _ hN, Nat.div_eq_of_lt hi, Nat.zero_add,
      Nat.mod_eq_of_lt (by omega)]
  · omega

/-- What the program `main` writes calls at tick `i` over the `max_divider`
rounds of the table weighs `max_divider` times the sum of the tick's shares
`weight / divider`, whatever the weight of each task. -/
theorem main_tick_average {argv : List (List Char)} {files : List Char → Option (List Char)}
    {out : Output} (h : main argv files = .ok out) (hc : NoCollision out.options out.sched)
    (w : Nat → ℚ) {i : Nat} (hi : i < out.sched.nTicks) :
    ((List.range out.sched.maxDivider).map fun r =>
      (((callsAt out.program out.options.pfx (i + out.sched.nTicks * r)).getD []).map
        fun c => w c.task).sum).sum =
      out.sched.maxDivider *
        ((out.sched.ticks i).slots.map fun sl => w sl.task / sl.divider).sum := by
  obtain ⟨hr, -, hprog⟩ := main_ok h
  have hs := hr.inv
  have hN : 0 < out.sched.nTicks := by omega
  rw [← sum_rounds_slots hs.maxDivider_pow w _ hs.slot_divider, hprog]
  refine congrArg List.sum (List.map_congr_left fun r hr' => ?_)
  rw [callsAt_eq hc hN, Option.getD_some, Nat.add_mul_mod_self_left, Nat.mod_eq_of_lt hi,
    dividerAt_round hs hN hi (List.mem_range.1 hr'),
    ((handlerCalls_perm hs.maxDivider_le hs.slot_divider r).map _).sum_eq, List.map_map]
  rfl

set_option maxRecDepth 20000 in
/-- Counting calls at tick 7, which holds the task of period 16 behind the
divider 2 beside one of period 1. -/
theorem main_tick_average_cd :
    ∃ out, main ["s".toList] (fun _ => some "ab 1 0.5\ncd 16 0.1\n".toList) = .ok out ∧
      NoCollision out.options out.sched ∧ 7 < out.sched.nTicks ∧
      ((List.range out.sched.maxDivider).map fun r =>
        (((callsAt out.program out.options.pfx (7 + out.sched.nTicks * r)).getD []).map
          fun _ => (1 : ℚ)).sum).sum =
        out.sched.maxDivider * ((out.sched.ticks 7).slots.map fun sl => 1 / (sl.divider : ℚ)).sum :=
  ⟨_, rfl, by decide, by decide, @main_tick_average ["s".toList]
    (fun _ => some "ab 1 0.5\ncd 16 0.1\n".toList) _ rfl (by decide) (fun _ => 1) 7 (by decide)⟩

end FreewpcSched
