import FreewpcSched.Proofs.Input
import FreewpcSched.Proofs.BestTick
import FreewpcSched.Proofs.Monotone
import Mathlib.Data.Nat.Cast.Order.Field

/-!
# The advice loop's cycle count stays in `int`

Before it writes the handlers, `write_tick_driver` runs over the tasks and
warns about those that should or should not be inline, from
`cycles = (int)(task->len * CYCLES_PER_TICK)`. C leaves the conversion
undefined when the product's integral part is outside `int`. Nothing in
`write_tick_driver` bounds `len`; the bound comes from the two tests every
stored task passed on its way in:

* `parse_schedule` rejects a line whose `len >= period`;
* `add_task` stops when a period needs a divider of `256` or more, so a
  stored period is below `2048`.

So a length at or above `0.0` is below `2048.0`, and its product with
`CYCLES_PER_TICK = 1952` rounds to at most `2^22`, far inside `int`. The
length test passes a NaN (`nan >= period` is false), which is why the length
has to be at or above `0.0`: on `nan` the conversion is undefined.

The proof is an invariant of the argument loop of `main` (`LenTested`, kept
by every line `parse_schedule` reads), a bound on the periods `Inv` allows,
and a bound on the rounded product.
-/

namespace FreewpcSched

open Binary64

/-! ## The conversion on a bounded double -/

namespace Binary64

/-- The integral part `trunc` keeps is at most the magnitude it truncates. -/
theorem trunc_le (s : Bool) (m : Nat) (e : Int) : ((trunc s m e).2 : ℚ) ≤ m * 2 ^ e := by
  unfold trunc
  dsimp only
  split_ifs with he
  · rw [Nat.shiftLeft_eq, Nat.cast_mul, Nat.cast_pow, Nat.cast_ofNat, ← zpow_natCast,
      Int.toNat_of_nonneg he]
  · rw [Nat.shiftRight_eq_div_pow]
    calc ((m / 2 ^ (-e).toNat : Nat) : ℚ) ≤ m / ((2 ^ (-e).toNat : Nat) : ℚ) := Nat.cast_div_le
      _ = m * 2 ^ e := by
        rw [Nat.cast_pow, Nat.cast_ofNat, ← zpow_natCast, Int.toNat_of_nonneg (by omega),
          zpow_neg, div_inv_eq_mul]

theorem toInt32?_finite (s : Bool) (m : Nat) (e : Int) :
    (finite s m e).toInt32? =
      if s then (if (trunc s m e).2 ≤ 2 ^ 31 then some (-((trunc s m e).2 : Int)) else none)
      else if (trunc s m e).2 < 2 ^ 31 then some ((trunc s m e).2 : Int) else none := by
  cases s <;> rfl

/-- `(int) x` is defined on every double from `0.0` up to a finite value
below `2^31`. -/
theorem toInt32?_isSome_of_le {x : Binary64} {m : Nat} {e : Int} (hx : x.ge zero = true)
    (hR : (finite false m e).ge x = true) (h31 : (m : ℚ) * 2 ^ e < 2 ^ 31) :
    x.toInt32?.isSome := by
  obtain ⟨s, m', e', rfl, hnn⟩ | rfl := ge_zero_cases hx
  · obtain ⟨a, b, ha, hb, hab⟩ := ge_iff_key.1 hR
    simp only [key?_finite, Option.some.injEq] at ha hb
    subst ha hb
    have ht := trunc_le s m' e'
    rw [toInt32?_finite]
    cases s
    · -- a positive value: its integral part is at most `R`
      have hle : (m' : ℚ) * 2 ^ e' ≤ m * 2 ^ e := by
        rw [← finiteVal_false, ← finiteVal_false]; exact_mod_cast hab
      rw [if_neg Bool.false_ne_true, if_pos (by exact_mod_cast (ht.trans hle).trans_lt h31)]
      rfl
    · -- a value `-0.0`: its integral part is zero
      have h0 : ((trunc true m' e').2 : ℚ) ≤ 2 ^ 31 := by
        simp only [finiteVal, if_true] at hnn; linarith
      rw [if_pos rfl, if_pos (by exact_mod_cast h0)]
      rfl
  · cases eq_infinity_of_ge hR

theorem ofNat_two_pow_eleven : ofNat 2048 = finite false (2 ^ 52) (-41) := by decide

/-- A double with the sign bit set is at or above `0.0` only as a zero. -/
theorem eq_zero_of_finiteVal_true {m : Nat} {e : Int} (h : 0 ≤ finiteVal true m e) : m = 0 := by
  by_contra hm
  have : (0 : ℚ) < m * 2 ^ e :=
    mul_pos (by exact_mod_cast Nat.pos_of_ne_zero hm) (zpow_pos (by norm_num) e)
  simp only [finiteVal, if_true] at h
  linarith

/-- `len * d` of a non-negative length is non-negative. -/
theorem mulNat_ge_zero {x : Binary64} (hx : x.ge zero = true) {d : Nat} (hd : 0 < d) :
    (x.mulNat d).ge zero = true := by
  rcases ge_zero_cases hx with ⟨s, m, e, rfl, hx'⟩ | rfl
  · cases s
    · rw [mulNat]
      unfold round
      split
      · exact finite_ge_zero (by rw [finiteVal_false]; positivity)
      · exact infinity_false_ge _ rfl
    · rw [eq_zero_of_finiteVal_true hx', mulNat, Nat.zero_mul]
      rfl
  · rw [mulNat, if_neg (by omega)]
    exact infinity_false_ge _ rfl

/-- A length from `0.0` up to below `2048.0` times `CYCLES_PER_TICK` rounds to
at most `2^22`. -/
theorem mulNat_cyclesPerTick_le {x : Binary64} (hx : x.ge zero = true)
    (hlt : x.lt (ofNat 2048) = true) :
    (finite false (2 ^ 52) (-30)).ge (x.mulNat cyclesPerTick) = true := by
  obtain ⟨s, m, e, rfl, hnn⟩ | rfl := ge_zero_cases hx
  · cases s
    · rcases Nat.eq_zero_or_pos m with rfl | hm
      · rfl
      obtain ⟨a, b, ha, hb, hab⟩ := lt_iff_key.1 hlt
      rw [ofNat_two_pow_eleven] at hb
      simp only [key?_finite, Option.some.injEq] at ha hb
      subst ha hb
      have hval : finiteVal false m e < finiteVal false (2 ^ 52) (-41) := by exact_mod_cast hab
      norm_num [finiteVal] at hval
      refine round_le (Nat.mul_pos hm (by decide)) e (by decide) ?_
      calc ((m * cyclesPerTick : Nat) : ℚ) * 2 ^ e = 1952 * (m * 2 ^ e) := by
            push_cast [cyclesPerTick]; ring
        _ ≤ 1952 * 2048 := by linarith
        _ ≤ finiteVal false (2 ^ 52) (-30) := by norm_num [finiteVal]
    · rw [eq_zero_of_finiteVal_true hnn]
      rfl
  · exact absurd hlt (by decide)

end Binary64

/-- The advice loop converts a task's cycle count without leaving `int` when
its length is from `0.0` up to below `2048.0`. -/
theorem adviceFault?_eq_none {T : Task} (hlen : T.len.ge zero = true)
    (hlt : T.len.lt (ofNat 2048) = true) : adviceFault? T = none := by
  obtain ⟨v, hv⟩ := Option.isSome_iff_exists.1
    (toInt32?_isSome_of_le (mulNat_ge_zero hlen (by decide)) (mulNat_cyclesPerTick_le hlen hlt)
      (by norm_num))
  simp only [adviceFault?, hv]

/-! ## The lengths the argument loop stores -/

/-- Every stored task passed the test `len >= period` of `parse_schedule`. -/
def LenTested (s : Sched) : Prop := ∀ T ∈ s.tasks, T.len.ge (.ofNat T.period) = false

theorem parseLine_lenTested {o : Options} {s s' : Sched} {line : List Char}
    (hs : Reachable s ∧ LenTested s) (h : parseLine o s line = .ok s') :
    Reachable s' ∧ LenTested s' := by
  refine ⟨parseLine_reachable hs.1 h, ?_⟩
  rcases parseLine_ok h with rfl | ⟨lead, name, period, len, hP, hlen, hadd⟩
  · exact hs.2
  rcases addTask_tasks hs.1.inv hP hadd with htasks | ⟨T, rfl, rfl, htasks⟩
  · rw [LenTested, htasks]; exact hs.2
  · intro T' hT'
    rw [htasks, List.mem_append, List.mem_singleton] at hT'
    rcases hT' with hT' | rfl
    · exact hs.2 T' hT'
    · exact hlen

/-- A stored period is a power of two below `2048`: a longer one needs a
divider of `256` or more, which `add_task` refuses. -/
theorem Inv.period_lt {s : Sched} (hs : Inv s) {T : Task} (hT : T ∈ s.tasks) :
    0 < T.period ∧ T.period < 2048 := by
  obtain ⟨t, ht, rfl⟩ := List.getElem_of_mem hT
  have hok := hs.task t ht
  have h8 : s.nTicks = 8 := hs.nTicks_eq.resolve_right fun h => by simp [h.2] at ht
  have htask : s.task t = s.tasks[t] := by
    simp only [Sched.task, List.getD_eq_getElem?_getD, List.getElem?_eq_getElem ht,
      Option.getD_some]
  have hdiv := hok.divider_le.trans_lt hs.maxDivider_lt
  rw [htask, h8] at hdiv
  refine ⟨htask ▸ Nat.pos_of_isPowerOfTwo hok.period_pow, ?_⟩
  rcases Nat.lt_or_ge 8 s.tasks[t].period with hgt | hle
  · rw [dividerFor_of_gt hgt] at hdiv; omega
  · omega

/-- A stored length at or above `0.0` is below `2048.0`. -/
theorem lt_ofNat_of_lenTested {s : Sched} (hs : Inv s) (ht : LenTested s) {T : Task}
    (hT : T ∈ s.tasks) (hlen : T.len.ge zero = true) : T.len.lt (ofNat 2048) = true := by
  obtain ⟨hpos, hlt⟩ := hs.period_lt hT
  have hP : (ofNat 2048).ge (ofNat T.period) = true := by
    rw [ofNat_two_pow_eleven]
    refine round_le hpos 0 (by decide) ?_
    norm_num [finiteVal]; exact_mod_cast hlt.le
  refine lt_of_lt_of_ge' (lt_of_ge_eq_false ?_ ?_ (ht T hT)) hP
  · obtain ⟨_, _, h, _, _⟩ := ge_iff_key.1 hlen; simp [h]
  · obtain ⟨_, _, _, h, _⟩ := ge_iff_key.1 hP; simp [h]

/-- On every table the argument loop of `main` builds, the advice loop of
`write_tick_driver` converts each cycle count within `int`, provided every
length read is at or above `0.0`. -/
theorem mainLoop_advice_defined {files : List Char → Option (List Char)}
    {args : List (List Char)} {o : Options} {s : Sched}
    (h : mainLoop files args .default initSchedule = .ok (o, s))
    (hlens : ∀ T ∈ s.tasks, T.len.ge zero = true) : ∀ T ∈ s.tasks, adviceFault? T = none := by
  obtain ⟨hr, ht⟩ := mainLoop_invariant (fun s => Reachable s ∧ LenTested s) parseLine_lenTested
    args _ _ ⟨.init, fun _ h => by simp [initSchedule] at h⟩ h
  exact fun T hT => adviceFault?_eq_none (hlens T hT)
    (lt_ofNat_of_lenTested hr.inv ht hT (hlens T hT))

set_option maxRecDepth 20000 in
/-- A task of length `0.5` on a period of one tick, and one of length `40`
on a period of 64 ticks, behind the divider 8. -/
theorem mainLoop_advice_defined_ab_cd :
    ∃ o s, mainLoop (fun _ => some "ab 1 0.5\ncd 64 40\n".toList) ["s".toList] .default
        initSchedule = .ok (o, s) ∧ (s.task 1).period = 64 ∧ ∀ T ∈ s.tasks, adviceFault? T = none :=
  ⟨_, _, rfl, rfl, @mainLoop_advice_defined (fun _ => some "ab 1 0.5\ncd 64 40\n".toList)
    ["s".toList] _ _ rfl (by decide)⟩

/-- A length `nan` passes every test on its way in, and leaves the
conversion undefined. -/
example : (mainLoop (fun _ => some "ab 1 nan\n".toList) ["s".toList] .default initSchedule).map
    (fun r => r.2.tasks.map adviceFault?) =
      .ok [some (.undefined "(int) of a cycle count out of range")] := by
  decide

end FreewpcSched
