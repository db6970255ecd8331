import FreewpcSched.Proofs.Invariant
import FreewpcSched.Code.Main

/-!
# Where `add_task` puts a task

The invariant of `Invariant.lean` says where each task sits in terms of one
start `b`: the ticks `i` with `i % period = b`. On the 8-tick table every
period is a power of two, so it either divides 8 or is divided by it, and
those ticks are the ones the placement loop walks, `b, b + period, …` modulo
`n_ticks`, one slot each; there are `max 1 (n_ticks / period)` of them.

A tick's length is what the placement loop accumulates in `double`: the
shares of its slots added in slot order, each addition rounded. That is not
the exact sum of the shares: a share below half a unit of the running total
is lost.
-/

namespace FreewpcSched

/-- A start below both the period and the table fixes one of the two stride
shapes. -/
theorem strideShape_of_lt {period b : Nat} (hpow : period.isPowerOfTwo)
    (hb : b < min period 8) : StrideShape period 8 (slotCount period 8) b := by
  rcases Nat.lt_or_ge 8 period with hgt | hle
  · exact .inr ⟨hgt, slotCount_of_gt hgt, by omega⟩
  · have hp := Nat.pos_of_isPowerOfTwo hpow
    exact .inl ⟨isPowerOfTwo_dvd_of_le hpow ⟨3, rfl⟩ hle, hp, slotCount_of_le hp hle, by omega⟩

theorem strides_length {period n : Nat} :
    ∀ count base, (strides period n count base).length = count
  | 0, _ => rfl
  | count + 1, base => by rw [strides, List.length_cons, strides_length count]

/-- There are as many ticks `i < n` with `i % period = b` as the loop visits. -/
theorem length_filter_mod {period n count b : Nat} (h : StrideShape period n count b) :
    ((List.range n).filter fun i => i % period = b).length = count := by
  rw [← @strides_length period n count b]
  refine ((List.perm_ext_iff_of_nodup ((List.nodup_range n).filter _)
    (strides_nodup h)).2 fun i => ?_).length_eq
  simp [mem_strides h]

/-- The ticks `b, b + period, b + 2 * period, …` taken modulo 8 are those with
`i % period = b`. -/
theorem mod_eq_iff_stride {period b i : Nat} (hpow : period.isPowerOfTwo)
    (hb : b < min period 8) (hi : i < 8) :
    i % period = b ↔ ∃ j, (b + j * period) % 8 = i := by
  have hp := Nat.pos_of_isPowerOfTwo hpow
  rcases Nat.lt_or_ge 8 period with hgt | hle
  · have hdvd : 8 ∣ period := isPowerOfTwo_dvd_of_le ⟨3, rfl⟩ hpow hgt.le
    have hstep : ∀ j, (b + j * period) % 8 = b := fun j => by
      rw [Nat.add_mod, Nat.mul_mod, Nat.mod_eq_zero_of_dvd hdvd]; simp; omega
    rw [Nat.mod_eq_of_lt (by omega)]
    constructor
    · rintro rfl; exact ⟨0, hstep 0⟩
    · rintro ⟨j, rfl⟩; exact hstep j
  · have hdvd := isPowerOfTwo_dvd_of_le hpow ⟨3, rfl⟩ hle
    constructor
    · rintro rfl
      refine ⟨i / period, ?_⟩
      rw [Nat.mul_comm, Nat.mod_add_div, Nat.mod_eq_of_lt hi]
    · rintro ⟨j, rfl⟩
      rw [Nat.mod_mod_of_dvd _ hdvd, Nat.add_mul_mod_self_right, Nat.mod_eq_of_lt (by omega)]

/-- Counting a task's slots tick by tick counts the ticks it sits in. -/
theorem length_flatMap_placed {s : Sched} {t b : Nat} (hpl : Placed s t b) :
    ∀ l : List Nat, (∀ i ∈ l, i < s.nTicks) →
      (l.flatMap fun i => (s.ticks i).slots.filter (·.task = t)).length =
        (l.filter fun i => i % (s.task t).period = b).length
  | [], _ => rfl
  | i :: l, hl => by
    rw [List.flatMap_cons, List.length_append, List.filter_cons,
      length_flatMap_placed hpl l fun j hj => hl j (List.mem_cons_of_mem _ hj),
      hpl i (hl i (List.mem_cons_self _ _))]
    split <;> simp_all [Nat.add_comm]

/-! ## The placement of every stored task -/

/-- Where task `t` sits, as the placement is described: its slots are at
`b, b + P, b + 2P, …` modulo `n_ticks`, one a tick, `max 1 (n_ticks / P)` of
them, each with the divider `max 1 (P / n_ticks)`. -/
structure Layout (s : Sched) (t b : Nat) : Prop where
  count : ((List.range s.nTicks).flatMap fun i => (s.ticks i).slots.filter (·.task = t)).length =
    max 1 (s.nTicks / (s.task t).period)
  at_stride : ∀ i < s.nTicks, (∃ j, (b + j * (s.task t).period) % s.nTicks = i) →
    (s.ticks i).slots.filter (·.task = t) = [⟨max 1 ((s.task t).period / s.nTicks), t⟩]
  off_stride : ∀ i < s.nTicks, (¬ ∃ j, (b + j * (s.task t).period) % s.nTicks = i) →
    (s.ticks i).slots.filter (·.task = t) = []
  divider_pow : (max 1 ((s.task t).period / s.nTicks)).isPowerOfTwo
  divider_le : max 1 ((s.task t).period / s.nTicks) ≤ s.maxDivider
  maxDivider_lt : s.maxDivider < 256
  nSlots : (s.task t).nSlots = max 1 (s.nTicks / (s.task t).period)

/-- The invariant places every stored task as described. -/
theorem Inv.layout {s : Sched} (hs : Inv s) {t : Nat} (ht : t < s.tasks.length) :
    ∃ b < min (s.task t).period s.nTicks, Layout s t b := by
  obtain ⟨hpow, hdle, hn, b, hb, hpl⟩ := hs.task t ht
  have h8 : s.nTicks = 8 := hs.nTicks_eq.resolve_right fun h => by simp [h.2] at ht
  rw [h8] at hb hdle hn
  have hstride : ∀ i < s.nTicks, i % (s.task t).period = b ↔
      ∃ j, (b + j * (s.task t).period) % s.nTicks = i := fun i hi => by
    rw [h8] at hi ⊢; exact mod_eq_iff_stride hpow hb hi
  refine ⟨b, h8 ▸ hb, ⟨?_, fun i hi hj => ?_, fun i hi hj => ?_, ?_, ?_, hs.maxDivider_lt, ?_⟩⟩
  · rw [length_flatMap_placed hpl _ fun i hi => List.mem_range.1 hi, h8,
      length_filter_mod (strideShape_of_lt hpow hb)]
    rfl
  · rw [hpl i hi, if_pos ((hstride i hi).2 hj), h8]; rfl
  · rw [hpl i hi, if_neg (mt (hstride i hi).1 hj)]
  · rw [h8]; exact dividerFor_pow hpow
  · rw [h8]; exact hdle
  · rw [h8]; exact hn

/-- Every call of `add_task` on a reachable table leaves each stored task
placed as described, and moves or removes no slot placed before. -/
theorem addTask_layout {o : Options} {s s' : Sched} {lead : Nat} {name : List Char}
    {period : Nat} {len : Binary64} (hs : Reachable s) (hP : period &&& (period - 1) = 0)
    (h : addTask o s lead name period len = .ok s') :
    (∀ i, (s.ticks i).slots <+: (s'.ticks i).slots) ∧
      ∀ t < s'.tasks.length, ∃ b < min (s'.task t).period s'.nTicks, Layout s' t b :=
  ⟨(inv_step hs.inv hP h).2, fun _ => (inv_step hs.inv hP h).1.layout⟩

set_option maxRecDepth 20000 in
/-- `cd` of period 16, a divider's task, added to the table that holds `ab`
of period 1 in every tick. -/
theorem addTask_layout_divider :
    ∃ s₁, addTask .default initSchedule 0 "ab".toList 1 (.round false 1 1 (-1)) = .ok s₁ ∧
    ∃ s', addTask .default s₁ 0 "cd".toList 16 (.round false 1 1 (-2)) = .ok s' ∧
      s'.tasks.length = 2 ∧
      (∀ i, (s₁.ticks i).slots <+: (s'.ticks i).slots) ∧
        ∀ t < s'.tasks.length, ∃ b < min (s'.task t).period s'.nTicks, Layout s' t b := by
  obtain ⟨s₁, h₁, s', h₂, h2⟩ : ∃ s₁,
      addTask .default initSchedule 0 "ab".toList 1 (.round false 1 1 (-1)) = .ok s₁ ∧ ∃ s',
      addTask .default s₁ 0 "cd".toList 16 (.round false 1 1 (-2)) = .ok s' ∧
      s'.tasks.length = 2 :=
    ⟨_, rfl, _, rfl, by decide⟩
  exact ⟨s₁, h₁, s', h₂, h2, addTask_layout
    (.addTask .default 0 "ab".toList 1 _ .init (by decide) h₁) (by decide) h₂⟩

/-! ## Tick lengths -/

/-- The exact sum of a tick's shares `len / divider`, over the rationals;
`none` if a length is not finite. -/
def exactLen (s : Sched) (slots : List Slot) : Option ℚ :=
  (slots.mapM fun sl => (s.task sl.task).len.toRat?.map (· / (sl.divider : ℚ))).map List.sum

/-- On every reachable table a tick's length is its slots' shares added in
slot order from `0.0`, each addition rounded to `double`. -/
theorem tick_len_rounded {s : Sched} (hs : Reachable s) (i : Nat) :
    (s.ticks i).len = (s.ticks i).slots.foldl
      (fun acc sl => acc.add ((s.task sl.task).len.divNat sl.divider)) .zero :=
  hs.inv.tick_len i

set_option maxRecDepth 20000 in
/-- Two tasks of period 1 in every tick: `ab` of length `0.5`, then `cd` of
length `2^-100`. -/
theorem reachable_half_tiny : ∃ s, Reachable s ∧ s.nTicks = 8 ∧
    (s.ticks 0).slots = [⟨1, 0⟩, ⟨1, 1⟩] ∧ (s.ticks 0).len = .round false 1 1 (-1) ∧
    (s.task 0).len = .round false 1 1 (-1) ∧ (s.task 1).len = .round false 1 1 (-100) := by
  obtain ⟨s₁, h₁, s₂, h₂, hfacts⟩ : ∃ s₁,
      addTask .default initSchedule 0 "ab".toList 1 (.round false 1 1 (-1)) = .ok s₁ ∧ ∃ s₂,
      addTask .default s₁ 0 "cd".toList 1 (.round false 1 1 (-100)) = .ok s₂ ∧
      s₂.nTicks = 8 ∧ (s₂.ticks 0).slots = [⟨1, 0⟩, ⟨1, 1⟩] ∧
      (s₂.ticks 0).len = .round false 1 1 (-1) ∧ (s₂.task 0).len = .round false 1 1 (-1) ∧
      (s₂.task 1).len = .round false 1 1 (-100) :=
    ⟨_, rfl, _, rfl, by decide⟩
  exact ⟨s₂, .addTask _ _ _ _ _ (.addTask _ _ _ _ _ .init (by decide) h₁) (by decide) h₂, hfacts⟩

set_option maxRecDepth 20000 in
/-- Tick 7 of the table that holds `ab` of period 1 and length `0.5`, and
`cd` of period 16 and length `0.25` behind the divider 2: `0.5` plus the
share `0.125`. -/
theorem tick_len_rounded_ab_cd :
    ∃ s₁, addTask .default initSchedule 0 "ab".toList 1 (.round false 1 1 (-1)) = .ok s₁ ∧
    ∃ s', addTask .default s₁ 0 "cd".toList 16 (.round false 1 1 (-2)) = .ok s' ∧
      (s'.ticks 7).slots = [⟨1, 0⟩, ⟨2, 1⟩] ∧
      ∀ i, (s'.ticks i).len = (s'.ticks i).slots.foldl
        (fun acc sl => acc.add ((s'.task sl.task).len.divNat sl.divider)) .zero := by
  obtain ⟨s₁, h₁, s', h₂, h7⟩ : ∃ s₁,
      addTask .default initSchedule 0 "ab".toList 1 (.round false 1 1 (-1)) = .ok s₁ ∧ ∃ s',
      addTask .default s₁ 0 "cd".toList 16 (.round false 1 1 (-2)) = .ok s' ∧
      (s'.ticks 7).slots = [⟨1, 0⟩, ⟨2, 1⟩] :=
    ⟨_, rfl, _, rfl, by decide⟩
  exact ⟨s₁, h₁, s', h₂, h7, tick_len_rounded (.addTask .default 0 "cd".toList 16 _
    (.addTask .default 0 "ab".toList 1 _ .init (by decide) h₁) (by decide) h₂)⟩

/-- The recorded length of a tick is not the exact sum of its shares: the
share `2^-100` added to `0.5` rounds away. -/
theorem tick_len_inexact : ∃ s, Reachable s ∧ 0 < s.nTicks ∧
    (s.ticks 0).len.toRat? ≠ exactLen s (s.ticks 0).slots := by
  obtain ⟨s, hs, h8, hslots, hlen, h0, h1⟩ := reachable_half_tiny
  refine ⟨s, hs, by omega, ?_⟩
  have half : Binary64.round false 1 1 (-1) = .finite false (2 ^ 52) (-53) := by decide
  have tiny : Binary64.round false 1 1 (-100) = .finite false (2 ^ 52) (-152) := by decide
  rw [hslots, hlen]
  simp only [exactLen, List.mapM_cons, List.mapM_nil, h0, h1, half, tiny, Binary64.toRat?]
  norm_num

/-! ## The size of the table

`expand_ticks` clips its argument to `max_ticks` and then sets `n_ticks` to 8
whatever it is, so by `Inv.nTicks_eq` the table has 0 or 8 ticks on every
reachable state, whatever `-M` says. Two things follow that the callers of
`expand_ticks` do not expect.
-/

set_option maxRecDepth 20000 in
/-- A first task whose period is above `max_ticks` is given the divider
`period / n_ticks` while `n_ticks` is still 0; and under `-M 16` a period of
16 expands the table to 8 ticks and gets `8 / 16 = 0` slots, by which
`find_best_tick` divides. -/
theorem main_divides_by_zero :
    (main ["s".toList] (fun _ => some "rare 16 0.2\n".toList)).map (fun _ => ()) =
        .error .divByZero ∧
      (main ["-M".toList, "16".toList, "s".toList] (fun _ => some "ab 16 0.2\n".toList)).map
        (fun _ => ()) = .error .divByZero := by
  decide

set_option maxRecDepth 20000 in
/-- Under `-M 4` a task of period 1 leaves a table of 8 ticks. -/
theorem main_ticks_above_max :
    (main ["-M".toList, "4".toList, "s".toList] (fun _ => some "ab 1 0.5\n".toList)).map
      (fun out => (out.options.maxTicks, out.sched.nTicks)) = .ok (4, 8) := by
  decide

end FreewpcSched
