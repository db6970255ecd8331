import FreewpcSched.Proofs.AddTask

/-!
# The table over whole runs

`Reachable` is every state `add_task` can leave, from `init_schedule` through
any sequence of calls whose period passed `parse_schedule`'s test
`period & (period - 1)`, under options that may change between any two calls
(`main` reads `-M` and `-D` between files).

`Inv` is what holds of all of them. The table is empty with `n_ticks = 0`
until the first task is stored, and has 8 ticks from then on: `expand_ticks`
always unrolls to 8, and when it would be called again, on a period between
8 and `max_ticks`, the slot count `8 / period` is `0` and `find_best_tick`
divides by it. So the clearing of the table in `expand_ticks` only ever
clears an empty table. Each task then sits in the ticks `i` with
`i % period = b` for one `b`, once each, with the divider `max 1 (period / 8)`,
and every tick's length is the sum of its slots' shares, accumulated in slot
order in `double`.

The step is assembled from the contracts of `AddTask.lean`: `plan_ok` for
the branch that fixes count and divider together with `find_best_tick`,
`placeSlots_ok` with the stride lemmas for the loop, and `Inv.addSlots` for
the state the loop leaves.
-/

namespace FreewpcSched

/-- The states `add_task` can leave. -/
inductive Reachable : Sched → Prop
  | init : Reachable initSchedule
  | addTask {s s' : Sched} (o : Options) (lead : Nat) (name : List Char) (period : Nat)
      (len : Binary64) : Reachable s → period &&& (period - 1) = 0 →
      addTask o s lead name period len = .ok s' → Reachable s'

/-- A tick's length as the code accumulates it: from `0.0`, adding each
slot's `task->len / divider` in slot order. -/
def tickLen (s : Sched) (slots : List Slot) : Binary64 :=
  slots.foldl (fun acc sl => acc.add ((s.task sl.task).len.divNat sl.divider)) .zero

/-- The divider of every slot of a task of `period` on `n` ticks. -/
def dividerFor (period n : Nat) : Nat := max 1 (period / n)

/-- The number of slots of a task of `period` on `n` ticks. -/
def slotCount (period n : Nat) : Nat := max 1 (n / period)

/-- Task `t` has one slot in each tick `i < n_ticks` with `i % period = b`, with
its divider, and no slot in the others. -/
def Placed (s : Sched) (t b : Nat) : Prop :=
  ∀ i < s.nTicks, (s.ticks i).slots.filter (·.task = t) =
    if i % (s.task t).period = b then [⟨dividerFor (s.task t).period s.nTicks, t⟩] else []

/-- What holds of one stored task. -/
structure TaskOk (s : Sched) (t : Nat) : Prop where
  period_pow : (s.task t).period.isPowerOfTwo
  divider_le : dividerFor (s.task t).period s.nTicks ≤ s.maxDivider
  nSlots : (s.task t).nSlots = slotCount (s.task t).period s.nTicks
  placed : ∃ b < min (s.task t).period s.nTicks, Placed s t b

/-- What holds of every state `add_task` leaves. -/
structure Inv (s : Sched) : Prop where
  nTicks_eq : s.nTicks = 8 ∨ (s.nTicks = 0 ∧ s.tasks = [])
  idle : ∀ i, s.nTicks ≤ i → (s.ticks i).slots = []
  slot_task : ∀ i, ∀ sl ∈ (s.ticks i).slots, sl.task < s.tasks.length
  maxDivider_pow : s.maxDivider.isPowerOfTwo
  maxDivider_lt : s.maxDivider < 256
  task : ∀ t < s.tasks.length, TaskOk s t
  tick_len : ∀ i, (s.ticks i).len = tickLen s (s.ticks i).slots

theorem inv_init : Inv initSchedule where
  nTicks_eq := .inr ⟨rfl, rfl⟩
  idle _ _ := rfl
  slot_task _ _ h := by simp [initSchedule, Tick.empty] at h
  maxDivider_pow := ⟨0, rfl⟩
  maxDivider_lt := by decide
  task _ h := by simp [initSchedule] at h
  tick_len _ := rfl

/-! ## The task table only grows -/

theorem task_of_lt {s s' : Sched} {T : Task} (h : s'.tasks = s.tasks ++ [T]) {t : Nat}
    (ht : t < s.tasks.length) : s'.task t = s.task t := by
  simp [Sched.task, h, List.getElem?_append_left ht]

theorem task_of_eq {s s' : Sched} {T : Task} (h : s'.tasks = s.tasks ++ [T]) :
    s'.task s.tasks.length = T := by
  simp [Sched.task, h]

/-- A tick's length only reads the tasks its slots point at. -/
theorem tickLen_congr {s s' : Sched} {slots : List Slot}
    (h : ∀ sl ∈ slots, s.task sl.task = s'.task sl.task) : tickLen s slots = tickLen s' slots := by
  unfold tickLen
  exact List.foldl_ext _ _ _ fun acc sl hsl => by rw [h sl hsl]

theorem tickLen_push (s : Sched) (slots : List Slot) (divider t : Nat) :
    tickLen s (slots ++ [⟨divider, t⟩]) =
      (tickLen s slots).add ((s.task t).len.divNat divider) := by
  simp [tickLen, List.foldl_append]

/-! ## Periods on an 8-tick table -/

theorem dividerFor_of_le {period : Nat} (h : period ≤ 8) : dividerFor period 8 = 1 := by
  unfold dividerFor; omega

theorem dividerFor_of_gt {period : Nat} (h : 8 < period) : dividerFor period 8 = period / 8 := by
  unfold dividerFor; omega

theorem slotCount_of_le {period : Nat} (hp : 0 < period) (h : period ≤ 8) :
    slotCount period 8 = 8 / period := by
  unfold slotCount; have := Nat.div_pos h hp; omega

theorem slotCount_of_gt {period : Nat} (h : 8 < period) : slotCount period 8 = 1 := by
  unfold slotCount; rw [Nat.div_eq_of_lt h]; rfl

/-- The divider of a task placed on 8 ticks is a power of two. -/
theorem dividerFor_pow {period : Nat} (h : period.isPowerOfTwo) :
    (dividerFor period 8).isPowerOfTwo := by
  rcases Nat.lt_or_ge 8 period with hgt | hle
  · rw [dividerFor_of_gt hgt]; exact isPowerOfTwo_div h ⟨3, rfl⟩ hgt.le
  · rw [dividerFor_of_le hle]; exact ⟨0, rfl⟩

/-- A period up to 8 that passed the test leaves a stride dividing the table. -/
theorem small_period {period base : Nat} (hpow : period.isPowerOfTwo) (hle : period ≤ 8)
    (hb : base < 8 / (8 / period)) :
    StrideShape period 8 (slotCount period 8) base ∧ dividerFor period 8 = 1 := by
  have hp := Nat.pos_of_isPowerOfTwo hpow
  have hdvd := isPowerOfTwo_dvd_of_le hpow ⟨3, rfl⟩ hle
  rw [Nat.div_div_self hdvd (by omega)] at hb
  exact ⟨.inl ⟨hdvd, hp, slotCount_of_le hp hle, hb⟩, dividerFor_of_le hle⟩

theorem max_isPowerOfTwo {a b : Nat} (ha : a.isPowerOfTwo) (hb : b.isPowerOfTwo) :
    (max a b).isPowerOfTwo := by
  rcases le_total a b with h | h
  · rwa [max_eq_right h]
  · rwa [max_eq_left h]

/-! ## One call of `add_task` -/

/-- The table `expand_ticks` makes of the empty one. -/
theorem inv_expandTicks {s : Sched} (hs : Inv s) (h0 : s.nTicks = 0) (ht : s.tasks = [])
    (period : Nat) : Inv (expandTicks s period) where
  nTicks_eq := .inl rfl
  idle i hi := by
    simp only [expandTicks] at hi ⊢; rw [if_neg (by omega)]; exact hs.idle i (by omega)
  slot_task i sl hsl := by
    simp only [expandTicks] at hsl
    split at hsl
    · simp [Tick.empty] at hsl
    · rw [hs.idle i (by omega)] at hsl; cases hsl
  maxDivider_pow := hs.maxDivider_pow
  maxDivider_lt := hs.maxDivider_lt
  task t h := by simp [expandTicks, ht] at h
  tick_len i := by
    simp only [expandTicks]
    split
    · rfl
    · exact hs.tick_len i

/-- Raising `max_divider` to a divider below 256 keeps the invariant. -/
theorem inv_raiseDivider {s : Sched} {d : Nat} (hs : Inv s) (hd : d.isPowerOfTwo)
    (hlt : s.maxDivider < d → d < 256) : Inv { s with maxDivider := max s.maxDivider d } :=
  { hs with
    maxDivider_pow := max_isPowerOfTwo hs.maxDivider_pow hd
    maxDivider_lt := by have := hs.maxDivider_lt; simp only [max_def]; split <;> omega
    task := fun t ht => { hs.task t ht with
      divider_le := le_trans (hs.task t ht).divider_le (le_max_left _ _) } }

/-- What the count/divider branch and `find_best_tick` leave, on a table that
satisfies the invariant: an 8-tick table still satisfying it, with the task's
period a power of two, its divider and slot count, and a start in one of the
two shapes of the stride. Slots already placed stay where they are. -/
theorem plan_ok {o : Options} {s s₁ : Sched} {period count divider base : Nat}
    {len : Binary64} (hs : Inv s) (hP : period &&& (period - 1) = 0)
    (h₁ : slotPlan o s period = .ok (s₁, count, divider))
    (h₂ : findBestTick s₁ period count len = .ok base) :
    Inv s₁ ∧ s₁.nTicks = 8 ∧ s₁.tasks = s.tasks ∧
      (∀ i, (s.ticks i).slots <+: (s₁.ticks i).slots) ∧ period.isPowerOfTwo ∧
      divider = dividerFor period 8 ∧ divider ≤ s₁.maxDivider ∧ count = slotCount period 8 ∧
      StrideShape period 8 count base := by
  have hc0 := findBestTick_count_ne_zero h₂
  have hpow : period ≠ 0 → period.isPowerOfTwo := fun h =>
    ((land_pred_eq_zero_iff period).1 hP).resolve_left h
  have hone := Nat.pos_of_isPowerOfTwo hs.maxDivider_pow
  rcases slotPlan_ok h₁ with ⟨hlt, -, rfl, rfl, rfl⟩ | ⟨hlt, -, hn, hd, rfl, hmax, rfl⟩ |
    ⟨hle, hp0, rfl, rfl, rfl⟩
  · -- the first task: the empty table is unrolled to 8 ticks
    have hle : period ≤ 8 := by
      by_contra hgt; exact hc0 (Nat.div_eq_of_lt (by omega))
    have h0 : s.nTicks = 0 ∧ s.tasks = [] := hs.nTicks_eq.resolve_left (by omega)
    have hp := hpow (by omega)
    obtain ⟨hshape, hd⟩ := small_period hp hle (findBestTick_lt h₂ (Nat.div_le_self _ _))
    refine ⟨inv_expandTicks hs h0.1 h0.2 period, rfl, rfl, fun i => ?_, hp, hd.symm, hone,
      (slotCount_of_le (by omega) hle).symm, by rwa [slotCount_of_le (by omega) hle] at hshape⟩
    rw [hs.idle i (by omega)]; exact List.nil_prefix
  · -- a period past `max_ticks`: one slot, behind a divider
    have h8 : s.nTicks = 8 := hs.nTicks_eq.resolve_right (by omega)
    rw [h8] at hlt hd
    subst hd
    have hp := hpow (by omega)
    refine ⟨inv_raiseDivider hs (isPowerOfTwo_div hp ⟨3, rfl⟩ hlt.le) hmax, h8, rfl,
      fun _ => List.prefix_refl _, hp, (dividerFor_of_gt hlt).symm, le_max_right _ _,
      (slotCount_of_gt hlt).symm, .inr ⟨hlt, rfl, ?_⟩⟩
    simpa [h8] using findBestTick_lt h₂ (by simp [h8])
  · -- a period the table already covers
    have h8 : s₁.nTicks = 8 := hs.nTicks_eq.resolve_right (by omega)
    rw [h8] at hle
    have hb := findBestTick_lt h₂ (Nat.div_le_self _ _)
    rw [h8] at hb
    obtain ⟨hshape, hd⟩ := small_period (hpow hp0) hle hb
    refine ⟨hs, h8, rfl, fun _ => List.prefix_refl _, hpow hp0, hd.symm, hone, ?_, ?_⟩ <;>
      rw [h8, ← slotCount_of_le (by omega) hle]
    exact hshape

/-- The table after the placement loop and the store of the task, given by
what it holds: the invariant carries over, with the new task placed from
`base`. -/
theorem inv_addSlots {s₁ s' : Sched} {T : Task} {divider base : Nat} (hs : Inv s₁)
    (h8 : s₁.nTicks = 8) (hpow : T.period.isPowerOfTwo) (hd : divider = dividerFor T.period 8)
    (hdle : divider ≤ s₁.maxDivider) (hcount : T.nSlots = slotCount T.period 8)
    (hb : base < min T.period 8) (hn : s'.nTicks = 8) (hmax : s'.maxDivider = s₁.maxDivider)
    (htasks : s'.tasks = s₁.tasks ++ [T])
    (hticks : ∀ i, s'.ticks i = if i < 8 ∧ i % T.period = base then
      (s₁.ticks i).push divider s₁.tasks.length T.len else s₁.ticks i) :
    Inv s' := by
  have hnew : s'.task s₁.tasks.length = T := task_of_eq htasks
  have hlen : s'.tasks.length = s₁.tasks.length + 1 := by simp [htasks]
  -- the slots already there point at tasks that keep their entry
  have hold : ∀ i, ∀ sl ∈ (s₁.ticks i).slots, s'.task sl.task = s₁.task sl.task :=
    fun i sl hsl => task_of_lt htasks (hs.slot_task i sl hsl)
  -- tick `i` keeps its slots, and gains the new one where the loop stopped
  have hslots : ∀ i, (s'.ticks i).slots = (s₁.ticks i).slots ++
      if i < 8 ∧ i % T.period = base then [⟨divider, s₁.tasks.length⟩] else [] := fun i => by
    rw [hticks]; split <;> simp
  -- no slot placed before points at the new task
  have hnone : ∀ i, (s₁.ticks i).slots.filter (·.task = s₁.tasks.length) = [] := fun i =>
    List.filter_eq_nil_iff.2 fun sl hsl => by
      have := hs.slot_task i sl hsl; simp only [decide_eq_true_eq]; omega
  refine ⟨.inl hn, fun i hi => ?_, fun i sl hsl => ?_, hmax ▸ hs.maxDivider_pow,
    hmax ▸ hs.maxDivider_lt, fun t ht => ?_, fun i => ?_⟩
  · rw [hslots, if_neg (by omega), hs.idle i (by omega)]; rfl
  · rw [hslots, List.mem_append] at hsl
    rw [hlen]
    rcases hsl with h | h
    · exact Nat.lt_succ_of_lt (hs.slot_task i sl h)
    · split at h
      · rw [List.mem_singleton.1 h]; exact Nat.lt_succ_self _
      · cases h
  · rw [hlen] at ht
    rcases Nat.lt_succ_iff_lt_or_eq.1 ht with ht | rfl
    · -- a task stored before keeps its slots
      have hT := task_of_lt htasks ht
      obtain ⟨hpow', hdle', hn', b, hb', hpl⟩ := hs.task t ht
      rw [h8] at hdle' hn' hb'
      refine ⟨hT ▸ hpow', by rwa [hT, hn, hmax], by rwa [hT, hn], b, by rwa [hT, hn],
        fun i hi => ?_⟩
      have hother : (if i < 8 ∧ i % T.period = base then [(⟨divider, s₁.tasks.length⟩ : Slot)]
          else []).filter (·.task = t) = [] := by
        split <;> simp [Nat.ne_of_gt ht]
      rw [hslots, List.filter_append, hother, List.append_nil, hpl i (by omega), hT, hn, h8]
    · -- the new task sits where the loop put it
      refine ⟨hnew ▸ hpow, by rw [hnew, hn, hmax, ← hd]; exact hdle, by rwa [hnew, hn],
        base, by rwa [hnew, hn], fun i hi => ?_⟩
      rw [hslots, List.filter_append, hnone, hnew, hn, List.nil_append, ← hd]
      rw [hn] at hi
      by_cases hi' : i % T.period = base <;> simp [hi, hi']
  · rw [hslots, hticks]
    split
    · rw [Tick.push_len, tickLen_push, hnew, hs.tick_len i, tickLen_congr (hold i)]
    · rw [List.append_nil, hs.tick_len i, tickLen_congr (hold i)]

/-- One call of `add_task` on a table satisfying the invariant: the table
still satisfies it, and every slot placed before is still in its tick, in its
place. -/
theorem inv_step {o : Options} {s s' : Sched} {lead : Nat} {name : List Char} {period : Nat}
    {len : Binary64} (hs : Inv s) (hP : period &&& (period - 1) = 0)
    (h : addTask o s lead name period len = .ok s') :
    Inv s' ∧ ∀ i, (s.ticks i).slots <+: (s'.ticks i).slots := by
  rcases addTask_ok h with rfl | ⟨T, s₁, count, divider, base, s₂, rfl, rfl, h₁, h₂, h₃, rfl⟩
  · exact ⟨hs, fun _ => List.prefix_refl _⟩
  · obtain ⟨hs₁, h8, -, hpre, hpow, hd, hdle, rfl, hshape⟩ := plan_ok hs hP h₁ h₂
    obtain ⟨hk, rfl⟩ := placeSlots_ok h₃ (by rw [h8]; exact strides_nodup hshape)
    have hb : base < min T.period 8 := by
      rcases hshape with ⟨hdvd, hp, -, hb⟩ | ⟨hlt, -, hb⟩
      · exact lt_min hb (by have := Nat.le_of_dvd (by omega) hdvd; omega)
      · exact lt_min (by omega) hb
    refine ⟨inv_addSlots hs₁ h8 hpow hd hdle (by omega) hb h8 rfl rfl
      (fun i => by simp only [h8, mem_strides hshape]), fun i => (hpre i).trans ?_⟩
    change _ <+: (if _ then _ else _ : Tick).slots
    split
    · exact List.prefix_append _ _
    · exact List.prefix_refl _

/-- A call of `add_task` adds at most one task, with the period and the
length it was given. -/
theorem addTask_tasks {o : Options} {s s' : Sched} {lead : Nat} {name : List Char}
    {period : Nat} {len : Binary64} (hs : Inv s) (hP : period &&& (period - 1) = 0)
    (h : addTask o s lead name period len = .ok s') :
    s'.tasks = s.tasks ∨ ∃ T : Task, T.period = period ∧ T.len = len ∧
      s'.tasks = s.tasks ++ [T] := by
  rcases addTask_ok h with rfl | ⟨T, s₁, count, divider, base, s₂, hTp, hTl, h₁, h₂, h₃, rfl⟩
  · exact .inl rfl
  obtain ⟨-, h8, htasks, -, -, -, -, -, hshape⟩ := plan_ok hs hP h₁ h₂
  obtain ⟨-, rfl⟩ := placeSlots_ok h₃ (by rw [h8]; exact strides_nodup hshape)
  exact .inr ⟨T, hTp, hTl, by rw [← htasks]⟩

theorem Reachable.inv {s : Sched} (h : Reachable s) : Inv s := by
  induction h with
  | init => exact inv_init
  | addTask _ _ _ _ _ _ hP hadd ih => exact (inv_step ih hP hadd).1

end FreewpcSched
