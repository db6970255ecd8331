import FreewpcSched.Proofs.Program
import FreewpcSched.Proofs.Layout
import FreewpcSched.Proofs.Input

/-!
# The rate of every task

`<prefix>_init` starts the dispatcher at handler 0 with the divider at 0;
each interrupt runs one handler and names the next, and the last handler
bumps the divider when some task needs one. So after `k` interrupts the
dispatcher is at handler `k mod n_ticks`, and the divider has counted the
rounds of the table modulo 256 (`machineAt_eq`). This holds when no task is
named like one of the file's own symbols (`NoCollision`): a task named
`<prefix>_<j>` runs handler `j` in the middle of another, and one named
`<prefix>_init` resets the dispatcher, so the rate of a task is then
anything (`main_task_rate_nested`).

A task of period `P` sits in the ticks `i` with `i mod P = b`. When `P`
divides the table its divider is 1 and it runs in each of those ticks; when
`P` is larger it sits in one tick `b`, behind a divider `P / 8` that divides
256, and runs in the rounds the divider counts out. Either way it runs at
interrupt `k` exactly when `k mod P = b`, once (`main_task_rate`).

A pre-unrolled task takes its variant from the index of the handler it is
called from, not from the interrupt count: the two agree when
`count * P` divides the table, and not otherwise.
-/

namespace FreewpcSched

/-! ## The dispatcher -/

/-- The divider after `k` interrupts: the rounds of the table, modulo 256,
when the last handler bumps it. -/
def dividerAt (s : Sched) (k : Nat) : Nat :=
  if 1 < s.maxDivider then k / s.nTicks % 256 else 0

theorem succ_div_of_mod {k N : Nat} (hN : 0 < N) :
    (k + 1) / N = if k % N = N - 1 then k / N + 1 else k / N := by
  have hk := Nat.div_add_mod k N
  have hr := Nat.mod_lt k hN
  conv_lhs => rw [← hk, Nat.add_assoc, Nat.add_comm, Nat.add_mul_div_left _ _ hN]
  split
  · rw [show k % N + 1 = N by omega, Nat.div_self hN, Nat.add_comm]
  · rw [Nat.div_eq_of_lt (by omega), Nat.zero_add]

theorem dividerAt_succ (s : Sched) {k : Nat} (hN : 0 < s.nTicks) :
    dividerAt s (k + 1) = if k % s.nTicks = s.nTicks - 1 ∧ 1 < s.maxDivider then
      (dividerAt s k + 1) % 256 else dividerAt s k := by
  unfold dividerAt
  rw [succ_div_of_mod hN]
  by_cases hm : 1 < s.maxDivider <;> by_cases hr : k % s.nTicks = s.nTicks - 1 <;>
    simp [hm, hr, Nat.add_mod]

/-- After `<prefix>_init` and `k` interrupts the dispatcher is at handler
`k mod n_ticks`, with the divider at `dividerAt s k`. -/
theorem machineAt_eq {o : Options} {s : Sched} (hc : NoCollision o s) (hN : 0 < s.nTicks) :
    ∀ k, machineAt (writeTickDriver o s) o.pfx k = some ⟨k % s.nTicks, dividerAt s k⟩
  | 0 => by simp [machineAt, boot_writeTickDriver hc, dividerAt]
  | k + 1 => by
    rw [machineAt, machineAt_eq hc hN k]
    simp only [Option.pure_def, Option.bind_eq_bind, Option.some_bind,
      interrupt_handler hc (Nat.mod_lt k hN), dividerAt_succ s hN]
    rw [Nat.mod_add_mod]

/-- The calls at interrupt `k`. -/
theorem callsAt_eq {o : Options} {s : Sched} (hc : NoCollision o s) (hN : 0 < s.nTicks) (k : Nat) :
    callsAt (writeTickDriver o s) o.pfx k = some (handlerCalls s (k % s.nTicks) (dividerAt s k)) := by
  simp [callsAt, machineAt_eq hc hN, interrupt_handler hc (Nat.mod_lt k hN)]

/-! ## Slots on a reachable table -/

/-- Every slot of a reachable table is the one its task's placement puts
there. -/
theorem Inv.slot_eq {s : Sched} (hs : Inv s) {i : Nat} {sl : Slot}
    (hsl : sl ∈ (s.ticks i).slots) :
    sl = ⟨dividerFor (s.task sl.task).period s.nTicks, sl.task⟩ := by
  have hi : i < s.nTicks := Nat.lt_of_not_le fun h => by simp [hs.idle i h] at hsl
  obtain ⟨-, -, -, b, -, hpl⟩ := hs.task _ (hs.slot_task i sl hsl)
  have hmem : sl ∈ (s.ticks i).slots.filter (·.task = sl.task) := List.mem_filter.2 ⟨hsl, by simp⟩
  rw [hpl i hi] at hmem
  split at hmem
  · exact List.mem_singleton.1 hmem
  · simp at hmem

theorem Inv.maxDivider_le {s : Sched} (hs : Inv s) : s.maxDivider ≤ 128 := by
  obtain ⟨j, hj⟩ := hs.maxDivider_pow
  have hlt := hs.maxDivider_lt
  rw [hj] at hlt ⊢
  have hj8 : j < 8 := by
    by_contra h
    have := Nat.pow_le_pow_right (show 0 < 2 by omega) (Nat.le_of_not_lt h)
    omega
  have := Nat.pow_le_pow_right (show 0 < 2 by omega) (show j ≤ 7 by omega)
  omega

theorem Inv.slot_divider {s : Sched} (hs : Inv s) {i : Nat} :
    ∀ sl ∈ (s.ticks i).slots, sl.divider.isPowerOfTwo ∧ sl.divider ≤ s.maxDivider := by
  intro sl hsl
  have heq := hs.slot_eq hsl
  have hi : i < s.nTicks := Nat.lt_of_not_le fun h => by simp [hs.idle i h] at hsl
  have h8 : s.nTicks = 8 := hs.nTicks_eq.resolve_right fun h => by omega
  obtain ⟨hpow, hdle, -⟩ := hs.task _ (hs.slot_task i sl hsl)
  rw [heq, h8]
  exact ⟨dividerFor_pow hpow, h8 ▸ hdle⟩

/-- The calls a handler makes for task `t` are its slots of `t` whose guard
holds. -/
theorem count_task_calls {s : Sched} (hs : Inv s) (n v t : Nat) :
    ((handlerCalls s n v).filter (·.task = t)).length =
      (((s.ticks n).slots.filter (·.task = t)).filter fun sl => v &&& (sl.divider - 1) = 0).length := by
  rw [((handlerCalls_perm hs.maxDivider_le hs.slot_divider v).filter _).length_eq,
    List.filter_map, List.length_map, List.filter_filter, List.filter_filter]
  congr 1
  exact List.filter_congr fun sl _ => by simp [slotCall, Bool.and_comm]

/-- On the 8-tick table a task with start `b` runs at interrupt `k` exactly
when `k mod P = b`: in tick `k mod 8`, behind a divider that counts out the
rounds when `P > 8`. -/
theorem task_runs_iff {s : Sched} (hs : Inv s) (h8 : s.nTicks = 8) {P b : Nat}
    (hpow : P.isPowerOfTwo) (hb : b < min P 8) (hdle : dividerFor P 8 ≤ s.maxDivider) (k : Nat) :
    (k % 8 % P = b ∧ dividerAt s k &&& (dividerFor P 8 - 1) = 0) ↔ k % P = b := by
  rcases Nat.lt_or_ge 8 P with hgt | hle
  · -- one tick, behind the divider `P / 8`
    have hdpow := dividerFor_pow hpow
    rw [dividerFor_of_gt hgt] at hdle hdpow ⊢
    have hP : P = 8 * (P / 8) :=
      (Nat.mul_div_cancel' (isPowerOfTwo_dvd_of_le ⟨3, rfl⟩ hpow hgt.le)).symm
    have hd2 : 2 ≤ P / 8 := by
      obtain ⟨j, hj⟩ := hdpow
      rcases j with _ | j
      · omega
      · rw [hj, Nat.pow_succ]; have := @Nat.one_le_two_pow j; omega
    have hdvd256 : P / 8 ∣ 256 := isPowerOfTwo_dvd_of_le hdpow ⟨8, rfl⟩ (by have := hs.maxDivider_lt; omega)
    have hkmod : k % 8 % P = k % 8 := Nat.mod_eq_of_lt (by have := Nat.mod_lt k (show 0 < 8 by omega); omega)
    rw [dividerAt, if_pos (by omega), h8, hkmod, land_pred_eq_zero_iff_dvd _ hdpow,
      Nat.dvd_mod_iff hdvd256, Nat.dvd_iff_mod_eq_zero]
    conv_rhs => rw [hP, Nat.mod_mul]
    have := Nat.mod_lt k (show 0 < 8 by omega)
    omega
  · -- every tick `i` with `i mod P = b`, divider 1
    rw [dividerFor_of_le hle, Nat.sub_self, Nat.and_zero,
      Nat.mod_mod_of_dvd _ (isPowerOfTwo_dvd_of_le hpow ⟨3, rfl⟩ hle)]
    simp

/-! ## Every stored task at its rate -/

/-- A task placed at start `b` on a reachable table is called at interrupt
`k` exactly when `k mod P = b`, and then once. -/
theorem Inv.task_calls_of_placed {s : Sched} (hs : Inv s) {t b : Nat} (ht : t < s.tasks.length)
    (hb : b < min (s.task t).period s.nTicks) (hpl : Placed s t b) (k : Nat) :
    ((handlerCalls s (k % s.nTicks) (dividerAt s k)).filter (·.task = t)).length =
      if k % (s.task t).period = b then 1 else 0 := by
  obtain ⟨hpow, hdle, -, -⟩ := hs.task t ht
  have h8 : s.nTicks = 8 := hs.nTicks_eq.resolve_right fun h => by simp [h.2] at ht
  rw [h8] at hb hdle
  have hiff := task_runs_iff hs h8 hpow hb hdle k
  rw [count_task_calls hs, h8, hpl (k % 8) (h8 ▸ Nat.mod_lt _ (by omega)), h8]
  by_cases hk : k % (s.task t).period = b
  · obtain ⟨h1, h2⟩ := hiff.2 hk
    simp [h1, h2, hk]
  · by_cases h1 : k % 8 % (s.task t).period = b
    · have h2 : ¬ dividerAt s k &&& (dividerFor (s.task t).period 8 - 1) = 0 :=
        fun h2 => hk (hiff.1 ⟨h1, h2⟩)
      simp [h1, h2, hk]
    · simp [h1, hk]

/-- On a reachable table every stored task is called at interrupt `k`
exactly when `k mod P = b`, for one start `b < P`, and then once. -/
theorem Inv.task_rate {s : Sched} (hs : Inv s) {t : Nat} (ht : t < s.tasks.length) :
    ∃ b < (s.task t).period, ∀ k,
      ((handlerCalls s (k % s.nTicks) (dividerAt s k)).filter (·.task = t)).length =
        if k % (s.task t).period = b then 1 else 0 := by
  obtain ⟨-, -, -, b, hb, hpl⟩ := hs.task t ht
  exact ⟨b, lt_of_lt_of_le hb (min_le_left _ _), hs.task_calls_of_placed ht hb hpl⟩

/-- For every run of `main` that returns `0`, whose call sites name none of
the file's own symbols, and every task it stored, with period `P`, there is
a start `b < P` such that the generated program, from `<prefix>_init` on,
calls the task (under any of its names) at interrupt `k` exactly when
`k mod P = b`, and then once. -/
theorem main_task_rate {argv : List (List Char)} {files : List Char → Option (List Char)}
    {out : Output} (h : main argv files = .ok out) (hc : NoCollision out.options out.sched)
    {t : Nat} (ht : t < out.sched.tasks.length) :
    ∃ b < (out.sched.task t).period, ∀ k, ∃ cs, callsAt out.program out.options.pfx k = some cs ∧
      (cs.filter (·.task = t)).length = if k % (out.sched.task t).period = b then 1 else 0 := by
  obtain ⟨hr, -, hprog⟩ := main_ok h
  have hs := hr.inv
  have hN : 0 < out.sched.nTicks := by
    rcases hs.nTicks_eq with h8 | ⟨-, h0⟩
    · omega
    · simp [h0] at ht
  obtain ⟨b, hb, hrate⟩ := hs.task_rate ht
  exact ⟨b, hb, fun k => ⟨_, by rw [hprog, callsAt_eq hc hN], hrate k⟩⟩

set_option maxRecDepth 20000 in
theorem main_task_rate_cd :
    ∃ out, main ["s".toList] (fun _ => some "ab 1 0.5\ncd/2 16 0.1\n".toList) = .ok out ∧
      NoCollision out.options out.sched ∧ 1 < out.sched.tasks.length ∧
      ∃ b < (out.sched.task 1).period, ∀ k, ∃ cs, callsAt out.program out.options.pfx k = some cs ∧
        (cs.filter (·.task = 1)).length = if k % (out.sched.task 1).period = b then 1 else 0 :=
  ⟨_, rfl, by decide, by decide,
    @main_task_rate ["s".toList] (fun _ => some "ab 1 0.5\ncd/2 16 0.1\n".toList) _ rfl
      (by decide) 1 (by decide)⟩

set_option maxRecDepth 20000 in
/-- A task named `tick_3` lands in tick 0, so handler 0 runs the body of
handler 3 in its middle: `ab`, of period 1, is called twice at interrupt 0. -/
theorem main_task_rate_nested :
    ∃ out, main ["s".toList] (fun _ => some "ab 1 0.01\ntick_3 2 0.01\n".toList) = .ok out ∧
      0 < out.sched.tasks.length ∧
      ¬ ∃ b < (out.sched.task 0).period, ∀ k, ∃ cs, callsAt out.program out.options.pfx k = some cs ∧
        (cs.filter (·.task = 0)).length = if k % (out.sched.task 0).period = b then 1 else 0 := by
  obtain ⟨out, h⟩ : ∃ out,
      main ["s".toList] (fun _ => some "ab 1 0.01\ntick_3 2 0.01\n".toList) = .ok out := ⟨_, rfl⟩
  have hfacts : (main ["s".toList] (fun _ => some "ab 1 0.01\ntick_3 2 0.01\n".toList)).map
      (fun out => (out.sched.tasks.length,
        (callsAt out.program out.options.pfx 0).map fun cs => (cs.filter (·.task = 0)).length)) =
      .ok (2, some 2) := rfl
  rw [h] at hfacts
  simp only [Except.map, Except.ok.injEq, Prod.mk.injEq] at hfacts
  obtain ⟨hlen, h0⟩ := hfacts
  refine ⟨out, h, by omega, fun ⟨b, _, hb⟩ => ?_⟩
  obtain ⟨cs, hcs, hn⟩ := hb 0
  rw [hcs, Option.map_some', Option.some.injEq, hn] at h0
  split_ifs at h0
  omega

/-! ## The period of the whole program -/

/-- A handler's calls depend on the divider only through which of the
dividers in use divide it. -/
theorem handlerCalls_congr {s : Sched} {n v w : Nat}
    (h : ∀ d ∈ dividerLoop s.maxDivider, d ∣ v ↔ d ∣ w) :
    handlerCalls s n v = handlerCalls s n w :=
  List.flatMap_congr fun d hd => by
    by_cases hv : d ∣ v
    · rw [if_pos hv, if_pos ((h d hd).1 hv)]
    · rw [if_neg hv, if_neg (mt (h d hd).2 hv)]

/-- `n_ticks * max_divider` interrupts later, every divider in use divides
the divider byte exactly when it did: the byte has counted `max_divider`
more rounds, modulo 256, and every divider in use divides `max_divider`,
which divides 256. -/
theorem dvd_dividerAt_add_iff {s : Sched} (hs : Inv s) (hN : 0 < s.nTicks) {d k : Nat}
    (hd : d ∈ dividerLoop s.maxDivider) :
    d ∣ dividerAt s (k + s.nTicks * s.maxDivider) ↔ d ∣ dividerAt s k := by
  obtain ⟨⟨j, -, rfl⟩, hle⟩ := mem_dividerLoop.1 hd
  have hdM : 2 ^ j ∣ s.maxDivider := isPowerOfTwo_dvd_of_le ⟨j, rfl⟩ hs.maxDivider_pow hle
  have h256 : 2 ^ j ∣ 256 := hdM.trans
    (isPowerOfTwo_dvd_of_le hs.maxDivider_pow ⟨8, rfl⟩ (by have := hs.maxDivider_lt; omega))
  unfold dividerAt
  split
  · rw [Nat.add_mul_div_left _ _ hN, Nat.dvd_mod_iff h256, Nat.dvd_mod_iff h256,
      Nat.dvd_add_left hdM]
  · exact Iff.rfl

/-- The emitted program repeats every `n_ticks * max_divider` interrupts,
the longest period of the table when it exceeds the table: the calls, their
order and the variant names they use are the same at interrupt `k` and at
interrupt `k + n_ticks * max_divider`, although the divider byte only wraps
at 256. -/
theorem main_calls_periodic {argv : List (List Char)} {files : List Char → Option (List Char)}
    {out : Output} (h : main argv files = .ok out) (hc : NoCollision out.options out.sched)
    (k : Nat) :
    callsAt out.program out.options.pfx (k + out.sched.nTicks * out.sched.maxDivider) =
      callsAt out.program out.options.pfx k := by
  obtain ⟨hr, -, hprog⟩ := main_ok h
  rw [hprog]
  rcases Nat.eq_zero_or_pos out.sched.nTicks with h0 | hN
  · rw [h0, Nat.zero_mul, Nat.add_zero]
  · rw [callsAt_eq hc hN, callsAt_eq hc hN, Nat.add_mul_mod_self_left,
      handlerCalls_congr fun d hd => dvd_dividerAt_add_iff hr.inv hN hd]

set_option maxRecDepth 20000 in
theorem main_calls_periodic_cd :
    ∃ out, main ["s".toList] (fun _ => some "ab 1 0.5\ncd/2 16 0.1\n".toList) = .ok out ∧
      NoCollision out.options out.sched ∧ out.sched.nTicks * out.sched.maxDivider = 16 ∧
      ∀ k, callsAt out.program out.options.pfx (k + out.sched.nTicks * out.sched.maxDivider) =
        callsAt out.program out.options.pfx k :=
  ⟨_, rfl, by decide, rfl,
    @main_calls_periodic ["s".toList] (fun _ => some "ab 1 0.5\ncd/2 16 0.1\n".toList) _ rfl
      (by decide)⟩

/-! ## Pre-unrolled variants -/

theorem mem_handlerCalls {s : Sched} {n v : Nat} {c : Call} (hc : c ∈ handlerCalls s n v) :
    c.name = callName n (s.task c.task) := by
  simp only [handlerCalls, List.mem_flatMap] at hc
  obtain ⟨d, -, hc⟩ := hc
  split at hc
  · obtain ⟨sl, -, rfl⟩ := List.mem_map.1 hc
    rfl
  · simp at hc

/-- The variant a handler names when `count * P` divides the table: the
handler index, taken modulo `count * P`, counts periods. -/
theorem callName_of_dvd {task : Task} {N c : Nat} (hc : task.alreadyUnrolledCount = c)
    (hpos : 0 < c) (hdvd : c * task.period ∣ N) (hN : 0 < N) (hN32 : N < 2 ^ 32) (k : Nat) :
    callName (k % N) task =
      (if task.name.head? = some '!' then task.name.tail else task.name) ++
        '_' :: (showUnsignedAsInt (k / task.period % c)).toList := by
  have hle := Nat.le_of_dvd hN hdvd
  have hmod : ((c : Int) * task.period % 2 ^ 32).toNat = c * task.period := by
    rw [Int.emod_eq_of_lt (by positivity) (by push_cast at hle ⊢; omega)]
    rfl
  simp only [callName, hc, Int.natCast_eq_zero, Nat.pos_iff_ne_zero.1 hpos, if_false, hmod]
  rw [Nat.mod_mod_of_dvd _ hdvd, Nat.mul_comm c, Nat.mod_mul_right_div_self]

/-- A call the generated program makes at interrupt `k` has the name handler
`k mod n_ticks` writes for its task: for a pre-unrolled task with `count`
variants, the variant `((k mod n_ticks) mod (count * P)) / P`, which is
`(k / P) mod count` when `count * P` divides the table. -/
theorem main_call_variant {argv : List (List Char)} {files : List Char → Option (List Char)}
    {out : Output} (h : main argv files = .ok out) (hcol : NoCollision out.options out.sched)
    {k : Nat} {cs : List Call}
    (hk : callsAt out.program out.options.pfx k = some cs) {c : Call} (hc : c ∈ cs) :
    c.name = callName (k % out.sched.nTicks) (out.sched.task c.task) ∧
      ∀ n : Nat, (out.sched.task c.task).alreadyUnrolledCount = n → 0 < n →
        n * (out.sched.task c.task).period ∣ out.sched.nTicks →
        c.name = (if (out.sched.task c.task).name.head? = some '!' then
            (out.sched.task c.task).name.tail else (out.sched.task c.task).name) ++
          '_' :: (showUnsignedAsInt (k / (out.sched.task c.task).period % n)).toList := by
  obtain ⟨hr, -, hprog⟩ := main_ok h
  rw [hprog] at hk
  have hN : 0 < out.sched.nTicks := Nat.pos_of_ne_zero fun h0 => by
    rw [callsAt_of_nTicks_eq_zero h0] at hk; cases hk
  rw [callsAt_eq hcol hN] at hk
  have hname := mem_handlerCalls (Option.some.inj hk ▸ hc)
  refine ⟨hname, fun n hn hpos hdvd => hname.trans (callName_of_dvd hn hpos hdvd hN ?_ k)⟩
  rcases hr.inv.nTicks_eq with h8 | ⟨h0, -⟩ <;> omega

set_option maxRecDepth 20000 in
theorem main_call_variant_ab :
    ∃ out, main ["s".toList] (fun _ => some "ab/2 2 0.25\n".toList) = .ok out ∧
      NoCollision out.options out.sched ∧
      ("ab_1".toList = callName (2 % out.sched.nTicks) (out.sched.task 0) ∧
        ∀ n : Nat, (out.sched.task 0).alreadyUnrolledCount = n → 0 < n →
          n * (out.sched.task 0).period ∣ out.sched.nTicks →
          "ab_1".toList = (if (out.sched.task 0).name.head? = some '!' then
              (out.sched.task 0).name.tail else (out.sched.task 0).name) ++
            '_' :: (showUnsignedAsInt (2 / (out.sched.task 0).period % n)).toList) :=
  ⟨_, rfl, by decide, @main_call_variant ["s".toList] (fun _ => some "ab/2 2 0.25\n".toList) _
    rfl (by decide) 2 [⟨"ab_1".toList, 0⟩] (by decide) ⟨"ab_1".toList, 0⟩ (by decide)⟩

set_option maxRecDepth 20000 in
/-- `cd/2` of period 16 sits in a single tick, so every call of it is made
from handler 7: at interrupt 23, where `(23 / 16) mod 2 = 1`, it is called as
`cd_0`. -/
theorem main_call_variant_fixed :
    ∃ out, main ["s".toList] (fun _ => some "ab 1 0.5\ncd/2 16 0.1\n".toList) = .ok out ∧
      NoCollision out.options out.sched ∧
      (out.sched.task 1).alreadyUnrolledCount = 2 ∧ (out.sched.task 1).period = 16 ∧
      callsAt out.program out.options.pfx 23 = some [⟨"ab".toList, 0⟩, ⟨"cd_0".toList, 1⟩] := by
  obtain ⟨out, h⟩ : ∃ out,
      main ["s".toList] (fun _ => some "ab 1 0.5\ncd/2 16 0.1\n".toList) = .ok out := ⟨_, rfl⟩
  -- the run is evaluated once; interrupt 23 is read off `callsAt_eq`, not stepped through
  have hfacts : (main ["s".toList] (fun _ => some "ab 1 0.5\ncd/2 16 0.1\n".toList)).map
      (fun out => (decide (NoCollision out.options out.sched),
        (out.sched.task 1).alreadyUnrolledCount, (out.sched.task 1).period, out.sched.nTicks,
        handlerCalls out.sched (23 % out.sched.nTicks) (dividerAt out.sched 23))) =
      .ok (true, 2, 16, 8, [⟨"ab".toList, 0⟩, ⟨"cd_0".toList, 1⟩]) := by
    decide
  rw [h] at hfacts
  simp only [Except.map, Except.ok.injEq, Prod.mk.injEq, decide_eq_true_eq] at hfacts
  obtain ⟨hc, h1, h2, h8, hcalls⟩ := hfacts
  refine ⟨out, h, hc, h1, h2, ?_⟩
  rw [(main_ok h).2.2, callsAt_eq hc (by omega), hcalls]

end FreewpcSched
