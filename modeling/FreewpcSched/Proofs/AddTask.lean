import FreewpcSched.Proofs.Pow2
import FreewpcSched.Code.Main

/-!
# What each piece of `add_task` does

One contract per piece of `add_task`, read off the code on the path where it
returns: `slotPlan`'s three branches, the range of `findBestTick`'s answer,
and the placement loop, which pushes one slot onto every tick of its stride
and leaves the rest of the table alone. The invariant of the table is
proved from these alone; none of the later proofs unfolds `addTask`.

The stride is where the arithmetic is. The loop steps `base` by `period`
modulo `n_ticks`; when the period divides the table, or when only one slot is
placed, the ticks it visits are exactly those `i < n_ticks` with
`i % period = base`, each once.

The paths that do not return are checked less than the spec says. The
`/<digit>` suffix is looked for at `name + strlen (name) - 2` without
checking that the name has two characters, and the byte after the `/` is
converted with `end[1] - '0'` without checking that it is a digit
(`stripUnrolled_suffix`). Of the fixed tables only the tick's slots are
guarded, and that guard, `n_slots + 1 == MAX_SLOTS_PER_TICK`, refuses the
32nd slot, which fits; the task table, the include files, the conditionals
and the name buffers are filled with no check at all.
-/

namespace FreewpcSched

variable {ε α β : Type}

section Except

@[simp] theorem except_bind_ok {x : Except ε α} {f : α → Except ε β} {b : β} :
    x >>= f = .ok b ↔ ∃ a, x = .ok a ∧ f a = .ok b := by
  cases x <;> simp [bind, Except.bind]

@[simp] theorem except_pure_ok {a b : α} : (pure a : Except ε α) = .ok b ↔ a = b := by
  simp [pure, Except.pure]

end Except

@[simp] theorem udiv_ok {a b c : Nat} : udiv a b = .ok c ↔ b ≠ 0 ∧ a / b = c := by
  unfold udiv; split <;> simp_all

@[simp] theorem umod_ok {a b c : Nat} : umod a b = .ok c ↔ b ≠ 0 ∧ a % b = c := by
  unfold umod; split <;> simp_all

theorem except_throw_bind (e : Fault) (f : α → Except Fault β) :
    (throw e >>= f : Except Fault β) = .error e := rfl

/-! ## `addTask` -/

/-- `add_task` either skips the entry, or stores one task whose slots the
count/divider branch, `find_best_tick` and the placement loop decide. -/
theorem addTask_ok {o : Options} {s s' : Sched} {lead : Nat} {name : List Char}
    {period : Nat} {len : Binary64} (h : addTask o s lead name period len = .ok s') :
    s' = s ∨ ∃ (T : Task) (s₁ : Sched) (count divider base : Nat) (s₂ : Sched),
      T.period = period ∧ T.len = len ∧
      slotPlan o s period = .ok (s₁, count, divider) ∧
      findBestTick s₁ period count len = .ok base ∧
      placeSlots period divider s₁.tasks.length len count base (s₁, 0) = .ok (s₂, T.nSlots) ∧
      s' = { s₂ with tasks := s₂.tasks ++ [T] } := by
  unfold addTask at h
  split at h
  · exact .inl (by cases h; rfl)
  · simp only [except_bind_ok] at h
    obtain ⟨⟨nm, c⟩, -, h⟩ := h
    split at h
    · simp [except_throw_bind] at h
    · split at h
      · simp [except_throw_bind] at h
      · simp only [pure_bind, except_bind_ok, except_pure_ok] at h
        obtain ⟨⟨s₁, count, divider⟩, h₁, base, h₂, ⟨s₂, k⟩, h₃, rfl⟩ := h
        exact .inr ⟨⟨nm, period, len, c, k⟩, s₁, count, divider, base, s₂, rfl, rfl, h₁, h₂,
          h₃, rfl⟩

/-! ## `slotPlan` -/

theorem slotPlan_ok {o : Options} {s s₁ : Sched} {period count divider : Nat}
    (h : slotPlan o s period = .ok (s₁, count, divider)) :
    (s.nTicks < period ∧ period ≤ o.maxTicks ∧ s₁ = expandTicks s period ∧
        count = 8 / period ∧ divider = 1) ∨
    (s.nTicks < period ∧ o.maxTicks < period ∧ s.nTicks ≠ 0 ∧ divider = period / s.nTicks ∧
        count = 1 ∧ (s.maxDivider < divider → divider < 256) ∧
        s₁ = { s with maxDivider := max s.maxDivider divider }) ∨
    (period ≤ s.nTicks ∧ period ≠ 0 ∧ s₁ = s ∧ count = s.nTicks / period ∧ divider = 1) := by
  unfold slotPlan at h
  split at h
  · split at h
    · simp only [except_bind_ok, udiv_ok, except_pure_ok, Prod.mk.injEq] at h
      obtain ⟨c, ⟨-, hc⟩, rfl, rfl, rfl⟩ := h
      exact .inl ⟨by assumption, by assumption, rfl, hc.symm, rfl⟩
    · simp only [except_bind_ok, udiv_ok] at h
      obtain ⟨d, ⟨hn, hd⟩, h⟩ := h
      split at h
      · split at h
        · cases h
        · simp only [except_bind_ok, except_pure_ok, Prod.mk.injEq] at h
          obtain ⟨-, -, rfl, rfl, rfl⟩ := h
          exact .inr (.inl ⟨‹_›, by omega, hn, hd.symm, rfl, fun _ => by omega,
            by rw [max_eq_right (by omega)]⟩)
      · simp only [except_pure_ok, Prod.mk.injEq] at h
        obtain ⟨rfl, rfl, rfl⟩ := h
        exact .inr (.inl ⟨‹_›, by omega, hn, hd.symm, rfl, fun h => absurd h ‹_›,
          by rw [max_eq_left (by omega)]⟩)
  · simp only [except_bind_ok, udiv_ok, except_pure_ok, Prod.mk.injEq] at h
    obtain ⟨c, ⟨hp, hc⟩, rfl, rfl, rfl⟩ := h
    exact .inr (.inr ⟨by omega, hp, rfl, hc.symm, rfl⟩)

/-! ## `findBestTick` -/

/-- A scan that replaces its best candidate only by one it looks at ends on the
first candidate or one of those. -/
theorem foldl_best_mem (cost : Nat → Binary64) :
    ∀ (l : List Nat) (best : Nat × Binary64),
      (l.foldl (fun best x => if (cost x).lt best.2 then (x, cost x) else best) best).1 ∈
        best.1 :: l
  | [], _ => List.mem_singleton_self _
  | x :: xs, best => by
    have ih := foldl_best_mem cost xs (if (cost x).lt best.2 then (x, cost x) else best)
    simp only [List.foldl_cons]
    by_cases hc : (cost x).lt best.2 = true
    · rw [if_pos hc] at ih ⊢
      exact List.mem_cons_of_mem _ ih
    · rw [if_neg hc] at ih ⊢
      rcases List.mem_cons.1 ih with h | h
      · exact h ▸ List.mem_cons_self _ _
      · exact List.mem_cons_of_mem _ (List.mem_cons_of_mem _ h)

theorem findBestTick_count_ne_zero {s : Sched} {period count base : Nat} {len : Binary64}
    (h : findBestTick s period count len = .ok base) : count ≠ 0 := by
  simp only [findBestTick, except_bind_ok, udiv_ok] at h
  obtain ⟨_, ⟨h0, -⟩, -⟩ := h
  exact h0

/-- `find_best_tick` answers one of its `n_ticks / count` candidates. -/
theorem findBestTick_lt {s : Sched} {period count base : Nat} {len : Binary64}
    (h : findBestTick s period count len = .ok base) (hc : count ≤ s.nTicks) :
    base < s.nTicks / count := by
  simp only [findBestTick, except_bind_ok, udiv_ok, except_pure_ok] at h
  obtain ⟨cands, ⟨hc0, rfl⟩, rfl⟩ := h
  have hpos : 0 < s.nTicks / count := Nat.div_pos hc (Nat.pos_of_ne_zero hc0)
  have := foldl_best_mem (candidateCost s period count (s.nTicks / count) len)
    (List.range (s.nTicks / count)) (0, .ofNat 99999)
  simp only [List.mem_cons, List.mem_range] at this
  omega

/-! ## The placement loop -/

/-- `tick` with one more slot, of task `t` with `divider`, and its share of
`len`. -/
def Tick.push (tick : Tick) (divider t : Nat) (len : Binary64) : Tick :=
  ⟨tick.slots ++ [⟨divider, t⟩], tick.len.add (len.divNat divider)⟩

@[simp] theorem Tick.push_slots (tick : Tick) (divider t : Nat) (len : Binary64) :
    (tick.push divider t len).slots = tick.slots ++ [⟨divider, t⟩] := rfl

@[simp] theorem Tick.push_len (tick : Tick) (divider t : Nat) (len : Binary64) :
    (tick.push divider t len).len = tick.len.add (len.divNat divider) := rfl

/-- The ticks the placement loop visits: `base`, then `(base + period) % n`,
`count` times. -/
def strides (period n : Nat) : Nat → Nat → List Nat
  | 0, _ => []
  | count + 1, base => base :: strides period n count ((base + period) % n)

theorem allocSlot_ok {s s' : Sched} {tickno divider t : Nat} {len : Binary64}
    (h : allocSlot s tickno divider t len = .ok s') :
    s' = s.setTick tickno ((s.ticks tickno).push divider t len) := by
  simp only [allocSlot] at h
  split at h
  · cases h
  · cases h; rfl

/-- The placement loop pushes one slot onto each tick it visits and leaves the
others, when it visits none twice. -/
theorem placeSlots_ok {period divider t : Nat} {len : Binary64} :
    ∀ {count base k k' : Nat} {s s' : Sched},
      placeSlots period divider t len count base (s, k) = .ok (s', k') →
      (strides period s.nTicks count base).Nodup →
      k' = k + count ∧ s' = { s with ticks := (fun i =>
        if i ∈ strides period s.nTicks count base then (s.ticks i).push divider t len
        else s.ticks i) }
  | 0, _, _, _, _, _, h, _ => by
    cases h
    exact ⟨rfl, by simp [strides]⟩
  | count + 1, base, k, k', s, s', h, hnd => by
    simp only [placeSlots, except_bind_ok, umod_ok] at h
    obtain ⟨s₁, h₁, base', ⟨hn, rfl⟩, h⟩ := h
    obtain rfl := allocSlot_ok h₁
    rw [strides, List.nodup_cons] at hnd
    obtain ⟨rfl, rfl⟩ := placeSlots_ok h hnd.2
    refine ⟨by omega, ?_⟩
    simp only [Sched.setTick, strides, List.mem_cons]
    congr 1
    funext i
    by_cases hi : i = base
    · subst hi; simp [hnd.1]
    · simp [hi]

/-- Until it would wrap, the loop visits `base + j * period` for `j < count`. -/
theorem strides_eq_map {period n : Nat} :
    ∀ {count base : Nat}, base + count * period < n + period →
      strides period n count base = (List.range count).map (base + · * period)
  | 0, _, _ => rfl
  | 1, base, _ => by simp [strides, List.range_succ]
  | count + 2, base, h => by
    have h2 : base + (count + 1) * period + period < n + period := by
      rw [Nat.add_mul] at h ⊢; omega
    have hlt : base + period < n := by rw [Nat.add_mul] at h2; omega
    rw [strides, Nat.mod_eq_of_lt hlt, strides_eq_map (by rw [Nat.add_mul] at h2 ⊢; omega),
      List.range_succ_eq_map (count + 1), List.map_cons, List.map_map]
    congr 1
    · simp
    · congr 1; funext j
      simp only [Function.comp, Nat.succ_eq_add_one, Nat.add_mul]
      omega

/-- The two shapes of a placement: a stride dividing the table with one slot
per stride, or a single slot. -/
def StrideShape (period n count base : Nat) : Prop :=
  (period ∣ n ∧ 0 < period ∧ count = n / period ∧ base < period) ∨
    (n < period ∧ count = 1 ∧ base < n)

theorem strides_nodup {period n count base : Nat} (h : StrideShape period n count base) :
    (strides period n count base).Nodup := by
  rcases h with ⟨hdvd, hp, rfl, hb⟩ | ⟨-, rfl, -⟩
  · rw [strides_eq_map (by rw [Nat.div_mul_cancel hdvd]; omega)]
    exact (List.nodup_range _).map fun a b hab => by
      simpa [Nat.mul_left_inj (Nat.pos_iff_ne_zero.1 hp)] using hab
  · simp [strides]

/-- The loop visits exactly the ticks `i < n` with `i % period = base`. -/
theorem mem_strides {period n count base i : Nat} (h : StrideShape period n count base) :
    i ∈ strides period n count base ↔ i < n ∧ i % period = base := by
  rcases h with ⟨hdvd, hp, rfl, hb⟩ | ⟨hn, rfl, hb⟩
  · rw [strides_eq_map (by rw [Nat.div_mul_cancel hdvd]; omega), List.mem_map]
    constructor
    · rintro ⟨j, hj, rfl⟩
      rw [List.mem_range] at hj
      refine ⟨?_, by rw [Nat.add_mul_mod_self_right, Nat.mod_eq_of_lt hb]⟩
      have : (j + 1) * period ≤ n / period * period := Nat.mul_le_mul_right _ hj
      rw [Nat.div_mul_cancel hdvd, Nat.add_mul] at this
      omega
    · rintro ⟨hi, rfl⟩
      refine ⟨i / period, List.mem_range.2 (Nat.div_lt_div_of_lt_of_dvd hdvd hi), ?_⟩
      rw [Nat.mul_comm]; exact Nat.mod_add_div i period
  · simp only [strides, List.mem_singleton]
    constructor
    · rintro rfl; exact ⟨hb, Nat.mod_eq_of_lt (by omega)⟩
    · rintro ⟨hi, rfl⟩; exact (Nat.mod_eq_of_lt (by omega)).symm

/-! ## Where `add_task` and `main` leave defined behaviour -/

/-- A name that ends in `/` and one more byte is cut before the `/`, and the
byte, whatever it is, less `'0'` is the unrolled count. -/
theorem stripUnrolled_suffix (lead : Nat) (base : List Char) (d : Char) :
    stripUnrolled lead (base ++ ['/', d]) = .ok (base, charValue d - charValue '0') := by
  rw [stripUnrolled, if_neg (by simp; omega)]
  simp

set_option maxRecDepth 20000 in
/-- The suffix test at work on three lines: `ab/x` is stored as `ab` with an
unrolled count of `'x' - '0' = 72`; `/3` is stored with the empty name and a
count of 3; and the one-character name `a` at the start of the line sends
`name + strlen (name) - 2` before the buffer. -/
theorem parseLine_name_suffix :
    (parseLine .default initSchedule "ab/x 1 0.5\n".toList).map
        (·.tasks.map fun T => (T.name, T.alreadyUnrolledCount)) = .ok [("ab".toList, 72)] ∧
      (parseLine .default initSchedule "/3 1 0.5\n".toList).map
        (·.tasks.map fun T => (T.name, T.alreadyUnrolledCount)) = .ok [([], 3)] ∧
      (parseLine .default initSchedule "a 1 0.5\n".toList).map (fun _ => ()) =
        .error (.undefined "name + strlen (name) - 2 before the buffer") := by
  decide

set_option maxRecDepth 100000 in
/-- Runs at the capacities. Zero-length tasks of period 8 all go to tick 0,
since every candidate costs the same: 31 of them fill it with 31 slots, and
the next one stops on the slot guard although the tick has room for it. Past
the other tables there is no guard: the 17th `-i`, the 33rd `-D`, a name of
128 characters, a call name of 128 characters in the emitter, and the 65th
task are each stored past the end of their array. -/
theorem main_capacity_limits :
    (parseSchedule .default initSchedule (List.replicate 31 "ab 8 0\n".toList).flatten).map
        (fun s => ((s.ticks 0).slots.length,
          (parseLine .default s "ab 8 0\n".toList).map fun _ => ())) =
        .ok (31, .error (.fatal .tooManySlots)) ∧
      (main (List.replicate 17 ["-i".toList, "x.h".toList]).flatten (fun _ => none)).map
        (fun _ => ()) = .error (.undefined "include_files past MAX_INCLUDE_FILES") ∧
      (main (List.replicate 33 ["-D".toList, "c".toList]).flatten (fun _ => none)).map
        (fun _ => ()) = .error (.undefined "conditionals past MAX_CONDITIONALS") ∧
      (main ["s".toList] (fun _ => some (List.replicate 128 'a' ++ " 1 0.5\n".toList))).map
        (fun _ => ()) = .error (.undefined "strcpy past task->name") ∧
      (main ["s".toList] (fun _ => some (List.replicate 126 'a' ++ "/2 2 0.5\n".toList))).map
        (fun _ => ()) = .error (.undefined "sprintf past task_name") ∧
      (main ["s".toList] (fun _ => some (List.replicate 65 "ab 8 0x1p-10\n".toList).flatten)).map
        (fun _ => ()) = .error (.undefined "tasks[n_tasks++] past MAX_TASKS") := by
  decide

end FreewpcSched
