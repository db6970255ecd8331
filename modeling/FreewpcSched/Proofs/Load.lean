import FreewpcSched.Proofs.BestTick
import FreewpcSched.Proofs.Monotone

/-!
# No tick reaches `1.0` when every task found room

`write_tick_driver` warns `tick %d takes too long` when a tick's accumulated
`len` is `>= 1.0`. The scheduler is built so that this does not happen as
long as each task could be placed: `find_best_tick` scores a start `99999.0`
when one of its buckets would reach `1.0` with the task's whole `len` added,
so whenever some start keeps every bucket below `1.0`, it chooses one.

What the placement loop then adds to a tick is not `len` but the share
`len / divider`. The divider is a power of two, so the share is at most
`len` (`ge_divNat_two_pow`), and rounding is monotone (`add_mono`): the new
length is at most the sum `find_best_tick` tested. A tick the task does not
visit keeps its length. So the bound passes from one call of `add_task` to
the next (`load_step`) and holds on the whole run (`Roomy.load`).

`Roomy` is the run of `Reachable` with the hypotheses this needs at each
call: the length is a non-negative double in canonical form, as
`(float) parse_time (...)` leaves it, and when the call stores a task some
start has room. A call `add_task` skips needs no room.
-/

namespace FreewpcSched

open Binary64

/-- The runs of `add_task` in which every stored task had a start where each
tick it would fill stays below `1.0` with its length added. -/
inductive Roomy : Sched → Prop
  | init : Roomy initSchedule
  | addTask {s s' : Sched} (o : Options) (lead : Nat) (name : List Char) (period : Nat)
      (len : Binary64) : Roomy s → period &&& (period - 1) = 0 → len.canonical = true →
      len.ge .zero = true →
      (s'.tasks ≠ s.tasks → ∃ b < min period 8, ∀ i < 8, i % period = b →
        ((s.ticks i).len.add len).lt (.ofNat 1) = true) →
      addTask o s lead name period len = .ok s' → Roomy s'

/-- A tick that takes the share `len / 2^j` of a task whose whole `len`
fitted stays below `1.0`. -/
theorem add_share_lt_one {x len : Binary64} (hx : x.ge .zero = true) (hc : len.canonical = true)
    (hlen : len.ge .zero = true) (j : Nat) (h : (x.add len).lt (.ofNat 1) = true) :
    (x.add (len.divNat (2 ^ j))).lt (.ofNat 1) = true :=
  lt_of_ge_of_lt' (add_mono hx (divNat_ge_zero hlen (Nat.two_pow_pos j))
    (ge_divNat_two_pow hc hlen j)) h

/-- One call of `add_task` keeps every tick below `1.0` when the task it
stores had room, and every task length non-negative. -/
theorem load_step {o : Options} {s s' : Sched} {lead : Nat} {name : List Char} {period : Nat}
    {len : Binary64} (hs : Reachable s) (hlens : ∀ T ∈ s.tasks, T.len.ge .zero = true)
    (hload : ∀ i, (s.ticks i).len.lt (.ofNat 1) = true) (hP : period &&& (period - 1) = 0)
    (hc : len.canonical = true) (hlen : len.ge .zero = true)
    (hroom : s'.tasks ≠ s.tasks → ∃ b < min period 8, ∀ i < 8, i % period = b →
      ((s.ticks i).len.add len).lt (.ofNat 1) = true)
    (h : addTask o s lead name period len = .ok s') :
    (∀ T ∈ s'.tasks, T.len.ge .zero = true) ∧ ∀ i, (s'.ticks i).len.lt (.ofNat 1) = true := by
  rcases addTask_ok h with rfl | ⟨T, s₁, count, divider, base, s₂, -, hTlen, h₁, h₂, h₃, rfl⟩
  · exact ⟨hlens, hload⟩
  obtain ⟨hs₁, h8, htasks, -, hpow, rfl, -, rfl, hshape⟩ := plan_ok hs.inv hP h₁ h₂
  obtain ⟨-, rfl⟩ := placeSlots_ok h₃ (by rw [h8]; exact strides_nodup hshape)
  have hlen₁ := slotPlan_len hs.inv h₁ (findBestTick_count_ne_zero h₂)
  have hl₁ : LensOk s₁ := hs₁.lensOk (htasks ▸ hlens)
  refine ⟨fun T' hT' => ?_, fun i => ?_⟩
  · rcases List.mem_append.1 hT' with hT' | hT'
    · exact hlens T' (htasks ▸ hT')
    · rw [List.mem_singleton.1 hT', hTlen]; exact hlen
  · dsimp only
    split_ifs with hi
    · -- a tick the task visits: its share is at most the length `find_best_tick` tested
      obtain ⟨b, hb, hbroom⟩ := hroom (by simp [htasks])
      have hfit := findBestTick_room_strides hl₁ hlen h8 hpow h₂
        ⟨b, hb, fun i hi hmod => ge_eq_false_of_lt (by rw [hlen₁]; exact hbroom i hi hmod)⟩ i
        (h8 ▸ hi)
      obtain ⟨j, hj⟩ := dividerFor_pow hpow
      rw [Tick.push_len, hj]
      exact add_share_lt_one (hl₁ i).2 hc hlen j (lt_of_ge_eq_false
        (key?_isSome_of_ge (add_ge_zero (hl₁ i).2 hlen)) rfl hfit)
    · rw [hlen₁]; exact hload i

/-- Over a whole run, every tick stays below `1.0`. -/
theorem Roomy.load {s : Sched} (h : Roomy s) :
    Reachable s ∧ (∀ T ∈ s.tasks, T.len.ge .zero = true) ∧
      ∀ i, (s.ticks i).len.lt (.ofNat 1) = true := by
  induction h with
  | init => exact ⟨.init, fun _ h => by simp [initSchedule] at h, fun _ => rfl⟩
  | addTask o lead name period len _ hP hc hlen hroom hadd ih =>
    obtain ⟨hr, hlens, hload⟩ := ih
    exact ⟨.addTask o lead name period len hr hP hadd,
      load_step hr hlens hload hP hc hlen hroom hadd⟩

/-- On every run in which each stored task found room, the test
`tick->len >= 1.0` of `write_tick_driver` fails for every tick. -/
theorem roomy_no_tick_too_long {s : Sched} (h : Roomy s) (i : Nat) :
    (s.ticks i).len.ge (.ofNat 1) = false :=
  ge_eq_false_of_lt (h.load.2.2 i)

set_option maxRecDepth 20000 in
/-- `ab` of period 1 and length `0.5` fills every tick to `0.5`; `cd` of
period 16 and length `0.25` then finds room in tick 7 and adds its share
`0.125` there, behind the divider 2. -/
theorem roomy_divided_share :
    ∃ s, Roomy s ∧ (s.ticks 7).slots = [⟨1, 0⟩, ⟨2, 1⟩] ∧
      ∀ i, (s.ticks i).len.ge (.ofNat 1) = false := by
  obtain ⟨s₁, h₁, s₂, h₂, h7, hroom⟩ : ∃ s₁,
      addTask .default initSchedule 0 "ab".toList 1 (.round false 1 1 (-1)) = .ok s₁ ∧ ∃ s₂,
      addTask .default s₁ 0 "cd".toList 16 (.round false 1 1 (-2)) = .ok s₂ ∧
      (s₂.ticks 7).slots = [⟨1, 0⟩, ⟨2, 1⟩] ∧
      ∀ i < 8, i % 16 = 7 → ((s₁.ticks i).len.add (.round false 1 1 (-2))).lt (.ofNat 1) = true :=
    ⟨_, rfl, _, rfl, by decide⟩
  have hab : Roomy s₁ := .addTask .default 0 "ab".toList 1 _ .init (by decide) (by decide)
    (by decide) (fun _ => ⟨0, by decide, fun _ _ _ =>
      (by decide : (zero.add (.round false 1 1 (-1))).lt (.ofNat 1) = true)⟩) h₁
  have h : Roomy s₂ := .addTask .default 0 "cd".toList 16 _ hab (by decide) (by decide)
    (by decide) (fun _ => ⟨7, by decide, hroom⟩) h₂
  exact ⟨s₂, h, h7, roomy_no_tick_too_long h⟩

end FreewpcSched
