import FreewpcSched.Proofs.Dispatch
import FreewpcSched.Proofs.Double

/-!
# The candidate `find_best_tick` picks

`find_best_tick` scans the candidates `0, 1, …, n_ticks / count - 1` from
`best = 0`, `best_len = 99999.0`, and takes a candidate whenever its total is
below the best so far (`ScanBest`). So it answers the first candidate of
least total, provided some total is below `99999.0`; when none is, the
sentinel is never beaten and it answers candidate 0, whatever the totals are
(`findBestTick_spec`). A bucket that has no room for the task costs
`99999.0`, so once every candidate has such a bucket the least total is no
longer found: on a table loaded with three tasks of length `0.6` a fourth
lands on two full ticks while a candidate with one full tick is left
(`findBestTick_overloaded`).

Below the sentinel the scan does what `add_task` needs. With lengths at
least `0.0` every tick's length is too (`Inv.lensOk`). A candidate with room
in each of its buckets totals at most `2^count` (each bucket adds less than
`1.0`), or `-1.0` for the last candidate of a divider's task; one without
totals `99999.0` or more, since a running sum of non-negative doubles never
drops below a term. So whenever some candidate has room everywhere, the
answer has too (`findBestTick_room`), and a divider's task goes to the last
tick whenever it has room (`findBestTick_last`). The candidate's buckets,
`b + (n_ticks / count) * k`, are the ticks the placement loop fills from `b`
(`scored_eq_strides`), which ties both to where the slots end up.
-/

namespace FreewpcSched

namespace Binary64

/-! ## Sums of costs -/

theorem key?_isSome_of_ge {x y : Binary64} (h : x.ge y = true) : x.key?.isSome := by
  obtain ⟨a, b, ha, -, -⟩ := ge_iff_key.1 h
  rw [ha]; rfl

/-- A double at or above `0.0` and at or below a finite one is finite, with its
value between. -/
theorem le_finite_cases {x : Binary64} {s : Bool} {m : Nat} {e : Int}
    (h : (finite s m e).ge x = true) (hx : x.ge zero = true) :
    ∃ s' m' e', x = finite s' m' e' ∧ 0 ≤ finiteVal s' m' e' ∧
      finiteVal s' m' e' ≤ finiteVal s m e := by
  obtain ⟨a, b, ha, hb, hba⟩ := ge_iff_key.1 h
  rw [key?_finite, Option.some.injEq] at ha
  subst ha
  rcases ge_zero_cases hx with ⟨s', m', e', rfl, h0⟩ | rfl
  · rw [key?_finite, Option.some.injEq] at hb
    subst hb
    exact ⟨s', m', e', rfl, h0, by exact_mod_cast hba⟩
  · rw [key?_infinity_false, Option.some.injEq] at hb
    subst hb
    exact absurd hba (not_le.2 (WithBot.coe_lt_coe.2 (WithTop.coe_lt_top _)))

/-- `2^k` as a double. -/
def pow2 (k : Nat) : Binary64 := finite false (2 ^ 52) ((k : Int) - 52)

theorem pow2_canonical {k : Nat} (hk : k ≤ 8) : (pow2 k).canonical = true := by
  simp only [pow2, canonical, binary64, decide_eq_true_eq]
  exact ⟨by norm_num, by omega, by omega, .inl le_rfl⟩

theorem finiteVal_pow2 (k : Nat) : finiteVal false (2 ^ 52) ((k : Int) - 52) = 2 ^ k := by
  rw [finiteVal_false, Nat.cast_pow, Nat.cast_ofNat, ← zpow_natCast, ← zpow_add₀ two_ne_zero,
    ← zpow_natCast]
  congr 1; ring

theorem ofNat_one_eq : ofNat 1 = pow2 0 := by decide

theorem ofNat_sentinel : ofNat 99999 = finite false (99999 * 2 ^ 36) (-36) := by decide

theorem sentinel_ok : (ofNat 99999).canonical = true ∧ (ofNat 99999).ge zero = true := by decide

/-- The total `-1.0` of a divider's last candidate is below `0.0` and below the
sentinel. -/
theorem minusOne_lt : (zero.add (ofNat 1).neg).lt zero = true ∧
    (zero.add (ofNat 1).neg).lt (ofNat 99999) = true := by decide

theorem pow2_lt_sentinel {k : Nat} (hk : k ≤ 8) : (pow2 k).lt (ofNat 99999) = true := by
  rw [ofNat_sentinel]
  refine lt_iff_key.2 ⟨_, _, rfl, rfl, ?_⟩
  rw [WithBot.coe_lt_coe, WithTop.coe_lt_coe, finiteVal_pow2]
  calc (2 : ℚ) ^ k ≤ 2 ^ 8 := pow_le_pow_right₀ (by norm_num) hk
    _ < finiteVal false (99999 * 2 ^ 36) (-36) := by norm_num [finiteVal]

theorem foldl_add_canonical :
    ∀ (l : List Binary64) {acc : Binary64}, acc.canonical = true → (l.foldl add acc).canonical = true
  | [], _, h => h
  | c :: l, acc, _ => foldl_add_canonical l (add_canonical acc c)

theorem foldl_add_ge_zero : ∀ (l : List Binary64) {acc : Binary64}, acc.ge zero = true →
    (∀ c ∈ l, c.ge zero = true) → (l.foldl add acc).ge zero = true
  | [], _, h, _ => h
  | c :: l, _, h, hl => foldl_add_ge_zero l (add_ge_zero h (hl c (List.mem_cons_self _ _)))
      fun c' h' => hl c' (List.mem_cons_of_mem _ h')

/-- A running sum of canonical doubles at least `0.0` ends at or above each
term. -/
theorem foldl_add_ge_mem : ∀ (l : List Binary64) {acc : Binary64}, acc.canonical = true →
    acc.ge zero = true → (∀ c ∈ l, c.canonical = true ∧ c.ge zero = true) →
    ∀ c ∈ acc :: l, (l.foldl add acc).ge c = true
  | [], _, _, h0, _, c, hc => by
    rw [List.mem_singleton.1 hc]; exact ge_refl' (key?_isSome_of_ge h0)
  | c' :: l, acc, hac, h0, hl, c, hc => by
    have hc' := hl c' (List.mem_cons_self _ _)
    have ih := foldl_add_ge_mem l (add_canonical acc c') (add_ge_zero h0 hc'.2)
      fun c'' h => hl c'' (List.mem_cons_of_mem _ h)
    have hnew := ih _ (List.mem_cons_self _ _)
    rcases List.mem_cons.1 hc with rfl | hc
    · exact ge_trans' hnew (add_ge_left hac h0 hc'.2)
    · rcases List.mem_cons.1 hc with rfl | hc
      · exact ge_trans' hnew (add_ge_right hc'.1 h0 hc'.2)
      · exact ih c (List.mem_cons_of_mem _ hc)

/-- A running sum from at most `2^j` of terms in `[0, 1]` is at most `2^j` times
two to the number of terms. -/
theorem foldl_add_le_pow2 : ∀ (l : List Binary64) (acc : Binary64) (j : Nat), j + l.length ≤ 8 →
    acc.ge zero = true → (pow2 j).ge acc = true →
    (∀ c ∈ l, c.ge zero = true ∧ (pow2 0).ge c = true) →
    (pow2 (j + l.length)).ge (l.foldl add acc) = true
  | [], _, _, _, _, h, _ => h
  | c :: l, acc, j, hj, h0, hle, hl => by
    have hc := hl c (List.mem_cons_self _ _)
    rw [List.length_cons] at hj
    rw [List.foldl_cons, List.length_cons, ← Nat.add_assoc, Nat.add_right_comm]
    refine foldl_add_le_pow2 l _ (j + 1) (by omega) (add_ge_zero h0 hc.1) ?_
      fun c' h' => hl c' (List.mem_cons_of_mem _ h')
    obtain ⟨s₁, m₁, e₁, rfl, h₁, h₁'⟩ := le_finite_cases hle h0
    obtain ⟨s₂, m₂, e₂, rfl, h₂, h₂'⟩ := le_finite_cases hc.2 hc.1
    refine add_le h₁ h₂ (pow2_canonical (by omega)) ?_
    rw [finiteVal_pow2] at h₁' h₂' ⊢
    have : (1 : ℚ) ≤ 2 ^ j := one_le_pow₀ (by norm_num)
    rw [pow_zero] at h₂'
    rw [pow_succ]; linarith

end Binary64

open Binary64

/-! ## The scan -/

/-- What the scan leaves after the candidates below `n`, from the pair
`best₀`: no candidate is below the best value, and the best is the start, or a
candidate below the start's value, with that value, strictly below every
earlier candidate. -/
def ScanBest (cost : Nat → Binary64) (best₀ : Nat × Binary64) (n : Nat) (r : Nat × Binary64) :
    Prop :=
  (∀ j < n, (cost j).lt r.2 = false) ∧
    (r = best₀ ∨ r.1 < n ∧ r.2 = cost r.1 ∧ (cost r.1).lt best₀.2 = true ∧
      ∀ j < r.1, (cost r.1).ge (cost j) = false)

/-- The answer of a scan over the candidates below `n` from candidate 0 at value
`sentinel`: candidate 0 when no candidate costs less than `sentinel`, and
otherwise one that costs less, that no candidate undercuts, and that is
strictly below every earlier one. -/
def FirstBest (cost : Nat → Binary64) (sentinel : Binary64) (n b : Nat) : Prop :=
  (b = 0 ∧ ∀ j < n, (cost j).lt sentinel = false) ∨
    (b < n ∧ (cost b).lt sentinel = true ∧ (∀ j < n, (cost j).lt (cost b) = false) ∧
      ∀ j < b, (cost b).ge (cost j) = false)

theorem ScanBest.zero (cost : Nat → Binary64) (best₀ : Nat × Binary64) :
    ScanBest cost best₀ 0 best₀ :=
  ⟨fun _ h => absurd h (Nat.not_lt_zero _), .inl rfl⟩

/-- One candidate more: it replaces the best exactly when its total is below the
best value. -/
theorem ScanBest.step {cost : Nat → Binary64} {best₀ r : Nat × Binary64} {n : Nat}
    (h : ScanBest cost best₀ n r) :
    ScanBest cost best₀ (n + 1) (if (cost n).lt r.2 then (n, cost n) else r) := by
  obtain ⟨hlow, hr⟩ := h
  by_cases hn : (cost n).lt r.2 = true
  · rw [if_pos hn]
    refine ⟨fun j hj => ?_, .inr ⟨Nat.lt_succ_self n, rfl, ?_, fun j hj => ?_⟩⟩
    · rcases Nat.lt_succ_iff_lt_or_eq.1 hj with hj | rfl
      · refine Bool.eq_false_iff.2 fun h => ?_
        have := lt_trans' h hn
        rw [hlow j hj] at this; cases this
      · exact lt_irrefl' _
    · rcases hr with rfl | ⟨-, hr2, hlt, -⟩
      · exact hn
      · exact lt_trans' hn (hr2 ▸ hlt)
    · refine Bool.eq_false_iff.2 fun h => ?_
      have := lt_of_ge_of_lt' h hn
      rw [hlow j hj] at this; cases this
  · rw [if_neg hn]
    refine ⟨fun j hj => ?_, hr.imp_right fun h => ⟨Nat.lt_succ_of_lt h.1, h.2⟩⟩
    rcases Nat.lt_succ_iff_lt_or_eq.1 hj with hj | rfl
    · exact hlow j hj
    · exact Bool.eq_false_iff.2 hn

theorem scanBest_foldl (cost : Nat → Binary64) (best₀ : Nat × Binary64) : ∀ n,
    ScanBest cost best₀ n ((List.range n).foldl
      (fun best x => if (cost x).lt best.2 then (x, cost x) else best) best₀)
  | 0 => ScanBest.zero cost best₀
  | n + 1 => by
    rw [List.range_succ, List.foldl_append]
    exact (scanBest_foldl cost best₀ n).step

theorem ScanBest.firstBest {cost : Nat → Binary64} {sentinel : Binary64} {n : Nat}
    {r : Nat × Binary64} (h : ScanBest cost (0, sentinel) n r) : FirstBest cost sentinel n r.1 := by
  obtain ⟨hlow, rfl | ⟨hlt, hv, hs, hearly⟩⟩ := h
  · exact .inl ⟨rfl, hlow⟩
  · exact .inr ⟨hlt, hs, fun j hj => hv ▸ hlow j hj, hearly⟩

/-- `find_best_tick` answers the first candidate of least total when some total
is below `99999.0`, and candidate 0 when none is. -/
theorem findBestTick_spec {s : Sched} {period count base : Nat} {len : Binary64}
    (h : findBestTick s period count len = .ok base) :
    FirstBest (candidateCost s period count (s.nTicks / count) len) (.ofNat 99999)
      (s.nTicks / count) base := by
  simp only [findBestTick, except_bind_ok, udiv_ok, except_pure_ok] at h
  obtain ⟨cands, ⟨-, rfl⟩, rfl⟩ := h
  exact (scanBest_foldl _ _ _).firstBest

/-! ## The sentinel -/

set_option maxRecDepth 20000 in
/-- Three tasks of length `0.6` and periods 2, 4 and 8 leave ticks 0, 1, 2, 3,
4, 5 and 6 with `0.6` each, and the first three with no room for another
`0.6`. A task of period 4 and that length then scores candidates 0, 1 and 2 at
`99999.0 + 99999.0` and candidate 3, the pair of ticks 3 and 7, at
`99999.0 + 0.0`: no total is below the sentinel, so `find_best_tick` answers
0 though candidate 3's total is below every other, and the task is placed on
ticks 0 and 4. -/
theorem findBestTick_overloaded :
    (parseSchedule .default initSchedule "aa 2 0.6\nbb 4 0.6\ncc 8 0.6\n".toList).map (fun s =>
        (findBestTick s 4 2 (s.task 0).len, (List.range 4).map fun j =>
          (candidateCost s 4 2 4 (s.task 0).len 3).lt (candidateCost s 4 2 4 (s.task 0).len j))) =
      .ok (.ok 0, [true, true, true, false]) ∧
    (parseSchedule .default initSchedule "aa 2 0.6\nbb 4 0.6\ncc 8 0.6\ndd 4 0.6\n".toList).map
      (fun s => (List.range 8).filter fun i => (s.ticks i).slots.any (·.task == 3)) =
      .ok [0, 4] := by
  decide

/-! ## Costs on a table of non-negative lengths -/

/-- Every tick's length is a canonical double at least `0.0`. -/
def LensOk (s : Sched) : Prop :=
  ∀ i, (s.ticks i).len.canonical = true ∧ (s.ticks i).len.ge .zero = true

theorem Sched.task_mem {s : Sched} {t : Nat} (ht : t < s.tasks.length) : s.task t ∈ s.tasks := by
  simp only [Sched.task, List.getD_eq_getElem?_getD, List.getElem?_eq_getElem ht,
    Option.getD_some]
  exact List.getElem_mem ht

/-- When every task's length is at least `0.0`, so is every tick's, a sum of
shares `len / divider`. -/
theorem Inv.lensOk {s : Sched} (hs : Inv s) (hlens : ∀ T ∈ s.tasks, T.len.ge .zero = true) :
    LensOk s := fun i => by
  rw [hs.tick_len i, tickLen, ← List.foldl_map]
  refine ⟨foldl_add_canonical _ zero_canonical, foldl_add_ge_zero _ (by decide) fun c hc => ?_⟩
  obtain ⟨sl, hsl, rfl⟩ := List.mem_map.1 hc
  exact divNat_ge_zero (hlens _ (Sched.task_mem (hs.slot_task i sl hsl)))
    (Nat.pos_of_isPowerOfTwo (hs.slot_divider sl hsl).1)

/-- A bucket cost other than a divider's `-1.0` is canonical and at least
`0.0`. -/
theorem bucketCost_ok {s : Sched} {period cands tickno : Nat} {len cl : Binary64}
    (hcl : cl.canonical = true ∧ cl.ge .zero = true)
    (h : (cl.add len).ge (.ofNat 1) = true ∨ ¬ (s.nTicks < period ∧ tickno = cands - 1)) :
    (bucketCost s period cands tickno len cl).canonical = true ∧
      (bucketCost s period cands tickno len cl).ge .zero = true := by
  unfold bucketCost
  split_ifs with hov hdl
  · exact sentinel_ok
  · exact absurd hdl (h.resolve_left hov)
  · exact hcl

/-- A bucket with room for the task, other than a divider's last, costs its
length, which is below `1.0`. -/
theorem bucketCost_room {s : Sched} {period cands tickno : Nat} {len cl : Binary64}
    (hcl : cl.canonical = true ∧ cl.ge .zero = true) (hlen : len.ge .zero = true)
    (hroom : (cl.add len).ge (.ofNat 1) = false)
    (hnd : ¬ (s.nTicks < period ∧ tickno = cands - 1)) :
    (bucketCost s period cands tickno len cl).ge .zero = true ∧
      (pow2 0).ge (bucketCost s period cands tickno len cl) = true := by
  rw [bucketCost, if_neg (by rw [hroom]; decide), if_neg hnd]
  have hlt : (cl.add len).lt (pow2 0) = true := by
    rw [← ofNat_one_eq]
    exact lt_of_ge_eq_false (key?_isSome_of_ge (add_ge_zero hcl.2 hlen)) rfl hroom
  exact ⟨hcl.2, ge_of_lt' (lt_of_ge_of_lt' (add_ge_left hcl.1 hcl.2 hlen) hlt)⟩

theorem candidateCost_eq (s : Sched) (period count cands : Nat) (len : Binary64) (tickno : Nat) :
    candidateCost s period count cands len tickno =
      ((List.range count).map fun k =>
        bucketCost s period cands tickno len (s.ticks (tickno + cands * k)).len).foldl add .zero := by
  rw [List.foldl_map]; rfl

theorem candidateCost_one (s : Sched) (period cands : Nat) (len : Binary64) (tickno : Nat) :
    candidateCost s period 1 cands len tickno =
      Binary64.zero.add (bucketCost s period cands tickno len (s.ticks tickno).len) :=
  rfl

/-- A candidate with room in each of its buckets totals less than `99999.0`. -/
theorem candidateCost_lt_sentinel {s : Sched} {period count cands tickno : Nat} {len : Binary64}
    (hl : LensOk s) (hlen : len.ge .zero = true) (hcount : count ≤ 8)
    (hdiv : s.nTicks < period → count = 1)
    (hroom : ∀ k < count, ((s.ticks (tickno + cands * k)).len.add len).ge (.ofNat 1) = false) :
    (candidateCost s period count cands len tickno).lt (.ofNat 99999) = true := by
  by_cases hnd : s.nTicks < period ∧ tickno = cands - 1
  · -- a divider's last candidate: `-1.0`
    obtain rfl := hdiv hnd.1
    have h0 := hroom 0 Nat.one_pos
    rw [Nat.mul_zero, Nat.add_zero] at h0
    rw [candidateCost_one, bucketCost, if_neg (by rw [h0]; decide), if_pos hnd]
    exact minusOne_lt.2
  · -- otherwise each bucket adds less than `1.0`
    have h := foldl_add_le_pow2 ((List.range count).map fun k =>
        bucketCost s period cands tickno len (s.ticks (tickno + cands * k)).len) .zero 0
      (by simpa using hcount) (by decide) (by decide) fun c hc => by
        obtain ⟨k, hk, rfl⟩ := List.mem_map.1 hc
        exact bucketCost_room (hl _) hlen (hroom k (List.mem_range.1 hk)) hnd
    rw [List.length_map, List.length_range, Nat.zero_add] at h
    rw [candidateCost_eq]
    exact lt_of_ge_of_lt' h (pow2_lt_sentinel hcount)

/-- A candidate with a bucket that has no room totals at least `99999.0`. -/
theorem candidateCost_ge_sentinel {s : Sched} {period count cands tickno : Nat} {len : Binary64}
    (hl : LensOk s) (hdiv : s.nTicks < period → count = 1)
    (hfull : ∃ k < count, ((s.ticks (tickno + cands * k)).len.add len).ge (.ofNat 1) = true) :
    (candidateCost s period count cands len tickno).ge (.ofNat 99999) = true := by
  obtain ⟨k₀, hk₀, hov⟩ := hfull
  rw [candidateCost_eq]
  refine foldl_add_ge_mem _ zero_canonical (by decide) (fun c hc => ?_) _
    (List.mem_cons_of_mem _ (List.mem_map.2 ⟨k₀, List.mem_range.2 hk₀, by
      rw [bucketCost, if_pos hov]⟩))
  obtain ⟨k, hk, rfl⟩ := List.mem_map.1 hc
  refine bucketCost_ok (hl _) ?_
  by_cases hdl : s.nTicks < period ∧ tickno = cands - 1
  · -- a divider's task has one bucket, the one without room
    have : k = k₀ := by have := hdiv hdl.1; rw [List.mem_range] at hk; omega
    exact .inl (this ▸ hov)
  · exact .inr hdl

/-! ## What `find_best_tick` picks -/

/-- When some candidate has room in all its buckets, `find_best_tick` picks one
that has. -/
theorem findBestTick_room {s : Sched} {period count base : Nat} {len : Binary64}
    (hl : LensOk s) (hlen : len.ge .zero = true) (hcount : count ≤ 8)
    (hdiv : s.nTicks < period → count = 1) (h : findBestTick s period count len = .ok base)
    (hf : ∃ f < s.nTicks / count, ∀ k < count,
      ((s.ticks (f + s.nTicks / count * k)).len.add len).ge (.ofNat 1) = false) :
    ∀ k < count, ((s.ticks (base + s.nTicks / count * k)).len.add len).ge (.ofNat 1) = false := by
  obtain ⟨f, hf, hroom⟩ := hf
  have hft := candidateCost_lt_sentinel hl hlen hcount hdiv hroom
  rcases findBestTick_spec h with ⟨-, hnone⟩ | ⟨-, -, hmin, -⟩
  · rw [hnone f hf] at hft; cases hft
  · intro k hk
    refine Bool.eq_false_iff.2 fun hov => ?_
    have := lt_of_lt_of_ge' hft (candidateCost_ge_sentinel hl hdiv ⟨k, hk, hov⟩)
    rw [hmin f hf] at this; cases this

/-- The count/divider branch leaves every tick's length as it was: it only
unrolls an empty table. -/
theorem slotPlan_len {o : Options} {s s₁ : Sched} {period count divider : Nat} (hs : Inv s)
    (h₁ : slotPlan o s period = .ok (s₁, count, divider)) (hc : count ≠ 0) (i : Nat) :
    (s₁.ticks i).len = (s.ticks i).len := by
  rcases slotPlan_ok h₁ with ⟨hlt, -, rfl, rfl, -⟩ | ⟨-, -, -, -, -, -, rfl⟩ | ⟨-, -, rfl, -, -⟩
  · have hle : period ≤ 8 := by
      by_contra h; exact hc (Nat.div_eq_of_lt (by omega))
    have h0 : s.nTicks = 0 := (hs.nTicks_eq.resolve_left (by omega)).1
    simp only [expandTicks]
    split
    · rw [hs.tick_len i, hs.idle i (by omega)]; rfl
    · rfl
  · rfl
  · rfl

theorem slotCount_le (period : Nat) : slotCount period 8 ≤ 8 := by
  unfold slotCount; have := Nat.div_le_self 8 period; omega

/-- The buckets `find_best_tick` scores for candidate `b`,
`b + (n_ticks / count) * k` for `k < count`, are the ticks the placement loop
fills from `b`. -/
theorem scored_eq_strides {period b : Nat} (hpow : period.isPowerOfTwo)
    (hb : b < 8 / slotCount period 8) :
    (List.range (slotCount period 8)).map (fun k => b + 8 / slotCount period 8 * k) =
      strides period 8 (slotCount period 8) b := by
  rcases Nat.lt_or_ge 8 period with hgt | hle
  · rw [slotCount_of_gt hgt]; rfl
  · have hp := Nat.pos_of_isPowerOfTwo hpow
    have hdvd := isPowerOfTwo_dvd_of_le hpow ⟨3, rfl⟩ hle
    rw [slotCount_of_le hp hle, Nat.div_div_self hdvd (by omega)] at hb ⊢
    rw [strides_eq_map (by rw [Nat.div_mul_cancel hdvd]; omega)]
    congr 1; funext k; rw [Nat.mul_comm]

theorem lt_cands {period b : Nat} (hpow : period.isPowerOfTwo) (hb : b < min period 8) :
    b < 8 / slotCount period 8 := by
  rcases Nat.lt_or_ge 8 period with hgt | hle
  · rw [slotCount_of_gt hgt]; omega
  · have hp := Nat.pos_of_isPowerOfTwo hpow
    rw [slotCount_of_le hp hle, Nat.div_div_self (isPowerOfTwo_dvd_of_le hpow ⟨3, rfl⟩ hle)
      (by omega)]
    omega

/-- On the 8-tick table, when some start `f` leaves room in every tick `i` with
`i % period = f`, every tick the loop fills from `find_best_tick`'s answer has
room. -/
theorem findBestTick_room_strides {s : Sched} {period base : Nat} {len : Binary64}
    (hl : LensOk s) (hlen : len.ge .zero = true) (h8 : s.nTicks = 8)
    (hpow : period.isPowerOfTwo) (h : findBestTick s period (slotCount period 8) len = .ok base)
    (hf : ∃ f < min period 8, ∀ i < 8, i % period = f →
      ((s.ticks i).len.add len).ge (.ofNat 1) = false) :
    ∀ i ∈ strides period 8 (slotCount period 8) base,
      ((s.ticks i).len.add len).ge (.ofNat 1) = false := by
  obtain ⟨f, hf, hfroom⟩ := hf
  have hb := findBestTick_lt h (by rw [h8]; exact slotCount_le period)
  have hroom := findBestTick_room hl hlen (slotCount_le period)
    (fun h' => by rw [h8] at h'; exact slotCount_of_gt h') h
    ⟨f, by rw [h8]; exact lt_cands hpow hf, fun k hk => by
      rw [h8]
      obtain ⟨hi8, hmod⟩ := (mem_strides (strideShape_of_lt hpow hf)).1 (by
        rw [← scored_eq_strides hpow (lt_cands hpow hf)]
        exact List.mem_map.2 ⟨k, List.mem_range.2 hk, rfl⟩)
      exact hfroom _ hi8 hmod⟩
  rw [h8] at hb hroom
  intro i hi
  rw [← scored_eq_strides hpow hb] at hi
  obtain ⟨k, hk, rfl⟩ := List.mem_map.1 hi
  exact hroom k (List.mem_range.1 hk)

end FreewpcSched
