import FreewpcSched.Code.Emit
import Mathlib.Algebra.Group.Nat.Even
import Mathlib.Data.List.Basic
import Mathlib.Tactic.IntervalCases

/-!
# Powers of two

Every period the scheduler accepts passes `period & (period - 1)`, every
divider is a quotient of two such periods, and the generated code tests a
divider with `divider & (d - 1)`. The two bit tricks are proved once here:
`n & (n - 1)` vanishes exactly on `0` and the powers of two, and
`v & (d - 1)` vanishes exactly when `d` divides `v`. The rest is the
divisibility of powers of two that the stride arithmetic rests on, and the
shape of the divider loop: ascending powers of two, each dividing the next.
-/

namespace FreewpcSched

open Nat

theorem land_pred_eq_zero_iff (n : Nat) : n &&& (n - 1) = 0 ↔ n = 0 ∨ n.isPowerOfTwo := by
  constructor
  · intro h
    induction n using Nat.strong_induction_on with
    | _ n ih =>
      rcases Nat.lt_or_ge n 2 with hn | hn
      · interval_cases n
        · exact .inl rfl
        · exact .inr ⟨0, rfl⟩
      · have hdiv : n / 2 &&& (n - 1) / 2 = 0 := by rw [← Nat.and_div_two, h]
        rcases Nat.even_or_odd' n with ⟨m, rfl | rfl⟩
        · have hm : (2 * m - 1) / 2 = m - 1 := by omega
          rw [show 2 * m / 2 = m by omega, hm] at hdiv
          rcases ih m (by omega) hdiv with h0 | ⟨k, rfl⟩
          · omega
          · exact .inr ⟨k + 1, by rw [Nat.pow_succ, Nat.mul_comm]⟩
        · rw [show (2 * m + 1) / 2 = m by omega, show (2 * m + 1 - 1) / 2 = m by omega,
            Nat.and_self] at hdiv
          omega
  · rintro (rfl | ⟨k, rfl⟩)
    · rfl
    · rw [Nat.and_pow_two_sub_one_eq_mod, Nat.mod_self]

/-- The guard of a divider block: `v & (d - 1)` vanishes exactly when `d`
divides `v`. -/
theorem land_pred_eq_zero_iff_dvd {d : Nat} (v : Nat) (hd : d.isPowerOfTwo) :
    v &&& (d - 1) = 0 ↔ d ∣ v := by
  obtain ⟨k, rfl⟩ := hd
  rw [Nat.and_pow_two_sub_one_eq_mod, Nat.dvd_iff_mod_eq_zero]

theorem isPowerOfTwo_dvd_of_le {a b : Nat} (ha : a.isPowerOfTwo) (hb : b.isPowerOfTwo)
    (hab : a ≤ b) : a ∣ b := by
  obtain ⟨i, rfl⟩ := ha
  obtain ⟨j, rfl⟩ := hb
  exact Nat.pow_dvd_pow 2 ((Nat.pow_le_pow_iff_right (by omega)).1 hab)

theorem isPowerOfTwo_div {a b : Nat} (ha : a.isPowerOfTwo) (hb : b.isPowerOfTwo)
    (hab : b ≤ a) : (a / b).isPowerOfTwo := by
  obtain ⟨i, rfl⟩ := ha
  obtain ⟨j, rfl⟩ := hb
  have hji : j ≤ i := (Nat.pow_le_pow_iff_right (by omega)).1 hab
  exact ⟨i - j, by rw [Nat.pow_div hji (by omega)]⟩

/-- The divider loop visits the powers of two up to `max_divider`. -/
theorem mem_dividerLoop {m d : Nat} :
    d ∈ dividerLoop m ↔ (∃ j < 32, d = 2 ^ j) ∧ d ≤ m := by
  simp only [dividerLoop, List.mem_filter, List.mem_map, List.mem_range, decide_eq_true_eq]
  constructor
  · rintro ⟨⟨j, hj, rfl⟩, hle⟩
    exact ⟨⟨j, hj, rfl⟩, hle⟩
  · rintro ⟨⟨j, hj, rfl⟩, hle⟩
    exact ⟨⟨j, hj, rfl⟩, hle⟩

/-- Each divider the loop visits divides every later one. -/
theorem dividerLoop_pairwise (m : Nat) : (dividerLoop m).Pairwise (· ∣ ·) :=
  ((List.pairwise_lt_range 32).imp fun h => Nat.pow_dvd_pow 2 (Nat.le_of_lt h))
    |> List.pairwise_map.2 |>.filter _

theorem dividerLoop_nodup (m : Nat) : (dividerLoop m).Nodup :=
  (((List.pairwise_lt_range 32).imp fun h => Nat.pow_lt_pow_right (by omega) h)
    |> List.pairwise_map.2 |>.filter _).imp (fun h => Nat.ne_of_lt h)

end FreewpcSched
