import FreewpcSched.Code.Binary64
import Mathlib.Algebra.Order.Field.Power
import Mathlib.Algebra.Order.Field.Rat
import Mathlib.Order.WithBot
import Mathlib.Tactic.Ring
import Mathlib.Tactic.Linarith
import Mathlib.Tactic.Positivity
import Mathlib.Tactic.GCongr
import Mathlib.Tactic.LiftLets

/-!
# The order and the rounding of `double`

`find_best_tick` compares its totals with `<` and tests each bucket with
`>=`; both go through `compare?`, which lines the two significands up on
their common unit. That is the order of the numbers the doubles stand for:
`key?` places a double on the rationals closed by two infinities, a NaN
nowhere, and `<` and `>=` are that order (`lt_iff_key`, `ge_iff_key`), so
they are transitive and `<` is irreflexive.

A sum is rounded once to the nearest double. All the scheduler needs of that
is where the result can land: never below a double that is at most the exact
sum, never above one that is at least it (`le_round`, `round_le`). The
rounding keeps the significand `n >>> s` of the exact value on the unit
`2^u` it picks, and adds one unit at most; a double below the exact value is
either on that grid, or in a lower binade and so below the truncated value.
Every result is canonical, the form all the bounds ask of the double they
compare with (`roundPair_one_spec`). The unit goes up exactly when the
exact value is past the midpoint of the two grid points, or on it with the
lower one odd (`RoundsUp`, `roundPair_one_near`).
-/

namespace FreewpcSched

namespace Binary64

/-! ## The order -/

/-- The number a finite `double` stands for. -/
def finiteVal (s : Bool) (m : Nat) (e : Int) : ℚ := (if s then -1 else 1) * m * 2 ^ e

/-- Where a `double` sits on the rationals closed by two infinities; a NaN
sits nowhere. -/
def key? : Binary64 → Option (WithBot (WithTop ℚ))
  | finite s m e => some ((finiteVal s m e : WithTop ℚ) : WithBot (WithTop ℚ))
  | infinity s => some (if s then ⊥ else ((⊤ : WithTop ℚ) : WithBot (WithTop ℚ)))
  | nan => none

/-- Two comparisons that agree on `<` and `=` agree. -/
theorem compare_eq_of_iff {α β : Type} [LinearOrder α] [LinearOrder β] {a b : α} {a' b' : β}
    (hlt : a < b ↔ a' < b') (heq : a = b ↔ a' = b') : compare a b = compare a' b' := by
  rcases lt_trichotomy a b with h | h | h
  · rw [compare_lt_iff_lt.2 h, compare_lt_iff_lt.2 (hlt.1 h)]
  · rw [compare_eq_iff_eq.2 h, compare_eq_iff_eq.2 (heq.1 h)]
  · have hgt : b' < a' := lt_of_le_of_ne (not_lt.1 fun h' => lt_asymm h (hlt.2 h'))
      fun h' => (ne_of_gt h) (heq.2 h'.symm)
    rw [compare_gt_iff_gt.2 h, compare_gt_iff_gt.2 hgt]

/-- A significand moved onto a lower unit keeps its value. -/
theorem shifted_val (s : Bool) (m : Nat) {e e₁ : Int} (h : e ≤ e₁) :
    (Int.cast (if s then -((m <<< (e₁ - e).toNat : Nat) : Int)
      else ((m <<< (e₁ - e).toNat : Nat) : Int)) : ℚ) * 2 ^ e = finiteVal s m e₁ := by
  have hsplit : (2 : ℚ) ^ e₁ = 2 ^ ((e₁ - e).toNat : ℤ) * 2 ^ e := by
    rw [← zpow_add₀ two_ne_zero]; congr 1; omega
  rw [finiteVal, hsplit, zpow_natCast, Nat.shiftLeft_eq]
  cases s <;> simp <;> ring

/-- Scaling by a positive factor keeps a comparison of integers. -/
theorem compare_mul_right (a b : Int) {c : ℚ} (hc : 0 < c) :
    compare a b = compare ((a : ℚ) * c) ((b : ℚ) * c) :=
  compare_eq_of_iff (by rw [mul_lt_mul_right hc, Int.cast_lt])
    (by rw [mul_left_inj' hc.ne']; exact ⟨fun h => by rw [h], fun h => by exact_mod_cast h⟩)

/-- `compare?` on two finite doubles is the order of their values. -/
theorem compare?_finite (s₁ : Bool) (m₁ : Nat) (e₁ : Int) (s₂ : Bool) (m₂ : Nat) (e₂ : Int) :
    compare? (finite s₁ m₁ e₁) (finite s₂ m₂ e₂) =
      some (compare (finiteVal s₁ m₁ e₁) (finiteVal s₂ m₂ e₂)) := by
  simp only [compare?, align]
  rw [compare_mul_right _ _ (zpow_pos (by norm_num : (0 : ℚ) < 2) (min e₁ e₂)),
    shifted_val s₁ m₁ (min_le_left e₁ e₂), shifted_val s₂ m₂ (min_le_right e₁ e₂)]

/-- `compare?` is the order of the keys, and `none` on a NaN. -/
theorem compare?_eq_key (x y : Binary64) :
    compare? x y = match x.key?, y.key? with
      | some a, some b => some (compare a b)
      | _, _ => none := by
  have htop : ∀ v : ℚ, ((v : WithTop ℚ) : WithBot (WithTop ℚ)) < ((⊤ : WithTop ℚ) : WithBot _) :=
    fun v => WithBot.coe_lt_coe.2 (WithTop.coe_lt_top v)
  cases x with
  | finite s₁ m₁ e₁ =>
    cases y with
    | finite s₂ m₂ e₂ =>
      rw [compare?_finite]
      exact congrArg some (compare_eq_of_iff (by simp [key?]) (by simp [key?]))
    | infinity t =>
      cases t
      · exact congrArg some (compare_lt_iff_lt.2 (htop _)).symm
      · exact congrArg some (compare_gt_iff_gt.2 (WithBot.bot_lt_coe _)).symm
    | nan => rfl
  | infinity s =>
    cases y with
    | finite s₂ m₂ e₂ =>
      cases s
      · exact congrArg some (compare_gt_iff_gt.2 (htop _)).symm
      · exact congrArg some (compare_lt_iff_lt.2 (WithBot.bot_lt_coe _)).symm
    | infinity t =>
      cases s <;> cases t
      · exact congrArg some (compare_eq_iff_eq.2 rfl).symm
      · exact congrArg some (compare_gt_iff_gt.2 (WithBot.bot_lt_coe _)).symm
      · exact congrArg some (compare_lt_iff_lt.2 (WithBot.bot_lt_coe _)).symm
      · exact congrArg some (compare_eq_iff_eq.2 rfl).symm
    | nan => rfl
  | nan => cases y <;> rfl

theorem beq_lt_iff (o : Ordering) : (o == .lt) = true ↔ o = .lt := by cases o <;> decide

theorem beq_gt_or_eq_iff (o : Option Ordering) :
    (o == some .gt || o == some .eq) = true ↔ o = some .gt ∨ o = some .eq := by
  rcases o with _ | _ | _ | _ <;> decide

/-- C's `x < y` is the order of the keys. -/
theorem lt_iff_key {x y : Binary64} :
    x.lt y = true ↔ ∃ a b, x.key? = some a ∧ y.key? = some b ∧ a < b := by
  rw [lt, compare?_eq_key]
  cases x.key? <;> cases y.key? <;> simp [beq_lt_iff, compare_lt_iff_lt]

/-- C's `x >= y` is the order of the keys. -/
theorem ge_iff_key {x y : Binary64} :
    x.ge y = true ↔ ∃ a b, x.key? = some a ∧ y.key? = some b ∧ b ≤ a := by
  rw [ge, beq_gt_or_eq_iff, compare?_eq_key]
  cases x.key? with
  | none => simp
  | some a =>
    cases y.key? with
    | none => simp
    | some b =>
      simp only [Option.some.injEq, compare_gt_iff_gt, compare_eq_iff_eq, exists_and_left,
        exists_eq_left', true_and]
      exact ⟨fun h => h.elim le_of_lt fun h => h ▸ le_rfl,
        fun h => (lt_or_eq_of_le h).imp id Eq.symm⟩

theorem lt_irrefl' (x : Binary64) : x.lt x = false := by
  rw [← Bool.not_eq_true, lt_iff_key]
  rintro ⟨a, b, ha, hb, hab⟩
  exact absurd hab (by rw [Option.some.inj (ha.symm.trans hb)]; exact lt_irrefl b)

theorem lt_trans' {x y z : Binary64} (h₁ : x.lt y = true) (h₂ : y.lt z = true) : x.lt z = true := by
  obtain ⟨a, b, ha, hb, hab⟩ := lt_iff_key.1 h₁
  obtain ⟨b', c, hb', hc, hbc⟩ := lt_iff_key.1 h₂
  rw [hb, Option.some.injEq] at hb'
  exact lt_iff_key.2 ⟨a, c, ha, hc, hab.trans (hb' ▸ hbc)⟩

theorem lt_of_ge_of_lt' {x y z : Binary64} (h₁ : y.ge x = true) (h₂ : y.lt z = true) :
    x.lt z = true := by
  obtain ⟨b, a, hb, ha, hab⟩ := ge_iff_key.1 h₁
  obtain ⟨b', c, hb', hc, hbc⟩ := lt_iff_key.1 h₂
  rw [hb, Option.some.injEq] at hb'
  exact lt_iff_key.2 ⟨a, c, ha, hc, lt_of_le_of_lt hab (hb' ▸ hbc)⟩

theorem lt_of_lt_of_ge' {x y z : Binary64} (h₁ : x.lt y = true) (h₂ : z.ge y = true) :
    x.lt z = true := by
  obtain ⟨a, b, ha, hb, hab⟩ := lt_iff_key.1 h₁
  obtain ⟨c, b', hc, hb', hbc⟩ := ge_iff_key.1 h₂
  rw [hb, Option.some.injEq] at hb'
  exact lt_iff_key.2 ⟨a, c, ha, hc, lt_of_lt_of_le hab (hb' ▸ hbc)⟩

theorem ge_trans' {x y z : Binary64} (h₁ : x.ge y = true) (h₂ : y.ge z = true) :
    x.ge z = true := by
  obtain ⟨a, b, ha, hb, hba⟩ := ge_iff_key.1 h₁
  obtain ⟨b', c, hb', hc, hcb⟩ := ge_iff_key.1 h₂
  rw [hb, Option.some.injEq] at hb'
  exact ge_iff_key.2 ⟨a, c, ha, hc, le_trans (hb' ▸ hcb) hba⟩

theorem ge_refl' {x : Binary64} (hx : x.key?.isSome) : x.ge x = true := by
  obtain ⟨a, ha⟩ := Option.isSome_iff_exists.1 hx
  exact ge_iff_key.2 ⟨a, a, ha, ha, le_rfl⟩

theorem ge_of_lt' {x y : Binary64} (h : x.lt y = true) : y.ge x = true := by
  obtain ⟨a, b, ha, hb, hab⟩ := lt_iff_key.1 h
  exact ge_iff_key.2 ⟨b, a, hb, ha, hab.le⟩

theorem ge_eq_false_of_lt {x y : Binary64} (h : x.lt y = true) : x.ge y = false := by
  obtain ⟨a, b, ha, hb, hab⟩ := lt_iff_key.1 h
  cases hge : x.ge y
  · rfl
  · obtain ⟨a', b', ha', hb', hba⟩ := ge_iff_key.1 hge
    rw [ha, Option.some.injEq] at ha'
    rw [hb, Option.some.injEq] at hb'
    exact absurd (ha' ▸ hb' ▸ hba) (not_le.2 hab)

/-- Away from NaNs, C's `x >= y` failing is `x < y`. -/
theorem lt_of_ge_eq_false {x y : Binary64} (hx : x.key?.isSome) (hy : y.key?.isSome)
    (h : x.ge y = false) : x.lt y = true := by
  obtain ⟨a, ha⟩ := Option.isSome_iff_exists.1 hx
  obtain ⟨b, hb⟩ := Option.isSome_iff_exists.1 hy
  refine lt_iff_key.2 ⟨a, b, ha, hb, lt_of_not_le fun hba => ?_⟩
  rw [ge_iff_key.2 ⟨a, b, ha, hb, hba⟩] at h
  cases h

/-! ## Bit lengths -/

theorem bitLen_zero : ∀ fuel, bitLen fuel 0 = 0
  | 0 => rfl
  | _ + 1 => rfl

/-- With enough fuel, `bitLen` counts the binary digits. -/
theorem bitLen_spec : ∀ fuel n, 0 < n → n ≤ fuel →
    2 ^ (bitLen fuel n - 1) ≤ n ∧ n < 2 ^ bitLen fuel n ∧ 1 ≤ bitLen fuel n
  | 0, _, hn, hf => absurd hf (by omega)
  | fuel + 1, n, hn, hf => by
    rw [bitLen, if_neg (by omega)]
    split
    · rcases Nat.lt_or_ge n 2 with h2 | h2
      · rw [show n / 2 = 0 by omega, bitLen_zero]; omega
      · obtain ⟨h₁, h₂, h₃⟩ := bitLen_spec fuel (n / 2) (by omega) (by omega)
        have hp : 2 ^ bitLen fuel (n / 2) = 2 * 2 ^ (bitLen fuel (n / 2) - 1) := by
          rw [← Nat.pow_succ']; congr 1; omega
        rw [Nat.add_sub_cancel, Nat.pow_succ]
        omega
    · rename_i h32
      rw [Nat.shiftRight_eq_div_pow] at h32 ⊢
      have hpos : 0 < n / 2 ^ 32 := Nat.pos_of_ne_zero h32
      obtain ⟨h₁, h₂, h₃⟩ := bitLen_spec fuel (n / 2 ^ 32) hpos
        (by have := Nat.div_lt_self hn (show 1 < 2 ^ 32 by decide); omega)
      refine ⟨?_, ?_, by omega⟩
      · rw [show bitLen fuel (n / 2 ^ 32) + 32 - 1 = bitLen fuel (n / 2 ^ 32) - 1 + 32 by omega,
          Nat.pow_add]
        exact (Nat.le_div_iff_mul_le (by positivity)).1 h₁
      · rw [Nat.pow_add]
        exact (Nat.div_lt_iff_lt_mul (by positivity)).1 h₂

/-! ## Rounding a natural number times a power of two

`roundPair num 1 e` works on `n = num * 2^57` on the unit `2^en`, `en = e - 57`:
the same value, with spare bits. It picks the unit `2^u` that leaves 53 bits,
or the least unit, keeps `T = n >>> s` of it, and adds one when the bits
below call for it. -/

/-- The exact value `V` between two consecutive multiples of `2^u`, `T` and
`T + 1` of them, with `T` a significand that has all its bits unless `u` is
the least unit. -/
structure Grid (V : ℚ) (T : Nat) (u : Int) : Prop where
  low : (T : ℚ) * 2 ^ u ≤ V
  high : V < ((T : ℚ) + 1) * 2 ^ u
  emin_le : binary64.emin ≤ u
  lt_two_pow : T < 2 ^ 53
  normal : binary64.emin < u → 2 ^ 52 ≤ T

/-- What the rounding makes of the grid point `T`: it keeps it or adds one
unit, the latter only when `V` is above `T`; a carry into the next binade
moves the unit up. -/
structure Carry (V : ℚ) (T : Nat) (u : Int) (m : Nat) (u' : Int) : Prop where
  lt_two_pow : m < 2 ^ 53
  emin_le : binary64.emin ≤ u'
  normal : binary64.emin < u' → 2 ^ 52 ≤ m
  val : (m : ℚ) * 2 ^ u' = T * 2 ^ u ∨ ((m : ℚ) * 2 ^ u' = (T + 1) * 2 ^ u ∧ (T : ℚ) * 2 ^ u < V)
  exp : u' = u ∨ (u' = u + 1 ∧ T + 1 = 2 ^ 53 ∧ m = 2 ^ 52)

/-- `2^b` split at `a`, for `b - a` a natural number. -/
theorem two_zpow_split {s : Nat} {a b : Int} (h : (s : Int) = b - a) :
    (2 : ℚ) ^ b = 2 ^ s * 2 ^ a := by
  rw [← zpow_natCast, ← zpow_add₀ two_ne_zero]; congr 1; omega

/-- Truncating `n`, of `B ≥ 53` bits, to the unit `2^s` with `B ≤ 53 + s` leaves
a significand below `2^53` that brackets `n`, with all its bits when
`s = B - 53`. -/
theorem div_two_pow_grid {n B s T : Nat} (hT : n / 2 ^ s = T) (hB₁ : 2 ^ (B - 1) ≤ n)
    (hB₂ : n < 2 ^ B) (hsB : B ≤ 53 + s) (hB : 53 ≤ B) :
    T < 2 ^ 53 ∧ T * 2 ^ s ≤ n ∧ n < (T + 1) * 2 ^ s ∧ (s = B - 53 → 2 ^ 52 ≤ T) := by
  subst hT
  have hpos : 0 < 2 ^ s := Nat.two_pow_pos s
  refine ⟨?_, Nat.div_mul_le_self n _, (Nat.div_lt_iff_lt_mul hpos).1 (Nat.lt_succ_self _),
    fun hs => ?_⟩
  · rw [Nat.div_lt_iff_lt_mul hpos, ← Nat.pow_add]
    exact lt_of_lt_of_le hB₂ (Nat.pow_le_pow_right (by omega) hsB)
  · rw [Nat.le_div_iff_mul_le hpos, ← Nat.pow_add, hs]
    exact le_trans (Nat.pow_le_pow_right (by omega) (by omega)) hB₁

/-- Rounding on the unit `2^s` keeps the truncated significand `T`, or adds one
when a bit below the unit is set. -/
theorem roundUp_cases {n s T r m : Nat} (hT : n / 2 ^ s = T) (hr : n % 2 ^ s = r)
    (hm : (if 2 ^ (s - 1) < r ∨ r = 2 ^ (s - 1) ∧ T % 2 = 1 then T + 1 else T) = m) :
    m = T ∨ (m = T + 1 ∧ T * 2 ^ s < n) := by
  split at hm
  · have : 1 ≤ 2 ^ (s - 1) := Nat.one_le_two_pow
    have := Nat.div_add_mod n (2 ^ s)
    rw [hT, hr] at this
    exact .inr ⟨hm.symm, by rw [Nat.mul_comm]; omega⟩
  · exact .inl hm.symm

/-- The bits below the grid point call for one more unit: the exact value is
past the midpoint of `T` and `T + 1`, or on it with `T` odd (ties to even). -/
def RoundsUp (V : ℚ) (T : Nat) (u : Int) : Prop :=
  ((T : ℚ) + 1 / 2) * 2 ^ u < V ∨ (V = ((T : ℚ) + 1 / 2) * 2 ^ u ∧ T % 2 = 1)

/-- The test `roundPair` makes on the bits `r` below the unit `2^s`, with
`half = 2^(s-1)`, is the test of `RoundsUp` on the exact value `n * 2^en`:
the midpoint of `T` and `T + 1` is `T * 2^s + half` units of `2^en`. -/
theorem roundsUp_iff {n s T r half m : Nat} {V : ℚ} {u en : Int} (hT : n / 2 ^ s = T)
    (hr : n % 2 ^ s = r) (hhalf : 2 ^ (s - 1) = half) (hV : V = n * 2 ^ en)
    (hsplit : (2 : ℚ) ^ u = 2 ^ s * 2 ^ en) (hs : 1 ≤ s)
    (hm : (if half < r ∨ r = half ∧ T % 2 = 1 then T + 1 else T) = m) :
    m = T + 1 ↔ RoundsUp V T u := by
  have hnT : n = T * 2 ^ s + r := by
    rw [← hT, ← hr, Nat.mul_comm]; exact (Nat.div_add_mod n (2 ^ s)).symm
  have hmid : ((T : ℚ) + 1 / 2) * 2 ^ u = ((T * 2 ^ s + half : Nat) : ℚ) * 2 ^ en := by
    rw [hsplit, ← hhalf]
    push_cast
    rw [show (2 : ℚ) ^ s = 2 ^ (s - 1) * 2 by rw [← pow_succ]; congr 1; omega]
    ring
  have hen_pos : (0 : ℚ) < 2 ^ en := zpow_pos (by norm_num) en
  have hcond : (half < r ∨ r = half ∧ T % 2 = 1) ↔ RoundsUp V T u := by
    rw [RoundsUp, hmid, hV, mul_lt_mul_right hen_pos, mul_left_inj' hen_pos.ne', Nat.cast_lt,
      Nat.cast_inj, hnT]
    generalize T * 2 ^ s = a
    omega
  rw [← hcond, ← hm]
  by_cases hC : half < r ∨ r = half ∧ T % 2 = 1
  · exact iff_of_true (if_pos hC) hC
  · exact iff_of_false (by rw [if_neg hC]; omega) hC

/-- The last step of `roundPair`: a significand carried out of 53 bits is
halved onto the next unit, which leaves the value and the test. -/
theorem carry_of_roundUp {V : ℚ} {T m : Nat} {u : Int} (hT53 : T < 2 ^ 53) (hemin : -1074 ≤ u)
    (hTnorm : -1074 < u → 2 ^ 52 ≤ T) (hm : m = T ∨ (m = T + 1 ∧ (T : ℚ) * 2 ^ u < V))
    (hupm : m = T + 1 ↔ RoundsUp V T u) {mu : Nat × Int}
    (hmu : (if m = 2 ^ 53 then (2 ^ (53 - 1), u + 1) else (m, u)) = mu) :
    Carry V T u mu.1 mu.2 ∧ ((mu.1 : ℚ) * 2 ^ mu.2 = (T + 1) * 2 ^ u ↔ RoundsUp V T u) := by
  by_cases hc : m = 2 ^ 53
  · rw [if_pos hc] at hmu
    subst hmu
    obtain ⟨hmT, hlt⟩ := hm.resolve_left (by omega)
    have hT1 : T + 1 = 2 ^ 53 := by omega
    have hval : ((2 ^ (53 - 1) : Nat) : ℚ) * 2 ^ (u + 1) = (T + 1) * 2 ^ u := by
      rw [zpow_add₀ two_ne_zero, zpow_one, show ((T : ℚ) + 1) = 2 ^ 53 by exact_mod_cast hT1]
      push_cast; ring
    exact ⟨⟨show 2 ^ (53 - 1) < 2 ^ 53 by decide, show (-1074 : ℤ) ≤ u + 1 by omega,
      fun _ => le_rfl, .inr ⟨hval, hlt⟩, .inr ⟨rfl, hT1, rfl⟩⟩, iff_of_true hval (hupm.1 hmT)⟩
  · rw [if_neg hc] at hmu
    subst hmu
    refine ⟨⟨by omega, hemin, fun h => le_trans (hTnorm h) (by omega), ?_, .inl rfl⟩, ?_⟩
    · rcases hm with rfl | ⟨rfl, hlt⟩
      · exact .inl rfl
      · exact .inr ⟨by push_cast; ring, hlt⟩
    · rw [← hupm, mul_left_inj' (zpow_ne_zero u two_ne_zero), ← Nat.cast_succ, Nat.cast_inj]

/-- `roundPair` on a natural number: the grid point below the exact value,
what the rounding makes of it, when it goes up, and the overflow test on the
final unit. -/
theorem roundPair_one_near {num : Nat} (hnum : 0 < num) (e : Int) :
    ∃ T u m u', Grid (num * 2 ^ e) T u ∧ Carry (num * 2 ^ e) T u m u' ∧
      ((m : ℚ) * 2 ^ u' = (T + 1) * 2 ^ u ↔ RoundsUp (num * 2 ^ e) T u) ∧
      binary64.roundPair num 1 e = if binary64.emax < u' then none else some (m, u') := by
  unfold Format.roundPair
  rw [if_neg hnum.ne']
  lift_lets
  intro k q n en u s r half T m mu
  have hk : k = 56 := rfl
  have hq : num <<< k / 1 = q := rfl
  have hn : 2 * q + (if num <<< k % 1 = 0 then 0 else 1) = n := rfl
  have hen : e - (k : Int) - 1 = en := rfl
  have hu : (en + ↑(bitLen n n) - ↑binary64.prec) ⊔ binary64.emin = u := rfl
  have hs : (u - en).toNat = s := rfl
  have hr : n % 1 <<< s = r := rfl
  have hhalf : 1 <<< (s - 1) = half := rfl
  have hT : n >>> s = T := rfl
  have hm : (if half < r ∨ r = half ∧ T % 2 = 1 then T + 1 else T) = m := rfl
  have hmu : (if m = 1 <<< binary64.prec then (1 <<< (binary64.prec - 1), u + 1) else (m, u)) = mu := rfl
  clear_value k q n en u s r half T m mu
  subst hk
  simp only [binary64] at hu hmu ⊢
  rw [Nat.div_one, Nat.shiftLeft_eq] at hq
  simp only [Nat.mod_one, if_true, Nat.add_zero] at hn
  rw [Nat.one_shiftLeft] at hr hhalf
  rw [Nat.shiftRight_eq_div_pow] at hT
  rw [Nat.one_shiftLeft, Nat.one_shiftLeft] at hmu
  have hn57 : n = num * 2 ^ 57 := by rw [← hn, ← hq, Nat.pow_succ]; ring
  have hV : (num : ℚ) * 2 ^ e = n * 2 ^ en := by
    rw [@two_zpow_split 57 en e (by omega), hn57]; push_cast; ring
  -- the bit length of `n` fixes the unit
  obtain ⟨hB₁, hB₂, -⟩ :=
    bitLen_spec n n (by rw [hn57]; exact Nat.mul_pos hnum (Nat.two_pow_pos 57)) le_rfl
  generalize hB : bitLen n n = B at hu hB₁ hB₂
  have hu₁ : en + B - 53 ≤ u := hu ▸ le_max_left _ _
  have hemin : -1074 ≤ u := hu ▸ le_max_right _ _
  have hunit : u = en + B - 53 ∨ u = -1074 := hu ▸ max_choice _ _
  clear hu hen
  have hB58 : 58 ≤ B := by
    have h57 : 2 ^ 57 < 2 ^ B :=
      lt_of_le_of_lt (by rw [hn57]; exact Nat.le_mul_of_pos_left _ hnum) hB₂
    have := (Nat.pow_lt_pow_iff_right (by omega)).1 h57
    omega
  -- the unit, once: `s` bits below it, all of them when it is above the least
  have hs' : (s : Int) = u - en := by rw [← hs, Int.toNat_of_nonneg (by omega)]
  clear hs
  obtain ⟨hBs, hs1, hnorm⟩ : B ≤ 53 + s ∧ 1 ≤ s ∧ (-1074 < u → s = B - 53) := by omega
  -- `T` is the truncated significand on that unit
  obtain ⟨hT53, hTs, hTs', hTnorm⟩ := div_two_pow_grid hT hB₁ hB₂ hBs (by omega)
  replace hTnorm : -1074 < u → 2 ^ 52 ≤ T := fun hu' => hTnorm (hnorm hu')
  -- the grid, in the rationals
  have hsplit : (2 : ℚ) ^ u = 2 ^ s * 2 ^ en := two_zpow_split hs'
  have hen_pos : (0 : ℚ) < 2 ^ en := zpow_pos (by norm_num) en
  have hgrid : Grid (num * 2 ^ e) T u := by
    refine ⟨?_, ?_, hemin, hT53, hTnorm⟩
    · rw [hV, hsplit, ← mul_assoc, mul_le_mul_right hen_pos]; exact_mod_cast hTs
    · rw [hV, hsplit, ← mul_assoc, mul_lt_mul_right hen_pos]; exact_mod_cast hTs'
  have hupm := roundsUp_iff hT hr hhalf hV hsplit hs1 hm
  -- rounding adds at most one unit, and only above the grid point
  rw [← hhalf] at hm
  have hm := roundUp_cases hT hr hm
  have hup : T * 2 ^ s < n → (T : ℚ) * 2 ^ u < num * 2 ^ e := fun hlt => by
    rw [hV, hsplit, ← mul_assoc, mul_lt_mul_right hen_pos]; exact_mod_cast hlt
  obtain ⟨hc, hiff⟩ := carry_of_roundUp hT53 hemin hTnorm
    (hm.imp_right fun h => ⟨h.1, hup h.2⟩) hupm hmu
  exact ⟨T, u, mu.1, mu.2, hgrid, hc, hiff, rfl⟩

theorem roundPair_one_spec {num : Nat} (hnum : 0 < num) (e : Int) :
    ∃ T u m u', Grid (num * 2 ^ e) T u ∧ Carry (num * 2 ^ e) T u m u' ∧
      binary64.roundPair num 1 e = if binary64.emax < u' then none else some (m, u') :=
  let ⟨T, u, m, u', hg, hc, _, hr⟩ := roundPair_one_near hnum e
  ⟨T, u, m, u', hg, hc, hr⟩

/-! ## Where a rounded value lands -/

/-- A double in the form rounding leaves: a significand below `2^53` on a
unit in range, with all its bits unless the unit is the least one. -/
def canonical : Binary64 → Bool
  | finite _ m e => decide (m < 2 ^ 53 ∧ binary64.emin ≤ e ∧ e ≤ binary64.emax ∧
      (2 ^ 52 ≤ m ∨ e = binary64.emin))
  | _ => true

theorem finiteVal_false (m : Nat) (e : Int) : finiteVal false m e = m * 2 ^ e := by
  simp [finiteVal]

theorem finiteVal_true_nonpos (m : Nat) (e : Int) : finiteVal true m e ≤ 0 := by
  have : (0 : ℚ) ≤ m * 2 ^ e := by positivity
  simp only [finiteVal, if_true]; linarith

theorem finiteVal_le (s : Bool) (m : Nat) (e : Int) : finiteVal s m e ≤ m * 2 ^ e := by
  cases s
  · rw [finiteVal_false]
  · exact le_trans (finiteVal_true_nonpos m e) (by positivity)

/-- Below `2^53` units of `2^e` is below `2^52` units of any larger `2^u`. -/
theorem mul_two_zpow_lt {m : Nat} {e u : Int} (hm : m < 2 ^ 53) (he : e < u) :
    (m : ℚ) * 2 ^ e < 2 ^ 52 * 2 ^ u := by
  have h2 : (2 : ℚ) ^ e ≤ 2 ^ (u - 1) := zpow_le_zpow_right₀ (by norm_num) (by omega)
  have hu : (2 : ℚ) ^ u = 2 ^ (u - 1) * 2 := by
    rw [← zpow_add_one₀ two_ne_zero]; congr 1; ring
  calc (m : ℚ) * 2 ^ e < 2 ^ 53 * 2 ^ e := by gcongr; exact_mod_cast hm
    _ ≤ 2 ^ 53 * 2 ^ (u - 1) := by gcongr
    _ = 2 ^ 52 * 2 ^ u := by rw [hu]; ring

/-- A whole number of units of `2^e` is a whole number of units of a smaller
`2^u`. -/
theorem mul_two_zpow_regroup (m : Nat) {e u : Int} (h : u ≤ e) :
    (m : ℚ) * 2 ^ e = ((m * 2 ^ (e - u).toNat : Nat) : ℚ) * 2 ^ u := by
  rw [@two_zpow_split (e - u).toNat u e (by omega)]; push_cast; ring

/-- A significand below `2^53` on a unit in range, at or below `V`, is at or
below the grid point. -/
theorem Grid.mul_le_of_le {V : ℚ} {T : Nat} {u : Int} (hg : Grid V T u) {m : Nat} {e : Int}
    (hm : m < 2 ^ 53) (hemin : binary64.emin ≤ e) (hle : (m : ℚ) * 2 ^ e ≤ V) :
    (m : ℚ) * 2 ^ e ≤ T * 2 ^ u := by
  rcases le_or_lt u e with h | h
  · -- on the grid: a whole number of units, fewer than `T + 1`
    rw [mul_two_zpow_regroup m h] at hle ⊢
    have hX : m * 2 ^ (e - u).toNat < T + 1 := by
      exact_mod_cast (mul_lt_mul_right (zpow_pos (by norm_num : (0 : ℚ) < 2) u)).1
        (lt_of_le_of_lt hle hg.high)
    gcongr; exact_mod_cast Nat.lt_succ_iff.1 hX
  · -- in a lower binade: below `2^52` units, and `T` has at least that many
    calc (m : ℚ) * 2 ^ e ≤ 2 ^ 52 * 2 ^ u := (mul_two_zpow_lt hm h).le
      _ ≤ T * 2 ^ u := by gcongr; exact_mod_cast hg.normal (lt_of_le_of_lt hemin h)

/-- A canonical double at or below `V` is at or below the grid point. -/
theorem Grid.le_of_le {V : ℚ} {T : Nat} {u : Int} (hg : Grid V T u) {s : Bool} {m : Nat}
    {e : Int} (hR : (finite s m e).canonical = true) (hle : finiteVal s m e ≤ V) :
    finiteVal s m e ≤ T * 2 ^ u := by
  simp only [canonical, decide_eq_true_eq] at hR
  obtain ⟨hm, hemin, -, -⟩ := hR
  cases s
  · rw [finiteVal_false] at hle ⊢
    exact hg.mul_le_of_le hm hemin hle
  · exact le_trans (finiteVal_true_nonpos m e) (by positivity)

/-- A canonical double at or above a positive `V` has a unit no finer than
the grid's. -/
theorem Grid.le_exp {V : ℚ} {T : Nat} {u : Int} (hg : Grid V T u) {s : Bool} {m : Nat}
    {e : Int} (hR : (finite s m e).canonical = true) (hle : V ≤ finiteVal s m e) : u ≤ e := by
  simp only [canonical, decide_eq_true_eq] at hR
  obtain ⟨hm, hemin, -, -⟩ := hR
  by_contra h
  have hT := hg.normal (lt_of_le_of_lt hemin (lt_of_not_le h))
  have : finiteVal s m e < T * 2 ^ u := calc
    finiteVal s m e ≤ m * 2 ^ e := finiteVal_le s m e
    _ < 2 ^ 52 * 2 ^ u := mul_two_zpow_lt hm (lt_of_not_le h)
    _ ≤ T * 2 ^ u := by gcongr; exact_mod_cast hT
  linarith [hg.low]

theorem Carry.grid_le {V : ℚ} {T : Nat} {u : Int} {m : Nat} {u' : Int} (hc : Carry V T u m u') :
    (T : ℚ) * 2 ^ u ≤ m * 2 ^ u' := by
  rcases hc.val with h | ⟨h, -⟩ <;> rw [h]
  have : (0 : ℚ) ≤ 2 ^ u := by positivity
  nlinarith

@[simp] theorem key?_finite (s : Bool) (m : Nat) (e : Int) :
    (finite s m e).key? = some ((finiteVal s m e : WithTop ℚ) : WithBot (WithTop ℚ)) := rfl

@[simp] theorem key?_infinity_false :
    (infinity false).key? = some ((⊤ : WithTop ℚ) : WithBot (WithTop ℚ)) := rfl

theorem coe_le_top' (a : WithBot (WithTop ℚ)) : a ≤ ((⊤ : WithTop ℚ) : WithBot (WithTop ℚ)) := by
  cases a with
  | bot => exact bot_le
  | coe a => exact WithBot.coe_le_coe.2 le_top

/-- Rounding never lands below a canonical double at or below the exact
value. -/
theorem le_round {num : Nat} (hnum : 0 < num) (e : Int) {s : Bool} {m : Nat} {e' : Int}
    (hR : (finite s m e').canonical = true) (hle : finiteVal s m e' ≤ num * 2 ^ e) :
    (round false num 1 e).ge (finite s m e') = true := by
  obtain ⟨T, u, m', u', hg, hc, hr⟩ := roundPair_one_spec hnum e
  unfold round
  rw [hr]
  split_ifs
  · exact ge_iff_key.2 ⟨_, _, key?_infinity_false, rfl, coe_le_top' _⟩
  · refine ge_iff_key.2 ⟨_, _, rfl, rfl, ?_⟩
    rw [WithBot.coe_le_coe, WithTop.coe_le_coe, finiteVal_false]
    exact le_trans (hg.le_of_le hR hle) hc.grid_le

/-- Rounding never lands above a canonical double at or above the exact
value, and so does not overflow. -/
theorem round_le {num : Nat} (hnum : 0 < num) (e : Int) {s : Bool} {m : Nat} {e' : Int}
    (hR : (finite s m e').canonical = true) (hle : num * 2 ^ e ≤ finiteVal s m e') :
    (finite s m e').ge (round false num 1 e) = true := by
  obtain ⟨T, u, m', u', hg, hc, hr⟩ := roundPair_one_spec hnum e
  have hpos : (0 : ℚ) < num * 2 ^ e := by positivity
  have hue := hg.le_exp hR hle
  have hRc := hR
  simp only [canonical, decide_eq_true_eq] at hRc
  obtain ⟨hm, -, hemax, -⟩ := hRc
  cases s
  · rw [finiteVal_false] at hle
    -- the rounded value stays at or below `R`, a whole number of units
    have hW : (m' : ℚ) * 2 ^ u' ≤ m * 2 ^ e' := by
      rcases hc.val with h | ⟨h, hlt⟩
      · rw [h]; exact le_trans hg.low hle
      · rw [h, mul_two_zpow_regroup m hue]
        rw [mul_two_zpow_regroup m hue] at hle
        have hX : T < m * 2 ^ (e' - u).toNat := by
          exact_mod_cast (mul_lt_mul_right (zpow_pos (by norm_num : (0 : ℚ) < 2) u)).1
            (lt_of_lt_of_le hlt hle)
        gcongr; exact_mod_cast hX
    -- so its unit is in range
    have hov : ¬ binary64.emax < u' := by
      rcases hc.exp with rfl | ⟨rfl, -, rfl⟩
      · exact not_lt.2 (le_trans hue hemax)
      · have hlt : u < e' := by
          by_contra h
          have h2 : (2 : ℚ) ^ e' ≤ 2 ^ u := zpow_le_zpow_right₀ (by norm_num) (not_lt.1 h)
          have : (2 : ℚ) ^ 52 * 2 ^ (u + 1) = 2 ^ 53 * 2 ^ u := by
            rw [zpow_add_one₀ two_ne_zero]; ring
          have h53 : (m : ℚ) < 2 ^ 53 := by exact_mod_cast hm
          have hmu : (m : ℚ) * 2 ^ e' < 2 ^ 53 * 2 ^ u :=
            calc (m : ℚ) * 2 ^ e' < 2 ^ 53 * 2 ^ e' := mul_lt_mul_of_pos_right h53 (zpow_pos two_pos e')
              _ ≤ 2 ^ 53 * 2 ^ u := mul_le_mul_of_nonneg_left h2 (by norm_num)
          push_cast at hW
          linarith
        exact not_lt.2 (le_trans (by omega) hemax)
    unfold round
    rw [hr, if_neg hov]
    exact ge_iff_key.2 ⟨_, _, rfl, rfl, by
      rw [WithBot.coe_le_coe, WithTop.coe_le_coe, finiteVal_false, finiteVal_false]; exact hW⟩
  · exact absurd (lt_of_lt_of_le hpos hle) (not_lt.2 (finiteVal_true_nonpos m e'))

/-- Every result of rounding is canonical. -/
theorem round_canonical (neg : Bool) (num : Nat) (e : Int) :
    (round neg num 1 e).canonical = true := by
  rcases Nat.eq_zero_or_pos num with rfl | hnum
  · cases neg <;> rfl
  · obtain ⟨T, u, m, u', -, hc, hr⟩ := roundPair_one_spec hnum e
    unfold round
    rw [hr]
    split_ifs with hov
    · rfl
    · simp only [canonical, decide_eq_true_eq]
      refine ⟨hc.lt_two_pow, hc.emin_le, not_lt.1 hov, ?_⟩
      rcases eq_or_lt_of_le hc.emin_le with h | h
      · exact .inr h.symm
      · exact .inl (hc.normal h)

/-! ## Sums of non-negative doubles -/

theorem zero_canonical : zero.canonical = true := by decide

@[simp] theorem key?_zero : zero.key? = some (((0 : ℚ) : WithTop ℚ) : WithBot (WithTop ℚ)) := by
  simp [zero, finiteVal]

/-- A double at or above `0.0`: a finite one of non-negative value, or `+∞`. -/
theorem ge_zero_cases {x : Binary64} (hx : x.ge zero = true) :
    (∃ s m e, x = finite s m e ∧ 0 ≤ finiteVal s m e) ∨ x = infinity false := by
  obtain ⟨a, b, ha, hb, hab⟩ := ge_iff_key.1 hx
  rw [key?_zero, Option.some.injEq] at hb
  subst hb
  cases x with
  | finite s m e =>
    simp only [key?_finite, Option.some.injEq] at ha
    subst ha
    exact .inl ⟨s, m, e, rfl, by exact_mod_cast hab⟩
  | infinity s =>
    cases s
    · exact .inr rfl
    · simp [key?] at ha; subst ha; exact absurd hab (not_le.2 (WithBot.bot_lt_coe _))
  | nan => cases ha

theorem finite_ge_zero {s : Bool} {m : Nat} {e : Int} (h : 0 ≤ finiteVal s m e) :
    (finite s m e).ge zero = true :=
  ge_iff_key.2 ⟨_, _, rfl, key?_zero, by exact_mod_cast h⟩

theorem infinity_false_ge (x : Binary64) (hx : x.key?.isSome) : (infinity false).ge x = true := by
  obtain ⟨a, ha⟩ := Option.isSome_iff_exists.1 hx
  exact ge_iff_key.2 ⟨_, _, key?_infinity_false, ha, coe_le_top' _⟩

/-- The sum of two finite doubles: the exact sum on the common unit, rounded,
or a zero when it vanishes. -/
theorem add_finite (s₁ : Bool) (m₁ : Nat) (e₁ : Int) (s₂ : Bool) (m₂ : Nat) (e₂ : Int) :
    ∃ c e : Int, (c : ℚ) * 2 ^ e = finiteVal s₁ m₁ e₁ + finiteVal s₂ m₂ e₂ ∧
      (finite s₁ m₁ e₁).add (finite s₂ m₂ e₂) =
        if c = 0 then finite (s₁ && s₂ && m₁ == 0) 0 binary64.emin
        else round (decide (c < 0)) c.natAbs 1 e := by
  refine ⟨_, min e₁ e₂, ?_, rfl⟩
  rw [Int.cast_add, add_mul, shifted_val s₁ m₁ (min_le_left e₁ e₂),
    shifted_val s₂ m₂ (min_le_right e₁ e₂)]

/-- The sum of two non-negative finite doubles: a zero when both are zero,
otherwise the exact sum rounded. -/
theorem add_of_nonneg {s₁ : Bool} {m₁ : Nat} {e₁ : Int} {s₂ : Bool} {m₂ : Nat} {e₂ : Int}
    (hx : 0 ≤ finiteVal s₁ m₁ e₁) (hy : 0 ≤ finiteVal s₂ m₂ e₂) :
    (finiteVal s₁ m₁ e₁ = 0 ∧ finiteVal s₂ m₂ e₂ = 0 ∧
      ((finite s₁ m₁ e₁).add (finite s₂ m₂ e₂)).key? = some (((0 : ℚ) : WithTop ℚ) : WithBot _)) ∨
    ∃ (num : Nat) (e : Int), 0 < num ∧ (num : ℚ) * 2 ^ e = finiteVal s₁ m₁ e₁ + finiteVal s₂ m₂ e₂ ∧
      (finite s₁ m₁ e₁).add (finite s₂ m₂ e₂) = round false num 1 e := by
  obtain ⟨c, e, hc, heq⟩ := add_finite s₁ m₁ e₁ s₂ m₂ e₂
  rw [heq]
  have hpow : (0 : ℚ) < 2 ^ e := zpow_pos (by norm_num) e
  by_cases h0 : c = 0
  · rw [if_pos h0]
    rw [h0, Int.cast_zero, zero_mul] at hc
    exact .inl ⟨by linarith, by linarith, by simp [finiteVal]⟩
  · rw [if_neg h0]
    have hcpos : 0 < c := by
      rcases lt_or_gt_of_ne h0 with h | h
      · have : (c : ℚ) * 2 ^ e < 0 := mul_neg_of_neg_of_pos (by exact_mod_cast h) hpow
        linarith
      · exact h
    refine .inr ⟨c.natAbs, e, by omega, ?_, by rw [decide_eq_false (by omega)]⟩
    rw [← hc, Nat.cast_natAbs, Int.cast_abs, abs_of_pos (by exact_mod_cast hcpos)]

/-- A sum of non-negative doubles is at least its first term. -/
theorem add_ge_left {x y : Binary64} (hc : x.canonical = true) (hx : x.ge zero = true)
    (hy : y.ge zero = true) : (x.add y).ge x = true := by
  rcases ge_zero_cases hx with ⟨s₁, m₁, e₁, rfl, hx'⟩ | rfl
  · rcases ge_zero_cases hy with ⟨s₂, m₂, e₂, rfl, hy'⟩ | rfl
    · rcases add_of_nonneg hx' hy' with ⟨h₁, -, hk⟩ | ⟨num, e, hnum, hval, heq⟩
      · exact ge_iff_key.2 ⟨_, _, hk, rfl, by rw [h₁]⟩
      · rw [heq]; exact le_round hnum e hc (by rw [hval]; linarith)
    · exact infinity_false_ge _ rfl
  · rcases ge_zero_cases hy with ⟨s₂, m₂, e₂, rfl, -⟩ | rfl <;> exact infinity_false_ge _ rfl

/-- A sum of non-negative doubles is at least its second term. -/
theorem add_ge_right {x y : Binary64} (hc : y.canonical = true) (hx : x.ge zero = true)
    (hy : y.ge zero = true) : (x.add y).ge y = true := by
  rcases ge_zero_cases hx with ⟨s₁, m₁, e₁, rfl, hx'⟩ | rfl
  · rcases ge_zero_cases hy with ⟨s₂, m₂, e₂, rfl, hy'⟩ | rfl
    · rcases add_of_nonneg hx' hy' with ⟨-, h₂, hk⟩ | ⟨num, e, hnum, hval, heq⟩
      · exact ge_iff_key.2 ⟨_, _, hk, rfl, by rw [h₂]⟩
      · rw [heq]; exact le_round hnum e hc (by rw [hval]; linarith)
    · exact infinity_false_ge _ rfl
  · rcases ge_zero_cases hy with ⟨s₂, m₂, e₂, rfl, -⟩ | rfl <;> exact infinity_false_ge _ rfl

/-- A sum of non-negative doubles is non-negative. -/
theorem add_ge_zero {x y : Binary64} (hx : x.ge zero = true) (hy : y.ge zero = true) :
    (x.add y).ge zero = true := by
  rcases ge_zero_cases hx with ⟨s₁, m₁, e₁, rfl, hx'⟩ | rfl
  · rcases ge_zero_cases hy with ⟨s₂, m₂, e₂, rfl, hy'⟩ | rfl
    · rcases add_of_nonneg hx' hy' with ⟨-, -, hk⟩ | ⟨num, e, hnum, hval, heq⟩
      · exact ge_iff_key.2 ⟨_, _, hk, key?_zero, le_rfl⟩
      · rw [heq]
        exact le_round hnum e zero_canonical
          (by rw [hval, show finiteVal false 0 binary64.emin = 0 by simp [finiteVal]]; linarith)
    · exact infinity_false_ge _ rfl
  · rcases ge_zero_cases hy with ⟨s₂, m₂, e₂, rfl, -⟩ | rfl <;> exact infinity_false_ge _ rfl

/-- A sum of two non-negative finite doubles is at most any canonical double
at or above the exact sum. -/
theorem add_le {s₁ : Bool} {m₁ : Nat} {e₁ : Int} {s₂ : Bool} {m₂ : Nat} {e₂ : Int}
    (hx : 0 ≤ finiteVal s₁ m₁ e₁) (hy : 0 ≤ finiteVal s₂ m₂ e₂) {s : Bool} {m : Nat} {e : Int}
    (hR : (finite s m e).canonical = true)
    (hle : finiteVal s₁ m₁ e₁ + finiteVal s₂ m₂ e₂ ≤ finiteVal s m e) :
    (finite s m e).ge ((finite s₁ m₁ e₁).add (finite s₂ m₂ e₂)) = true := by
  rcases add_of_nonneg hx hy with ⟨h₁, h₂, hk⟩ | ⟨num, e', hnum, hval, heq⟩
  · exact ge_iff_key.2 ⟨_, _, rfl, hk, by
      rw [WithBot.coe_le_coe, WithTop.coe_le_coe]; linarith⟩
  · rw [heq]; exact round_le hnum e' hR (by rw [hval]; exact hle)

/-- Every sum is canonical. -/
theorem add_canonical (x y : Binary64) : (x.add y).canonical = true := by
  cases x with
  | finite s₁ m₁ e₁ =>
    cases y with
    | finite s₂ m₂ e₂ =>
      obtain ⟨c, e, -, heq⟩ := add_finite s₁ m₁ e₁ s₂ m₂ e₂
      rw [heq]
      split
      · rfl
      · exact round_canonical _ _ _
    | _ => rfl
  | infinity s =>
    cases y with
    | infinity t => simp only [add]; split <;> rfl
    | _ => rfl
  | nan => cases y <;> rfl

/-- `len / divider` of a non-negative length is non-negative. -/
theorem divNat_ge_zero {x : Binary64} (hx : x.ge zero = true) {d : Nat} (hd : 0 < d) :
    (x.divNat d).ge zero = true := by
  rcases ge_zero_cases hx with ⟨s, m, e, rfl, hx'⟩ | rfl
  · rw [divNat, if_neg (by omega)]
    cases s
    · unfold round
      split
      · exact finite_ge_zero (by rw [finiteVal_false]; positivity)
      · exact infinity_false_ge _ rfl
    · have hm : m = 0 := by
        have := finiteVal_true_nonpos m e
        have h2 : (0 : ℚ) < 2 ^ e := zpow_pos (by norm_num) e
        by_contra h
        have : (0 : ℚ) < m * 2 ^ e := mul_pos (by exact_mod_cast Nat.pos_of_ne_zero h) h2
        simp only [finiteVal, if_true] at hx'
        linarith
      subst hm
      exact finite_ge_zero (by simp [finiteVal])
  · exact infinity_false_ge _ rfl

end Binary64

end FreewpcSched
