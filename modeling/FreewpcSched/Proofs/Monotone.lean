import FreewpcSched.Proofs.Double

/-!
# Rounding is monotone

A tick's length only ever grows by a share `len / divider` of a task whose
whole `len` fitted: `find_best_tick` tests `candidate_len + len >= 1.0`, and
the placement loop then adds `len / divider`. That the tick stays below `1.0`
needs two facts about `double` that the bounds of `Double.lean` do not give.

The share is at most the length: every divider is a power of two, and
dividing by `2^j` only moves the unit of the exact value, so the share is
the length's own rounding on a lower unit (`roundPair_two_pow`).

A smaller exact sum never rounds to a larger double (`round_mono`). Bounds
alone do not give this: a value just below a midpoint and one just above it
round apart. The argument is the one for round to nearest: if the smaller
value rounds above the larger one, it rounds up, the larger one lies on the
same grid below the same upper point, and it is at least as far past the
midpoint, so it rounds up to that point too (`Carry.mono`).
-/

namespace FreewpcSched

namespace Binary64

/-! ## Dividing by a power of two -/

theorem bitLen_two_pow (j : Nat) : bitLen (2 ^ j) (2 ^ j) = j + 1 := by
  obtain ⟨h₁, h₂, -⟩ := bitLen_spec (2 ^ j) (2 ^ j) (Nat.two_pow_pos j) le_rfl
  have := (Nat.pow_lt_pow_iff_right (by omega : 1 < 2)).1 h₂
  have := (Nat.pow_le_pow_iff_right (by omega : 1 < 2)).1 h₁
  omega

/-- Dividing by `2^j` rounds the same spare-bit quotient, on a unit `2^j`
finer: the extra bits of the shift are exactly the divisor's. -/
theorem roundPair_two_pow (f : Format) (num j : Nat) (e : Int) :
    f.roundPair num (2 ^ j) e = f.roundPair num 1 (e - j) := by
  have hk : f.prec + 2 + (j + 1) = f.prec + 2 + 1 + j := by omega
  have hq : num <<< (f.prec + 2 + (j + 1)) / 2 ^ j = num <<< (f.prec + 2 + 1) / 1 := by
    rw [Nat.div_one, Nat.shiftLeft_eq, Nat.shiftLeft_eq, hk, Nat.pow_add, ← Nat.mul_assoc,
      Nat.mul_div_cancel _ (Nat.two_pow_pos j)]
  have hr : num <<< (f.prec + 2 + (j + 1)) % 2 ^ j = num <<< (f.prec + 2 + 1) % 1 := by
    rw [Nat.mod_one, Nat.shiftLeft_eq, hk, Nat.pow_add, ← Nat.mul_assoc, Nat.mul_mod_left]
  have he : e - ((f.prec + 2 + (j + 1) : Nat) : Int) - 1 =
      e - j - ((f.prec + 2 + 1 : Nat) : Int) - 1 := by
    push_cast; ring
  unfold Format.roundPair
  simp only [bitLen_two_pow, show bitLen 1 1 = 1 from rfl, hq, hr, he]

theorem divNat_two_pow (s : Bool) (m j : Nat) (e : Int) :
    (finite s m e).divNat (2 ^ j) = round s m 1 (e - j) := by
  rw [divNat, if_neg (Nat.two_pow_pos j).ne', round, round, roundPair_two_pow]

/-- A non-negative double divided by a power of two is at most itself. -/
theorem ge_divNat_two_pow {x : Binary64} (hc : x.canonical = true) (hx : x.ge zero = true)
    (j : Nat) : x.ge (x.divNat (2 ^ j)) = true := by
  rcases ge_zero_cases hx with ⟨s, m, e, rfl, hx'⟩ | rfl
  · rw [divNat_two_pow]
    rcases Nat.eq_zero_or_pos m with rfl | hm
    · -- a zero divides to a zero
      exact ge_iff_key.2 ⟨_, _, rfl, rfl, by simp [finiteVal]⟩
    · cases s
      · refine round_le hm (e - j) hc ?_
        rw [finiteVal_false]
        exact mul_le_mul_of_nonneg_left (zpow_le_zpow_right₀ (by norm_num) (by omega))
          (by positivity)
      · have : (0 : ℚ) < m * 2 ^ e := by positivity
        simp only [finiteVal, if_true] at hx'
        linarith
  · exact ge_refl' rfl

/-! ## The grid of a value is unique -/

/-- Two grids of one value: the second unit is no coarser than the first,
since a full significand on a coarser unit would put the value past
`2^53` units of the finer one. -/
theorem Grid.exp_le {V : ℚ} {T T' : Nat} {u u' : Int} (g : Grid V T u) (g' : Grid V T' u') :
    u' ≤ u := by
  by_contra h
  rw [not_le] at h
  have hT' : (2 : ℚ) ^ 52 ≤ T' := by exact_mod_cast g'.normal (lt_of_le_of_lt g.emin_le h)
  have hT : (T : ℚ) + 1 ≤ 2 ^ 53 := by
    have : T + 1 ≤ 2 ^ 53 := g.lt_two_pow
    exact_mod_cast this
  have hu : (2 : ℚ) ^ 53 * 2 ^ u ≤ 2 ^ 52 * 2 ^ u' := by
    rw [show (2 : ℚ) ^ 53 * 2 ^ u = 2 ^ 52 * 2 ^ (u + 1) by rw [zpow_add_one₀ two_ne_zero]; ring]
    exact mul_le_mul_of_nonneg_left (zpow_le_zpow_right₀ (by norm_num) (by omega)) (by positivity)
  have := calc (2 : ℚ) ^ 52 * 2 ^ u' ≤ T' * 2 ^ u' := by gcongr
    _ ≤ V := g'.low
    _ < (T + 1) * 2 ^ u := g.high
    _ ≤ 2 ^ 53 * 2 ^ u := by gcongr
    _ ≤ 2 ^ 52 * 2 ^ u' := hu
  exact lt_irrefl _ this

theorem Grid.unique {V : ℚ} {T T' : Nat} {u u' : Int} (g : Grid V T u) (g' : Grid V T' u') :
    T = T' ∧ u = u' := by
  obtain rfl : u = u' := le_antisymm (g'.exp_le g) (g.exp_le g')
  have h2 : (0 : ℚ) < 2 ^ u := zpow_pos (by norm_num) u
  have h₁ : (T : ℚ) < T' + 1 := (mul_lt_mul_right h2).1 (lt_of_le_of_lt g.low g'.high)
  have h₂ : (T' : ℚ) < T + 1 := (mul_lt_mul_right h2).1 (lt_of_le_of_lt g'.low g.high)
  have : T < T' + 1 := by exact_mod_cast h₁
  have : T' < T + 1 := by exact_mod_cast h₂
  exact ⟨by omega, rfl⟩

/-! ## Monotone rounding -/

theorem RoundsUp.mono {V W : ℚ} {T : Nat} {u : Int} (h : RoundsUp V T u) (hle : V ≤ W) :
    RoundsUp W T u := by
  rcases h with h | ⟨rfl, hodd⟩
  · exact .inl (lt_of_lt_of_le h hle)
  · rcases hle.eq_or_lt with rfl | hlt
    · exact .inr ⟨rfl, hodd⟩
    · exact .inl hlt

/-- Of two rounded values in order, the larger has the coarser unit: a full
significand on a coarser unit is above every significand on a finer one. -/
theorem Carry.exp_le {V W : ℚ} {T T₂ m m₂ : Nat} {u u₂ u' u₂' : Int} (c : Carry V T u m u')
    (c₂ : Carry W T₂ u₂ m₂ u₂') (hval : (m : ℚ) * 2 ^ u' ≤ m₂ * 2 ^ u₂') : u' ≤ u₂' := by
  by_contra h
  rw [not_le] at h
  have hlt := mul_two_zpow_lt c₂.lt_two_pow h
  have hm : (2 : ℚ) ^ 52 ≤ m := by exact_mod_cast c.normal (lt_of_le_of_lt c₂.emin_le h)
  have : (2 : ℚ) ^ 52 * 2 ^ u' ≤ m * 2 ^ u' := by gcongr
  linarith

/-- The rounding of `V` is at most that of any `W ≥ V`. Either it is at most
`W`, and so at most `W`'s grid point; or it went up past `W`, and then `W`
sits on the same grid, at least as far past the midpoint, and goes up to the
same point. -/
theorem Carry.mono {V W : ℚ} {T T₂ m m₂ : Nat} {u u₂ u' u₂' : Int} (g : Grid V T u)
    (c : Carry V T u m u') (hup : (m : ℚ) * 2 ^ u' = (T + 1) * 2 ^ u → RoundsUp V T u)
    (g₂ : Grid W T₂ u₂) (c₂ : Carry W T₂ u₂ m₂ u₂')
    (hup₂ : RoundsUp W T₂ u₂ → (m₂ : ℚ) * 2 ^ u₂' = (T₂ + 1) * 2 ^ u₂) (hle : V ≤ W) :
    (m : ℚ) * 2 ^ u' ≤ m₂ * 2 ^ u₂' := by
  by_cases hW : (m : ℚ) * 2 ^ u' ≤ W
  · exact le_trans (g₂.mul_le_of_le c.lt_two_pow c.emin_le hW) c₂.grid_le
  · rw [not_le] at hW
    rcases c.val with h | ⟨h, -⟩
    · exact (not_le.2 hW (by rw [h]; exact g.low.trans hle)).elim
    · have gW : Grid W T u := ⟨g.low.trans hle, by rw [← h]; exact hW, g.emin_le, g.lt_two_pow,
        g.normal⟩
      obtain ⟨rfl, rfl⟩ := gW.unique g₂
      rw [h, hup₂ ((hup h).mono hle)]

/-- Rounding is monotone. -/
theorem round_mono {num₁ num₂ : Nat} (hnum : 0 < num₁) {e₁ e₂ : Int}
    (hle : (num₁ : ℚ) * 2 ^ e₁ ≤ num₂ * 2 ^ e₂) :
    (round false num₂ 1 e₂).ge (round false num₁ 1 e₁) = true := by
  have hnum₂ : 0 < num₂ := Nat.pos_of_ne_zero fun h => by
    subst h
    have : (0 : ℚ) < num₁ * 2 ^ e₁ := by positivity
    simp only [Nat.cast_zero, zero_mul] at hle
    linarith
  obtain ⟨T, u, m, u', g, c, hup, hr⟩ := roundPair_one_near hnum e₁
  obtain ⟨T₂, u₂, m₂, u₂', g₂, c₂, hup₂, hr₂⟩ := roundPair_one_near hnum₂ e₂
  have hval := c.mono g hup.1 g₂ c₂ hup₂.2 hle
  unfold round
  rw [hr, hr₂]
  by_cases ho₂ : binary64.emax < u₂'
  · rw [if_pos ho₂]
    split_ifs <;> exact infinity_false_ge _ rfl
  · have ho : ¬ binary64.emax < u' := fun ho => ho₂ (lt_of_lt_of_le ho (c.exp_le c₂ hval))
    rw [if_neg ho₂, if_neg ho]
    exact ge_iff_key.2 ⟨_, _, rfl, rfl, by
      rw [WithBot.coe_le_coe, WithTop.coe_le_coe, finiteVal_false, finiteVal_false]; exact hval⟩

/-! ## Sums -/

/-- A double at or above `+∞` is `+∞`. -/
theorem eq_infinity_of_ge {z : Binary64} (h : z.ge (infinity false) = true) :
    z = infinity false := by
  obtain ⟨a, b, ha, hb, hab⟩ := ge_iff_key.1 h
  rw [key?_infinity_false, Option.some.injEq] at hb
  subst hb
  cases z with
  | finite s m e =>
    rw [key?_finite, Option.some.injEq] at ha
    subst ha
    exact absurd (WithBot.coe_le_coe.1 hab) (not_le.2 (WithTop.coe_lt_top _))
  | infinity s =>
    cases s
    · rfl
    · simp only [key?, if_true, Option.some.injEq] at ha
      subst ha
      exact absurd hab (not_le.2 (WithBot.bot_lt_coe _))
  | nan => cases ha

/-- Adding a larger non-negative double to a non-negative one never gives a
smaller sum. -/
theorem add_mono {x y z : Binary64} (hx : x.ge zero = true) (hy : y.ge zero = true)
    (hyz : z.ge y = true) : (x.add z).ge (x.add y) = true := by
  have hz := ge_trans' hyz hy
  have hk : (x.add y).key?.isSome := by
    obtain ⟨a, -, ha, -⟩ := ge_iff_key.1 (add_ge_zero hx hy)
    rw [ha]; rfl
  rcases ge_zero_cases hx with ⟨s₁, m₁, e₁, rfl, hx'⟩ | rfl
  · rcases ge_zero_cases hy with ⟨s₂, m₂, e₂, rfl, hy'⟩ | rfl
    · rcases ge_zero_cases hz with ⟨s₃, m₃, e₃, rfl, hz'⟩ | rfl
      · have hle : finiteVal s₂ m₂ e₂ ≤ finiteVal s₃ m₃ e₃ := by
          obtain ⟨a, b, ha, hb, hab⟩ := ge_iff_key.1 hyz
          simp only [key?_finite, Option.some.injEq] at ha hb
          subst ha hb
          exact_mod_cast hab
        rcases add_of_nonneg hx' hy' with ⟨-, -, hk0⟩ | ⟨num, e, hnum, hval, heq⟩
        · obtain ⟨a, b, ha, hb, hab⟩ := ge_iff_key.1 (add_ge_zero hx hz)
          rw [key?_zero, Option.some.injEq] at hb
          subst hb
          exact ge_iff_key.2 ⟨a, _, ha, hk0, hab⟩
        · rcases add_of_nonneg hx' hz' with ⟨h₁, h₃, -⟩ | ⟨num', e', -, hval', heq'⟩
          · have : (0 : ℚ) < num * 2 ^ e := by positivity
            linarith
          · rw [heq, heq']
            exact round_mono hnum (by rw [hval, hval']; linarith)
      · exact infinity_false_ge _ hk
    · obtain rfl := eq_infinity_of_ge hyz
      exact ge_refl' hk
  · rcases ge_zero_cases hy with ⟨s₂, m₂, e₂, rfl, -⟩ | rfl <;>
      rcases ge_zero_cases hz with ⟨s₃, m₃, e₃, rfl, -⟩ | rfl <;> exact infinity_false_ge _ rfl

end Binary64

end FreewpcSched
